import Mathlib.Data.List.GetD
import Mathlib.Data.List.Nodup
import Mathlib.Tactic.Common
import Tracefold.Cbor.Value

/-! Digits spelled with the letters of an alphabet, and read from the bytes of a text. -/

namespace Tracefold.Library

open DagCbor (utf8 utf8_injective)

/-- Distinct letters, each of one byte. -/
structure Alphabet where
  letters : List Char
  ascii : ∀ c ∈ letters, c.toNat < 128
  nodup : letters.Nodup

theorem ascii_of_all {letters : List Char} (h : letters.all (fun c => c.toNat < 128) = true) :
    ∀ c ∈ letters, c.toNat < 128 :=
  fun c hc => of_decide_eq_true (List.all_eq_true.mp h c hc)

theorem utf8_ofList (text : List Char) :
    utf8 (String.ofList text) = text.flatMap String.utf8EncodeChar := by
  rw [utf8, String.toByteArray_ofList, List.utf8Encode, List.toList_data_toByteArray]

theorem utf8_ofList_append (text more : List Char) :
    utf8 (String.ofList (text ++ more)) = utf8 (String.ofList text) ++ utf8 (String.ofList more) := by
  rw [utf8_ofList, utf8_ofList, utf8_ofList, List.flatMap_append]

theorem utf8EncodeChar_ascii {c : Char} (h : c.toNat < 128) :
    String.utf8EncodeChar c = [UInt8.ofNat c.toNat] := by
  have hle : c.val ≤ 127 := UInt32.le_iff_toNat_le.mpr (Nat.le_of_lt_succ h)
  rw [String.utf8EncodeChar_eq_singleton (Char.utf8Size_eq_one_iff.mpr hle)]
  rfl

namespace Alphabet

variable {A : Alphabet} {n value : ℕ} {raw : List UInt8} {values : List ℕ}

/-- The letter of a digit. -/
def letter (A : Alphabet) (value : ℕ) : Char := A.letters.getD value ' '

/-- The digit a byte is the letter of. -/
def position (A : Alphabet) (byte : UInt8) : Option ℕ :=
  A.letters.findIdx? fun c => c.toNat == byte.toNat

/-- The digits of some bytes, or the place of the first that is no letter. -/
def read (A : Alphabet) : ℕ → List UInt8 → Except ℕ (List ℕ)
  | _, [] => .ok []
  | n, byte :: rest =>
    match A.position byte with
    | none => .error n
    | some value =>
      match A.read (n + 1) rest with
      | .error at_ => .error at_
      | .ok values => .ok (value :: values)

theorem letter_mem (h : value < A.letters.length) : A.letter value ∈ A.letters := by
  rw [letter, List.getD_eq_getElem _ _ h]
  exact List.getElem_mem h

theorem letter_ascii (h : value < A.letters.length) : (A.letter value).toNat < 128 :=
  A.ascii _ (letter_mem h)

/-- The byte of a letter. -/
def byteOf (A : Alphabet) (value : ℕ) : UInt8 := UInt8.ofNat (A.letter value).toNat

theorem toNat_byteOf (h : value < A.letters.length) :
    (A.byteOf value).toNat = (A.letter value).toNat := by
  have hascii := letter_ascii h
  rw [byteOf, UInt8.toNat_ofNat']
  omega

theorem position_eq_some {byte : UInt8} :
    A.position byte = some value ↔ value < A.letters.length ∧ A.byteOf value = byte := by
  rw [position, List.findIdx?_eq_some_iff_getElem]
  constructor
  · rintro ⟨hlt, hbyte, _⟩
    refine ⟨hlt, ?_⟩
    apply UInt8.toNat_inj.mp
    rw [toNat_byteOf hlt, letter, List.getD_eq_getElem _ _ hlt]
    exact eq_of_beq hbyte
  · rintro ⟨hlt, rfl⟩
    have hvalue : (A.byteOf value).toNat = (A.letters[value]).toNat := by
      rw [toNat_byteOf hlt, letter, List.getD_eq_getElem _ _ hlt]
    refine ⟨hlt, beq_of_eq hvalue.symm, ?_⟩
    intro i hi heq
    have hsame : A.letters[i] = A.letters[value] := by
      apply Char.toNat_inj.mp
      rw [← hvalue]
      exact eq_of_beq heq
    rw [List.Nodup.getElem_inj_iff A.nodup] at hsame
    omega

theorem utf8_letters (h : ∀ v ∈ values, v < A.letters.length) :
    utf8 (String.ofList (values.map A.letter)) = values.map A.byteOf := by
  rw [utf8_ofList]
  induction values with
  | nil => rfl
  | cons value values ih =>
    rw [List.map_cons, List.flatMap_cons, List.map_cons,
      ih fun v hv => h v (List.mem_cons_of_mem _ hv),
      utf8EncodeChar_ascii (letter_ascii (h value List.mem_cons_self))]
    rfl

theorem read_eq_ok : A.read n raw = .ok values ↔
    (∀ v ∈ values, v < A.letters.length) ∧ values.map A.byteOf = raw := by
  induction raw generalizing n values with
  | nil =>
    rw [read, List.map_eq_nil_iff]
    constructor
    · intro h
      cases h
      exact ⟨nofun, rfl⟩
    · rintro ⟨_, rfl⟩
      rfl
  | cons byte rest ih =>
    rw [read]
    constructor
    · intro h
      split at h
      next => cases h
      next value hvalue =>
        obtain ⟨hlt, hbyte⟩ := position_eq_some.mp hvalue
        split at h
        next => cases h
        next values' hvalues =>
          cases h
          obtain ⟨hall, hrest⟩ := ih.mp hvalues
          exact ⟨List.forall_mem_cons.mpr ⟨hlt, hall⟩, by rw [List.map_cons, hbyte, hrest]⟩
    · rintro ⟨hall, hbytes⟩
      cases values with
      | nil => cases hbytes
      | cons value values =>
        obtain ⟨hlt, hall⟩ := List.forall_mem_cons.mp hall
        rw [List.map_cons, List.cons.injEq] at hbytes
        rw [position_eq_some.mpr ⟨hlt, hbytes.1⟩]
        dsimp only
        rw [ih.mpr ⟨hall, hbytes.2⟩]

theorem read_utf8_eq_ok {text : List Char} : A.read n (utf8 (String.ofList text)) = .ok values ↔
    (∀ v ∈ values, v < A.letters.length) ∧ text = values.map A.letter := by
  rw [read_eq_ok]
  constructor
  · rintro ⟨hall, hbytes⟩
    rw [← utf8_letters hall] at hbytes
    exact ⟨hall, (String.ofList_injective (utf8_injective hbytes)).symm⟩
  · rintro ⟨hall, rfl⟩
    exact ⟨hall, (utf8_letters hall).symm⟩

end Alphabet

end Tracefold.Library
