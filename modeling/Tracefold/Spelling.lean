import Mathlib.Data.List.TakeWhile
import Mathlib.Data.Vector.Basic
import Mathlib.Tactic.Common
import Tracefold.Library.Alphabet
import Tracefold.Library.Bits
import Tracefold.Locator

/-! The two spellings of gx-core: of a content id, and of a byte string in base64. -/

namespace Tracefold.Spelling

open Library Library.Bits Locator
open DagCbor (utf8 utf8_injective)

/-- The numbers of some bytes, and bytes of numbers below 256. -/
def numbers (bytes : Bytes) : List ℕ := bytes.map UInt8.toNat

def bytesOf (digits : List ℕ) : Bytes := digits.map UInt8.ofNat

theorem numbers_lt (bytes : Bytes) : ∀ d ∈ numbers bytes, d < 2 ^ 8 := by
  intro d hd
  obtain ⟨x, _, rfl⟩ := List.mem_map.mp hd
  exact x.toNat_lt

theorem bytesOf_numbers (bytes : Bytes) : bytesOf (numbers bytes) = bytes := by
  rw [bytesOf, numbers, List.map_map]
  exact (List.map_congr_left fun x _ => UInt8.ofNat_toNat).trans (List.map_id _)

theorem numbers_bytesOf {digits : List ℕ} (h : ∀ d ∈ digits, d < 2 ^ 8) :
    numbers (bytesOf digits) = digits := by
  rw [bytesOf, numbers, List.map_map]
  refine (List.map_congr_left fun d hd => ?_).trans (List.map_id _)
  have hlt := h d hd
  rw [Function.comp_apply, UInt8.toNat_ofNat']
  exact Nat.mod_eq_of_lt hlt

section Cid

/-- A digest of 32 bytes, as `Cid` holds one. -/
abbrev Digest := Vector UInt8 32

/-- `CID_TEXT_PREFIX`, `CID_ALPHABET`, `CID_BODY_LEN` and `CID_TAIL_BITS`. -/
def cidTextPrefix : Text := "gx1:".toList

def cidAlphabet : Alphabet where
  letters := "abcdefghijklmnopqrstuvwxyz234567".toList
  ascii := ascii_of_all (by decide)
  nodup := by decide

def cidBodyLen : ℕ := 52

def cidTailBits : ℕ := 4

/-- `Cid::to_text`. -/
def toText (cid : Digest) : Text :=
  let run := regroup 8 5 0 0 (numbers cid.toList)
  let last :=
    if 0 < run.2.2 then [((run.2.1 <<< (5 - run.2.2)) % 2 ^ 32) &&& (2 ^ 5 - 1)] else []
  cidTextPrefix ++ (run.1 ++ last).map cidAlphabet.letter

/-- Why a text is not one of a content id. -/
inductive CidText where
  | noPrefix
  | length (bytes : ℕ)
  | character (position : ℕ)
  | tail
  deriving DecidableEq, Repr

/-- The digits of the body, regrouped into the 32 bytes, under the check of the bits left over. -/
def digestOf (values : List ℕ) : Except CidText Digest :=
  let run := regroupOnce 5 8 0 0 values
  if run.2.2 ≠ cidTailBits ∨ run.2.1 &&& (2 ^ cidTailBits - 1) ≠ 0 then .error .tail
  else .ok (Vector.ofFn fun i => (bytesOf run.1).getD i 0)

/-- `Cid::from_text`. -/
def fromText (text : Text) : Except CidText Digest :=
  if cidTextPrefix <+: text then
    let body := utf8 (String.ofList (text.drop cidTextPrefix.length))
    if body.length ≠ cidBodyLen then .error (.length body.length)
    else
      match cidAlphabet.read 0 body with
      | .error position => .error (.character position)
      | .ok values => digestOf values
  else .error .noPrefix

/-- The digits of base 32 that spell a digest: its bits, and four zeros behind them. -/
def Spells (values : List ℕ) (cid : Digest) : Prop :=
  (∀ v ∈ values, v < 2 ^ 5) ∧
    bitsOf 5 values = bitsOf 8 (numbers cid.toList) ++ List.replicate cidTailBits false

theorem Spells.unique {values values' : List ℕ} {cid : Digest} (h : Spells values cid)
    (h' : Spells values' cid) : values = values' :=
  bitsOf_inj (by decide) h.1 h'.1 (h.2.trans h'.2.symm)

theorem Spells.length {values : List ℕ} {cid : Digest} (h : Spells values cid) :
    values.length = cidBodyLen := by
  have hlength := congrArg List.length h.2
  rw [length_bitsOf, List.length_append, length_bitsOf, List.length_replicate, numbers,
    List.length_map, Vector.length_toList, cidTailBits] at hlength
  rw [cidBodyLen]
  omega

theorem toText_spells (cid : Digest) :
    ∃ values, toText cid = cidTextPrefix ++ values.map cidAlphabet.letter ∧ Spells values cid := by
  obtain ⟨hbits, hrest, hdigits⟩ := @regroup_spec 8 5 0 0 (by decide) (by decide)
    (numbers cid.toList) (numbers_lt _) (by decide)
  have hlength := congrArg List.length hbits
  rw [List.length_append, List.length_append, length_bits, length_bits, length_bitsOf,
    length_bitsOf, numbers, List.length_map, Vector.length_toList, ← numbers] at hlength
  rw [toText]
  generalize regroup 8 5 0 0 (numbers cid.toList) = run at hbits hrest hdigits hlength ⊢
  obtain ⟨out, acc, pending⟩ := run
  dsimp only at hbits hrest hdigits hlength ⊢
  obtain rfl : pending = 1 := by omega
  refine ⟨_, rfl, ?_, ?_⟩
  · intro v hv
    rcases List.mem_append.mp hv with hv | hv
    · exact hdigits v hv
    · rw [if_pos Nat.one_pos, List.mem_singleton] at hv
      rw [hv, Nat.and_two_pow_sub_one_eq_mod]
      exact Nat.mod_lt _ (by decide)
  · have hlast : bits 5 (((acc <<< (5 - 1)) % 2 ^ 32) &&& (2 ^ 5 - 1)) =
        bits 1 acc ++ List.replicate 4 false := by
      rw [Nat.and_two_pow_sub_one_eq_mod, bits_mod, ← bits_shiftLeft 1 4 acc]
      apply bits_congr
      intro i hi
      have hin : i < 32 := by omega
      rw [Nat.testBit_mod_two_pow, decide_eq_true hin, Bool.true_and]
    rw [bits, List.nil_append] at hbits
    rw [if_pos Nat.one_pos, bitsOf_append, ← hbits, List.append_assoc, cidTailBits, ← hlast]
    simp [bitsOf]

/-- The body regrouped: 32 bytes, and four bits over. -/
theorem regroup_body {values : List ℕ} (hvalues : ∀ v ∈ values, v < 2 ^ 5)
    (hcount : values.length = cidBodyLen) :
    ∃ out acc, regroupOnce 5 8 0 0 values = (out, acc, cidTailBits) ∧ out.length = 32 ∧
      (∀ d ∈ out, d < 2 ^ 8) ∧ bitsOf 8 out ++ bits cidTailBits acc = bitsOf 5 values := by
  obtain ⟨hbits, hrest, hdigits⟩ := @regroup_spec 5 8 0 0 (by decide) (by decide) values hvalues
    (by decide)
  have hlength := congrArg List.length hbits
  rw [List.length_append, List.length_append, length_bits, length_bits, length_bitsOf,
    length_bitsOf, hcount, cidBodyLen] at hlength
  rw [regroupOnce_eq (by decide) (by decide) (by decide)]
  generalize regroup 5 8 0 0 values = run at hbits hrest hdigits hlength ⊢
  obtain ⟨out, acc, pending⟩ := run
  dsimp only at hbits hrest hdigits hlength ⊢
  obtain rfl : pending = cidTailBits := by
    rw [cidTailBits]
    omega
  rw [cidTailBits] at hlength
  refine ⟨out, acc, rfl, by omega, hdigits, ?_⟩
  rw [hbits, bits, List.nil_append]

theorem ofFn_getD {bytes : Bytes} (h : bytes.length = 32) :
    (Vector.ofFn fun i : Fin 32 => bytes.getD i 0).toList = bytes := by
  apply List.ext_getElem
  · rw [Vector.length_toList, h]
  · intro i hi hi'
    rw [Vector.getElem_toList, Vector.getElem_ofFn, List.getD_eq_getElem _ _ hi']

theorem digestOf_eq_ok {values : List ℕ} {cid : Digest} (hvalues : ∀ v ∈ values, v < 2 ^ 5)
    (hcount : values.length = cidBodyLen) : digestOf values = .ok cid ↔ Spells values cid := by
  obtain ⟨out, acc, hrun, hlength, hdigits, hbits⟩ := regroup_body hvalues hcount
  have hbytes : (bytesOf out).length = 32 := by rw [bytesOf, List.length_map, hlength]
  have htail : acc &&& (2 ^ cidTailBits - 1) = 0 ↔
      bits cidTailBits acc = List.replicate cidTailBits false := by
    rw [Nat.and_two_pow_sub_one_eq_mod, bits_eq_replicate_iff]
  rw [digestOf, hrun]
  dsimp only
  constructor
  · intro h
    split at h
    next => cases h
    next hzero =>
      rw [not_or, not_not, not_not, htail] at hzero
      obtain rfl := Except.ok.inj h
      refine ⟨hvalues, ?_⟩
      rw [ofFn_getD hbytes, numbers_bytesOf hdigits, ← hbits, hzero.2]
  · intro h
    have hsame := hbits.trans h.2
    have hshort : ∀ tail : List Bool, tail.length = cidTailBits → tail.length < 8 := by
      intro tail htail
      rw [htail]
      decide
    obtain ⟨hout, hzero⟩ := bitsOf_append_inj hdigits (numbers_lt _)
      (hshort _ (length_bits _ _)) (hshort _ List.length_replicate) hsame
    have hcid : bytesOf out = cid.toList := by rw [hout, bytesOf_numbers]
    rw [if_neg (not_or.mpr ⟨not_not.mpr rfl, not_not.mpr (htail.mpr hzero)⟩)]
    apply congrArg Except.ok
    apply Vector.toList_inj.mp
    rw [ofFn_getD hbytes, hcid]

theorem length_cidAlphabet : cidAlphabet.letters.length = 2 ^ 5 := by decide

theorem fromText_eq_ok {text : Text} {cid : Digest} : fromText text = .ok cid ↔
    ∃ values, text = cidTextPrefix ++ values.map cidAlphabet.letter ∧ Spells values cid := by
  constructor
  · intro h
    rw [fromText] at h
    split at h
    next hprefix =>
      obtain ⟨body, rfl⟩ := hprefix
      rw [List.drop_left] at h
      dsimp only at h
      split at h
      next => cases h
      next hcount =>
        split at h
        next => cases h
        next values hvalues =>
          obtain ⟨hall, rfl⟩ := Alphabet.read_utf8_eq_ok.mp hvalues
          rw [Alphabet.utf8_letters hall, List.length_map, not_not] at hcount
          rw [length_cidAlphabet] at hall
          exact ⟨values, rfl, (digestOf_eq_ok hall hcount).mp h⟩
    next => cases h
  · rintro ⟨values, rfl, hspells⟩
    have hall : ∀ v ∈ values, v < cidAlphabet.letters.length := by
      rw [length_cidAlphabet]
      exact hspells.1
    have hcount : (utf8 (String.ofList (values.map cidAlphabet.letter))).length = cidBodyLen := by
      rw [Alphabet.utf8_letters hall, List.length_map, hspells.length]
    rw [fromText, if_pos (List.prefix_append _ _), List.drop_left]
    dsimp only
    rw [if_neg (not_not.mpr hcount), Alphabet.read_utf8_eq_ok.mpr ⟨hall, rfl⟩]
    exact (digestOf_eq_ok hspells.1 hspells.length).mpr hspells

/-- A content id has one spelling: the text it is written as, and no other, is read as it. -/
theorem cid_has_one_spelling (text : Text) (cid : Digest) :
    fromText text = .ok cid ↔ text = toText cid := by
  obtain ⟨values, hwritten, hspells⟩ := toText_spells cid
  rw [fromText_eq_ok, hwritten]
  constructor
  · rintro ⟨values', rfl, hspells'⟩
    rw [hspells'.unique hspells]
  · rintro rfl
    exact ⟨values, rfl, hspells⟩

end Cid

namespace B64

/-- `ALPHABET` and `PAD`. -/
def alphabet : Alphabet where
  letters := "ABCDEFGHIJKLMNOPQRSTUVWXYZabcdefghijklmnopqrstuvwxyz0123456789+/".toList
  ascii := ascii_of_all (by decide)
  nodup := by decide

def pad : Char := '='

def padByte : UInt8 := 61

/-- `chunks(3)`. -/
def chunks : Bytes → List Bytes
  | a :: b :: c :: rest => [a, b, c] :: chunks rest
  | [] => []
  | short => [short]

/-- The four digits of a chunk of three bytes, zeros for those that it is short of. -/
def packed (chunk : Bytes) : ℕ :=
  ((chunk.getD 0 0).toNat <<< 16) ||| ((chunk.getD 1 0).toNat <<< 8) ||| (chunk.getD 2 0).toNat

def spellChunk (chunk : Bytes) : Text :=
  [alphabet.letter ((packed chunk >>> 18) &&& 0x3f), alphabet.letter ((packed chunk >>> 12) &&& 0x3f),
    if 1 < chunk.length then alphabet.letter ((packed chunk >>> 6) &&& 0x3f) else pad,
    if 2 < chunk.length then alphabet.letter (packed chunk &&& 0x3f) else pad]

/-- `b64::encode`. -/
def encode (bytes : Bytes) : Text := (chunks bytes).flatMap spellChunk

/-- Why a text is not the base64 of any bytes. -/
inductive Malformed where
  | length
  | pads
  | innerPad
  | character
  | unusedBits
  deriving DecidableEq, Repr

/-- The digits of the body, regrouped into bytes, under the check of the bits left over. -/
def bytesOfDigits (values : List ℕ) : Except Malformed Bytes :=
  let run := regroupOnce 6 8 0 0 values
  if 0 < run.2.2 ∧ run.2.1 &&& (2 ^ run.2.2 - 1) ≠ 0 then .error .unusedBits
  else .ok (bytesOf run.1)

/-- `b64::decode`. -/
def decode (text : Text) : Except Malformed Bytes :=
  let raw := utf8 (String.ofList text)
  if raw.length % 4 ≠ 0 then .error .length
  else if raw = [] then .ok []
  else
    let pads := (raw.reverse.takeWhile (· = padByte)).length
    if 2 < pads then .error .pads
    else
      let body := raw.take (raw.length - pads)
      if padByte ∈ body then .error .innerPad
      else
        match alphabet.read 0 body with
        | .error _ => .error .character
        | .ok values => bytesOfDigits values

/-- The digits of base 64 and the number of pads that spell some bytes: the bits of the bytes, and
zeros up to a whole digit; pads up to a whole group. -/
structure Spells (values : List ℕ) (pads : ℕ) (bytes : Bytes) : Prop where
  digits : ∀ v ∈ values, v < 2 ^ 6
  bits : ∃ rest < 8, bitsOf 6 values = bitsOf 8 (numbers bytes) ++ List.replicate rest false
  few : pads ≤ 2
  groups : (values.length + pads) % 4 = 0

/-- There are as many pads as the last chunk is short of, and two bits left over for each. -/
theorem Spells.length {values : List ℕ} {pads : ℕ} {bytes : Bytes} (h : Spells values pads bytes) :
    (bytes.length + pads) % 3 = 0 ∧
      bitsOf 6 values = bitsOf 8 (numbers bytes) ++ List.replicate (2 * pads) false := by
  obtain ⟨rest, hrest, hbits⟩ := h.bits
  have hlength := congrArg List.length hbits
  rw [length_bitsOf, List.length_append, length_bitsOf, List.length_replicate, numbers,
    List.length_map] at hlength
  have hfew := h.few
  have hgroups := h.groups
  have hpads : pads = 0 ∨ pads = 1 ∨ pads = 2 := by omega
  have hover : rest = 2 * pads := by
    rcases hpads with rfl | rfl | rfl <;> omega
  rw [hover] at hbits hlength
  exact ⟨by omega, hbits⟩

theorem Spells.unique {values values' : List ℕ} {pads pads' : ℕ} {bytes : Bytes}
    (h : Spells values pads bytes) (h' : Spells values' pads' bytes) :
    values = values' ∧ pads = pads' := by
  obtain ⟨hshort, hbits⟩ := h.length
  obtain ⟨hshort', hbits'⟩ := h'.length
  have hfew := h.few
  have hfew' := h'.few
  obtain rfl : pads = pads' := by omega
  exact ⟨bitsOf_inj (by decide) h.digits h'.digits (hbits.trans hbits'.symm), rfl⟩

/-- The text of some digits and pads. -/
def written (values : List ℕ) (pads : ℕ) : Text :=
  values.map alphabet.letter ++ List.replicate pads pad

theorem and_lt (n : ℕ) : n &&& 0x3f < 2 ^ 6 := by
  have hmask : n &&& 0x3f = n % 2 ^ 6 := Nat.and_two_pow_sub_one_eq_mod n 6
  rw [hmask]
  exact Nat.mod_lt _ (by decide)

theorem bits_and (n : ℕ) : bits 6 (n &&& 0x3f) = bits 6 n := by
  have hmask : n &&& 0x3f = n % 2 ^ 6 := Nat.and_two_pow_sub_one_eq_mod n 6
  rw [hmask, bits_mod]

theorem bits_packed (a b c : UInt8) :
    bits 24 ((a.toNat <<< 16) ||| (b.toNat <<< 8) ||| c.toNat) =
      bitsOf 8 [a.toNat, b.toNat, c.toNat] := by
  have hb := b.toNat_lt
  have hc := c.toNat_lt
  have hbits : ∀ i, ((a.toNat <<< 16) ||| (b.toNat <<< 8) ||| c.toNat).testBit i =
      ((decide (16 ≤ i) && a.toNat.testBit (i - 16)) || (decide (8 ≤ i) && b.toNat.testBit (i - 8)) ||
        c.toNat.testBit i) := by
    intro i
    rw [Nat.testBit_or, Nat.testBit_or, Nat.testBit_shiftLeft, Nat.testBit_shiftLeft]
  have hhigh : ∀ (x : UInt8) i, 8 ≤ i → x.toNat.testBit i = false := by
    intro x i hi
    apply Nat.testBit_lt_two_pow
    exact x.toNat_lt.trans_le (Nat.pow_le_pow_right (by decide) hi)
  have hcut := bits_add 16 8 ((a.toNat <<< 16) ||| (b.toNat <<< 8) ||| c.toNat)
  have hcut' := bits_add 8 8 (((a.toNat <<< 16) ||| (b.toNat <<< 8) ||| c.toNat) >>> 8)
  have ha : bits 8 (((a.toNat <<< 16) ||| (b.toNat <<< 8) ||| c.toNat) >>> 8 >>> 8) =
      bits 8 a.toNat := by
    apply bits_congr
    intro i hi
    rw [Nat.testBit_shiftRight, Nat.testBit_shiftRight, hbits, hhigh b _ (by omega),
      hhigh c _ (by omega)]
    have hin : 16 ≤ 8 + (8 + i) := by omega
    have hat : 8 + (8 + i) - 16 = i := by omega
    simp [hin, hat]
  have hb' : bits 8 (((a.toNat <<< 16) ||| (b.toNat <<< 8) ||| c.toNat) >>> 8) =
      bits 8 b.toNat := by
    apply bits_congr
    intro i hi
    have hout : ¬ 16 ≤ 8 + i := by omega
    have hin : 8 ≤ 8 + i := by omega
    rw [Nat.testBit_shiftRight, hbits, hhigh c _ hin]
    simp [hout]
  have hc' : bits 8 ((a.toNat <<< 16) ||| (b.toNat <<< 8) ||| c.toNat) = bits 8 c.toNat := by
    apply bits_congr
    intro i hi
    have hout : ¬ 16 ≤ i := by omega
    have hout' : ¬ 8 ≤ i := by omega
    rw [hbits]
    simp [hout, hout']
  rw [hcut, hcut', ha, hb', hc']
  simp [bitsOf]

theorem bits_digits (n : ℕ) : bits 24 n = bitsOf 6 [(n >>> 18) &&& 0x3f, (n >>> 12) &&& 0x3f,
    (n >>> 6) &&& 0x3f, n &&& 0x3f] := by
  have h1 := bits_add 18 6 n
  have h2 := bits_add 12 6 (n >>> 6)
  have h3 := bits_add 6 6 (n >>> 12)
  rw [← Nat.shiftRight_add] at h2 h3
  rw [h1, h2, h3]
  simp [bitsOf, bits_and]

/-- Where the bits of some digits end in zeros, the digits in front hold the rest. -/
theorem front_digits {front back : List ℕ} {bytes : List Bool} {spare : ℕ}
    (hlength : 6 * front.length = bytes.length + spare)
    (h : bitsOf 6 (front ++ back) = bytes ++ List.replicate (spare + 6 * back.length) false) :
    bitsOf 6 front = bytes ++ List.replicate spare false := by
  rw [bitsOf_append, List.replicate_add, ← List.append_assoc] at h
  refine (List.append_inj h ?_).1
  rw [length_bitsOf, hlength, List.length_append, List.length_replicate]

/-- The four digits of a chunk. -/
def digitsOf (chunk : Bytes) : List ℕ :=
  [(packed chunk >>> 18) &&& 0x3f, (packed chunk >>> 12) &&& 0x3f, (packed chunk >>> 6) &&& 0x3f,
    packed chunk &&& 0x3f]

theorem digitsOf_lt {chunk : Bytes} : ∀ d ∈ digitsOf chunk, d < 2 ^ 6 := by
  intro d hd
  simp only [digitsOf, List.mem_cons, List.not_mem_nil, or_false] at hd
  rcases hd with rfl | rfl | rfl | rfl <;> exact and_lt _

theorem spells_one (a : UInt8) : Spells ((digitsOf [a]).take 2) 2 [a] where
  digits v hv := digitsOf_lt v (List.mem_of_mem_take hv)
  bits := by
    have hbytes : bitsOf 8 [a.toNat, UInt8.toNat 0, UInt8.toNat 0] =
        bitsOf 8 (numbers [a]) ++ List.replicate (4 + 6 * 2) false := by
      simp [bitsOf, numbers, bits_zero]
    exact ⟨4, by decide, front_digits rfl
      (((bits_digits _).symm.trans (bits_packed a 0 0)).trans hbytes)⟩
  few := le_refl 2
  groups := by simp [digitsOf]

theorem spells_two (a b : UInt8) : Spells ((digitsOf [a, b]).take 3) 1 [a, b] where
  digits v hv := digitsOf_lt v (List.mem_of_mem_take hv)
  bits := by
    have hbytes : bitsOf 8 [a.toNat, b.toNat, UInt8.toNat 0] =
        bitsOf 8 (numbers [a, b]) ++ List.replicate (2 + 6 * 1) false := by
      simp [bitsOf, numbers, bits_zero]
    exact ⟨2, by decide, front_digits rfl
      (((bits_digits _).symm.trans (bits_packed a b 0)).trans hbytes)⟩
  few := Nat.le_succ 1
  groups := by simp [digitsOf]

theorem spells_three (a b c : UInt8) : Spells (digitsOf [a, b, c]) 0 [a, b, c] where
  digits := digitsOf_lt
  bits := by
    refine ⟨0, by decide, ?_⟩
    rw [List.replicate_zero, List.append_nil]
    exact (bits_digits _).symm.trans (bits_packed a b c)
  few := Nat.zero_le 2
  groups := by simp [digitsOf]

theorem Spells.append {values values' : List ℕ} {pads : ℕ} {bytes bytes' : Bytes}
    (h : Spells values 0 bytes) (h' : Spells values' pads bytes') :
    Spells (values ++ values') pads (bytes ++ bytes') where
  digits := by
    intro v hv
    rcases List.mem_append.mp hv with hv | hv
    · exact h.digits v hv
    · exact h'.digits v hv
  bits := by
    obtain ⟨rest, hrest, hbits⟩ := h'.bits
    refine ⟨rest, hrest, ?_⟩
    have hnumbers : numbers (bytes ++ bytes') = numbers bytes ++ numbers bytes' := List.map_append
    have hfull := h.length.2
    rw [Nat.mul_zero, List.replicate_zero, List.append_nil] at hfull
    rw [bitsOf_append, hfull, hbits, hnumbers, bitsOf_append, List.append_assoc]
  few := h'.few
  groups := by
    have hgroups := h.groups
    have hgroups' := h'.groups
    rw [List.length_append]
    omega

theorem encode_spells (bytes : Bytes) :
    ∃ values pads, encode bytes = written values pads ∧ Spells values pads bytes := by
  induction bytes using chunks.induct with
  | case1 a b c rest ih =>
    obtain ⟨values, pads, hrest, hspells⟩ := ih
    refine ⟨digitsOf [a, b, c] ++ values, pads, ?_, (spells_three a b c).append hspells⟩
    have hchunk : encode (a :: b :: c :: rest) = spellChunk [a, b, c] ++ encode rest := rfl
    rw [hchunk, hrest, written, written, List.map_append, List.append_assoc]
    rfl
  | case2 => exact ⟨[], 0, rfl, nofun, ⟨0, by decide, rfl⟩, by decide, rfl⟩
  | case3 short hlong hsome =>
    match short, hlong, hsome with
    | [a], _, _ => exact ⟨_, 2, rfl, spells_one a⟩
    | [a, b], _, _ => exact ⟨_, 1, rfl, spells_two a b⟩
    | a :: b :: c :: rest, hlong, _ => exact absurd rfl (hlong a b c rest)

theorem length_alphabet : alphabet.letters.length = 2 ^ 6 := by decide

theorem utf8_pads (pads : ℕ) :
    utf8 (String.ofList (List.replicate pads pad)) = List.replicate pads padByte := by
  rw [utf8_ofList]
  induction pads with
  | zero => rfl
  | succ pads ih =>
    rw [List.replicate_succ, List.flatMap_cons, ih, List.replicate_succ]
    rfl

theorem utf8_written {values : List ℕ} (hvalues : ∀ v ∈ values, v < 2 ^ 6) (pads : ℕ) :
    utf8 (String.ofList (written values pads)) =
      values.map alphabet.byteOf ++ List.replicate pads padByte := by
  rw [written, utf8_ofList_append, Alphabet.utf8_letters (by rwa [length_alphabet]), utf8_pads]

theorem padByte_not_mem {values : List ℕ} (hvalues : ∀ v ∈ values, v < 2 ^ 6) :
    padByte ∉ values.map alphabet.byteOf := by
  have hpad : pad ∉ alphabet.letters := by decide
  intro hmem
  obtain ⟨v, hv, hbyte⟩ := List.mem_map.mp hmem
  have hlt : v < alphabet.letters.length := by
    rw [length_alphabet]
    exact hvalues v hv
  have hnat := Alphabet.toNat_byteOf hlt
  rw [hbyte] at hnat
  have hletter : pad = alphabet.letter v := Char.toNat_inj.mp hnat
  apply hpad
  rw [hletter]
  exact Alphabet.letter_mem hlt

theorem cut_pads (raw : Bytes) : ∃ body, raw = body ++
    List.replicate (raw.reverse.takeWhile (· = padByte)).length padByte ∧
    raw.take (raw.length - (raw.reverse.takeWhile (· = padByte)).length) = body := by
  have hall : raw.reverse.takeWhile (· = padByte) =
      List.replicate (raw.reverse.takeWhile (· = padByte)).length padByte := by
    apply List.eq_replicate_of_mem
    intro x hx
    have hpad := List.mem_takeWhile_imp hx
    exact of_decide_eq_true hpad
  have hcut := @List.takeWhile_append_dropWhile _ (· = padByte) raw.reverse
  have hraw := congrArg List.reverse hcut
  rw [List.reverse_append, List.reverse_reverse] at hraw
  generalize raw.reverse.takeWhile (· = padByte) = pads at hall hraw ⊢
  rw [hall, List.reverse_replicate] at hraw
  generalize (raw.reverse.dropWhile (· = padByte)).reverse = body at hraw
  subst hraw
  refine ⟨body, rfl, ?_⟩
  rw [List.length_append, List.length_replicate, Nat.add_sub_cancel, List.take_left]

theorem count_pads {body : Bytes} (h : padByte ∉ body) (pads : ℕ) :
    ((body ++ List.replicate pads padByte).reverse.takeWhile (· = padByte)).length = pads := by
  rw [List.reverse_append, List.reverse_replicate, List.takeWhile_append_of_pos, List.length_append,
    List.length_replicate]
  · have hnone : body.reverse.takeWhile (· = padByte) = [] := by
      rw [List.takeWhile_eq_nil_iff]
      intro hlt heq
      apply h
      rw [← of_decide_eq_true heq]
      exact List.mem_reverse.mp (List.getElem_mem hlt)
    rw [hnone]
    rfl
  · intro x hx
    exact decide_eq_true (List.eq_of_mem_replicate hx)

theorem bytesOfDigits_eq_ok {values : List ℕ} {pads : ℕ} {bytes : Bytes}
    (hvalues : ∀ v ∈ values, v < 2 ^ 6) (hfew : pads ≤ 2) (hgroups : (values.length + pads) % 4 = 0) :
    bytesOfDigits values = .ok bytes ↔ Spells values pads bytes := by
  obtain ⟨hbits, hrest, hdigits⟩ := @regroup_spec 6 8 0 0 (by decide) (by decide) values hvalues
    (by decide)
  rw [bytesOfDigits, regroupOnce_eq (by decide) (by decide) (by decide)]
  generalize regroup 6 8 0 0 values = run at hbits hrest hdigits ⊢
  obtain ⟨out, acc, pending⟩ := run
  dsimp only at hbits hrest hdigits ⊢
  rw [bits, List.nil_append] at hbits
  have htail : acc &&& (2 ^ pending - 1) = 0 ↔ bits pending acc = List.replicate pending false := by
    rw [Nat.and_two_pow_sub_one_eq_mod, bits_eq_replicate_iff]
  constructor
  · intro h
    split at h
    next => cases h
    next hzero =>
      obtain rfl := Except.ok.inj h
      refine ⟨hvalues, ⟨pending, hrest, ?_⟩, hfew, hgroups⟩
      have hclear : bits pending acc = List.replicate pending false := by
        rw [← htail]
        by_contra hne
        apply hzero
        refine ⟨Nat.pos_of_ne_zero ?_, hne⟩
        rintro rfl
        exact hne (Nat.and_zero acc)
      rw [numbers_bytesOf hdigits, ← hbits, hclear]
  · intro h
    obtain ⟨rest, hover, hspelled⟩ := h.bits
    obtain ⟨hout, hclear⟩ := bitsOf_append_inj hdigits (numbers_lt _)
      (by rwa [length_bits]) (by rwa [List.length_replicate]) (hbits.trans hspelled)
    have hcount := congrArg List.length hclear
    rw [length_bits, List.length_replicate] at hcount
    subst hcount
    rw [if_neg fun hboth => hboth.2 (htail.mpr hclear), hout, bytesOf_numbers]

/-- What is decoded are the bytes that are spelled. -/
theorem decode_eq_ok {text : Text} {bytes : Bytes} : decode text = .ok bytes ↔
    ∃ values pads, text = written values pads ∧ Spells values pads bytes := by
  constructor
  · intro h
    rw [decode] at h
    dsimp only at h
    split at h
    next => cases h
    next hgroups =>
      rw [not_not] at hgroups
      split at h
      next hnil =>
        cases h
        have htext : text = [] := String.ofList_injective (utf8_injective hnil)
        exact ⟨[], 0, htext, nofun, ⟨0, by decide, rfl⟩, by decide, rfl⟩
      next =>
        split at h
        next => cases h
        next hfew =>
          split at h
          next => cases h
          next hinner =>
            split at h
            next => cases h
            next values hread =>
              obtain ⟨body, hraw, hbody⟩ := cut_pads (utf8 (String.ofList text))
              rw [hbody] at hread
              obtain ⟨hvalues, hbytes⟩ := Alphabet.read_eq_ok.mp hread
              rw [length_alphabet] at hvalues
              rw [← hbytes, ← utf8_written hvalues] at hraw
              have htext := String.ofList_injective (utf8_injective hraw)
              refine ⟨values, _, htext, (bytesOfDigits_eq_ok hvalues (Nat.not_lt.mp hfew) ?_).mp h⟩
              have hlength := congrArg List.length hraw
              rw [utf8_written hvalues, List.length_append, List.length_map,
                List.length_replicate] at hlength
              rw [← hlength]
              exact hgroups
  · rintro ⟨values, pads, rfl, hspells⟩
    have hnone := padByte_not_mem hspells.digits
    have hall : ∀ v ∈ values, v < alphabet.letters.length := by
      rw [length_alphabet]
      exact hspells.digits
    have hlength : (values.map alphabet.byteOf ++ List.replicate pads padByte).length =
        values.length + pads := by
      rw [List.length_append, List.length_map, List.length_replicate]
    rw [decode, utf8_written hspells.digits]
    dsimp only
    rw [count_pads hnone, hlength, if_neg (not_not.mpr hspells.groups)]
    split
    next hnil =>
      obtain ⟨hvalues, -⟩ := List.append_eq_nil_iff.mp hnil
      have hcount := congrArg List.length hspells.length.2
      rw [List.map_eq_nil_iff.mp hvalues, List.length_append, length_bitsOf, length_bitsOf, numbers,
        List.length_map, List.length_nil] at hcount
      rw [List.length_eq_zero_iff.mp (by omega : bytes.length = 0)]
    next =>
      have htake : (values.map alphabet.byteOf ++ List.replicate pads padByte).take
          (values.length + pads - pads) = values.map alphabet.byteOf := by
        rw [Nat.add_sub_cancel, ← @List.length_map _ _ values alphabet.byteOf, List.take_left]
      rw [if_neg (Nat.not_lt.mpr hspells.few), htake, if_neg hnone,
        Alphabet.read_eq_ok.mpr ⟨hall, rfl⟩]
      exact (bytesOfDigits_eq_ok hspells.digits hspells.few hspells.groups).mpr hspells

/-- Base64 has one spelling for every byte string: the text it is encoded as, and no other, is
decoded to it. -/
theorem base64_has_one_spelling (text : Text) (bytes : Bytes) :
    decode text = .ok bytes ↔ text = encode bytes := by
  obtain ⟨values, pads, hwritten, hspells⟩ := encode_spells bytes
  rw [decode_eq_ok, hwritten]
  constructor
  · rintro ⟨values', pads', rfl, hspells'⟩
    obtain ⟨rfl, rfl⟩ := hspells'.unique hspells
    rfl
  · rintro rfl
    exact ⟨values, pads, rfl, hspells⟩

end B64

end Tracefold.Spelling
