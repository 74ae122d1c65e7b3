import Mathlib.Data.Prod.Lex
import Mathlib.Order.Lattice
import Mathlib.Tactic.Common
import Tracefold.Library.Hex

/-! A position in the journal as a client holds it: the record and the event of that record, wrapped
into a text that it cannot count with. -/

namespace Tracefold.Api

open Library.Hex

/-- The body of a refusal. -/
structure ApiError where
  code : String
  title : String
  detail : String
  deriving DecidableEq, Repr

/-- `ApiError::validation`. -/
def ApiError.validation (detail : String) : ApiError :=
  ⟨"VALIDATION_ERROR", "the request is not one this server can attempt", detail⟩

/-- `usize::MAX`. -/
def usizeMax : ℕ := 2 ^ 64 - 1

structure Cursor where
  record : ℕ
  ordinal : ℕ
  deriving DecidableEq, Repr

namespace Cursor

/-- The order that is derived of a record: by its fields, the first of them first. -/
def key (c : Cursor) : ℕ ×ₗ ℕ := toLex (c.record, c.ordinal)

theorem key_injective : Function.Injective key := by
  intro a b h
  have hpair : (a.record, a.ordinal) = (b.record, b.ordinal) := toLex.injective h
  cases a
  cases b
  cases hpair
  rfl

instance : LinearOrder Cursor := LinearOrder.lift' key key_injective

theorem lt_iff (a b : Cursor) :
    a < b ↔ a.record < b.record ∨ a.record = b.record ∧ a.ordinal < b.ordinal :=
  Prod.Lex.toLex_lt_toLex

theorem le_iff (a b : Cursor) :
    a ≤ b ↔ a.record < b.record ∨ a.record = b.record ∧ a.ordinal ≤ b.ordinal :=
  Prod.Lex.toLex_le_toLex

/-- Both fields are `usize`. -/
def Fits (c : Cursor) : Prop := c.record ≤ usizeMax ∧ c.ordinal ≤ usizeMax

end Cursor

/-- `u128::wrapping_mul`. -/
def wrappingMul (a b : ℕ) : ℕ := a * b % 2 ^ 128

/-- `2u128.wrapping_sub`. -/
def twoWrappingSub (a : ℕ) : ℕ := (2 ^ 128 + 2 - a) % 2 ^ 128

/-- `MIX`. -/
def mix : ℕ := 0x9E3779B97F4A7C15F39CC0605CEDC835

/-- Rounds of the iteration that finds the inverse of `MIX`. -/
def unmixRounds : ℕ → ℕ → ℕ
  | 0, x => x
  | rounds + 1, x => unmixRounds rounds (wrappingMul x (twoWrappingSub (wrappingMul mix x)))

/-- `UNMIX`. -/
def unmix : ℕ := unmixRounds 7 (wrappingMul mix 3 ^^^ 2)

/-- What the source has the compiler check. -/
theorem wrappingMul_mix_unmix : wrappingMul mix unmix = 1 := by decide

/-- `u128::from_str_radix` to the base sixteen. -/
def u128FromStrRadix16 (text : List Char) : Option ℕ :=
  match text with
  | [] => none
  | ['+'] => none
  | '+' :: digits => (read 0 digits).filter (· < 2 ^ 128)
  | digits => (read 0 digits).filter (· < 2 ^ 128)

def cursorTextLen : ℕ := 32

namespace Cursor

/-- `Cursor::to_text`. -/
def toText (c : Cursor) : String :=
  String.ofList (numeral cursorTextLen (wrappingMul (c.record <<< 64 ||| c.ordinal) mix))

def malformed (text : String) : ApiError :=
  .validation ("`" ++ text ++ "` is not a cursor: the form is opaque (44 §2.7) and is only ever " ++
    "obtained from a previous response — a `cursor` field, a `next_cursor`, or an SSE id")

/-- `Cursor::parse`. -/
def parse (text : String) : Except ApiError Cursor :=
  if text.utf8ByteSize ≠ cursorTextLen then .error (malformed text)
  else
    match u128FromStrRadix16 text.toList with
    | some packed =>
      let unpacked := wrappingMul packed unmix
      .ok ⟨unpacked >>> 64, unpacked &&& usizeMax⟩
    | none => .error (malformed text)

/-- `Cursor::default`. -/
def default : Cursor := ⟨0, 0⟩

end Cursor

theorem wrappingMul_unmix {n : ℕ} (h : n < 2 ^ 128) : wrappingMul (wrappingMul n mix) unmix = n := by
  have hunit : mix * unmix % 2 ^ 128 = 1 := wrappingMul_mix_unmix
  calc wrappingMul (wrappingMul n mix) unmix
      = n * (mix * unmix) % 2 ^ 128 := by rw [wrappingMul, wrappingMul, Nat.mod_mul_mod, Nat.mul_assoc]
    _ = n % 2 ^ 128 * 1 % 2 ^ 128 := by rw [Nat.mul_mod, hunit]
    _ = n := by rw [Nat.mul_one, Nat.mod_mod, Nat.mod_eq_of_lt h]

theorem u128FromStrRadix16_numeral {width n : ℕ} (hwidth : 0 < width) (hn : n < 16 ^ width)
    (h : n < 2 ^ 128) : u128FromStrRadix16 (numeral width n) = some n := by
  have hread : (read 0 (numeral width n)).filter (· < 2 ^ 128) = some n := by
    rw [read_numeral hn, Option.filter_some, if_pos (decide_eq_true h)]
  have hlength := length_numeral width n
  unfold u128FromStrRadix16
  split
  next hnil =>
    rw [hnil] at hlength
    exact absurd hlength hwidth.ne
  next hplus =>
    rw [hplus] at hread
    cases hread
  next digits _ hplus =>
    rw [hplus] at hread
    cases hread
  next => exact hread

theorem Cursor.packed_eq {c : Cursor} (h : c.Fits) :
    c.record <<< 64 ||| c.ordinal = c.record * 2 ^ 64 + c.ordinal := by
  have hlt : c.ordinal < 2 ^ 64 := Nat.lt_of_le_pred (by decide) h.2
  rw [Nat.shiftLeft_eq, Nat.mul_comm, Nat.two_pow_add_eq_or_of_lt hlt]

theorem Cursor.packed_lt {c : Cursor} (h : c.Fits) : c.record * 2 ^ 64 + c.ordinal < 2 ^ 128 := by
  obtain ⟨hrecord, hordinal⟩ := h
  rw [usizeMax] at hrecord hordinal
  omega

theorem unpack {record ordinal : ℕ} (h : ordinal ≤ usizeMax) :
    (record * 2 ^ 64 + ordinal) >>> 64 = record ∧ (record * 2 ^ 64 + ordinal) &&& usizeMax = ordinal := by
  rw [usizeMax] at h ⊢
  rw [Nat.shiftRight_eq_div_pow, Nat.and_two_pow_sub_one_eq_mod]
  omega

/-- A published cursor is read back as it was. -/
theorem Cursor.parse_toText {c : Cursor} (h : c.Fits) : parse c.toText = .ok c := by
  have hmod : ∀ n, wrappingMul n mix < 2 ^ 128 := fun n => Nat.mod_lt _ (Nat.two_pow_pos 128)
  have hread : u128FromStrRadix16 (String.toList c.toText) =
      some (wrappingMul (c.record * 2 ^ 64 + c.ordinal) mix) := by
    rw [toText, String.toList_ofList, packed_eq h]
    apply u128FromStrRadix16_numeral
    · exact Nat.zero_lt_succ 31
    · exact Nat.lt_of_lt_of_eq (hmod _) (Nat.pow_mul 2 4 32)
    · exact hmod _
  have hsize : c.toText.utf8ByteSize = cursorTextLen := utf8ByteSize_numeral ..
  obtain ⟨hrecord, hordinal⟩ := @unpack c.record c.ordinal h.2
  rw [parse, if_neg (not_not_intro hsize), hread]
  dsimp only
  rw [wrappingMul_unmix (packed_lt h), hrecord, hordinal]

end Tracefold.Api
