import Mathlib.Tactic.Common
import Mathlib.Tactic.IntervalCases

/-! Numerals to the base sixteen, of a fixed width. -/

namespace Tracefold.Library.Hex

def digit (value : ℕ) : Char := Char.ofNat (if value < 10 then 48 + value else 87 + value)

def valueOf (c : Char) : Option ℕ :=
  if '0' ≤ c ∧ c ≤ '9' then some (c.toNat - 48)
  else if 'a' ≤ c ∧ c ≤ 'f' then some (c.toNat - 87)
  else if 'A' ≤ c ∧ c ≤ 'F' then some (c.toNat - 55)
  else none

theorem valueOf_digit {value : ℕ} (h : value < 16) : valueOf (digit value) = some value := by
  interval_cases value <;> rfl

theorem utf8Size_digit {value : ℕ} (h : value < 16) : (digit value).utf8Size = 1 := by
  interval_cases value <;> rfl

/-- The last digits of a number, with zeros in front. -/
def numeral : ℕ → ℕ → List Char
  | 0, _ => []
  | width + 1, n => numeral width (n / 16) ++ [digit (n % 16)]

/-- The number of a numeral, read behind one that has been read. -/
def read (acc : ℕ) : List Char → Option ℕ
  | [] => some acc
  | c :: rest =>
    match valueOf c with
    | some value => read (acc * 16 + value) rest
    | none => none

theorem length_numeral (width n : ℕ) : (numeral width n).length = width := by
  induction width generalizing n with
  | zero => rfl
  | succ width ih => rw [numeral, List.length_append, ih, List.length_singleton]

theorem digit_of_mem_numeral {width n : ℕ} {c : Char} (h : c ∈ numeral width n) :
    ∃ value < 16, c = digit value := by
  induction width generalizing n with
  | zero => cases h
  | succ width ih =>
    rw [numeral, List.mem_append, List.mem_singleton] at h
    rcases h with h | h
    · exact ih h
    · exact ⟨n % 16, Nat.mod_lt n (by decide), h⟩

theorem read_append {acc mid : ℕ} {front back : List Char} (h : read acc front = some mid) :
    read acc (front ++ back) = read mid back := by
  induction front generalizing acc with
  | nil =>
    cases h
    rfl
  | cons c rest ih =>
    rw [read] at h
    rw [List.cons_append, read]
    cases hvalue : valueOf c with
    | none =>
      rw [hvalue] at h
      cases h
    | some value =>
      rw [hvalue] at h
      exact ih h

theorem read_numeral {width n : ℕ} (h : n < 16 ^ width) : read 0 (numeral width n) = some n := by
  induction width generalizing n with
  | zero =>
    have hzero : n = 0 := by simpa using h
    rw [hzero]
    rfl
  | succ width ih =>
    have hdiv : n / 16 < 16 ^ width := by
      rw [Nat.pow_succ] at h
      omega
    rw [numeral, read_append (ih hdiv)]
    simp only [read, valueOf_digit (Nat.mod_lt n (show 0 < 16 by decide)), Option.some.injEq]
    omega

theorem utf8ByteSize_ofList {text : List Char} (h : ∀ c ∈ text, c.utf8Size = 1) :
    (String.ofList text).utf8ByteSize = text.length := by
  induction text with
  | nil => rfl
  | cons c rest ih =>
    have hcons : String.ofList (c :: rest) = String.singleton c ++ String.ofList rest := by
      apply String.ext
      simp
    rw [hcons, String.utf8ByteSize_append, String.utf8ByteSize_singleton, h c List.mem_cons_self,
      ih fun d hd => h d (List.mem_cons_of_mem c hd), List.length_cons, Nat.add_comm]

theorem utf8ByteSize_numeral (width n : ℕ) : (String.ofList (numeral width n)).utf8ByteSize = width := by
  rw [utf8ByteSize_ofList, length_numeral]
  intro c hc
  obtain ⟨value, hvalue, rfl⟩ := digit_of_mem_numeral hc
  exact utf8Size_digit hvalue

end Tracefold.Library.Hex
