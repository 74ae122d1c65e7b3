import Mathlib.Data.Nat.Bitwise
import Mathlib.Tactic.Common

/-! Numbers as runs of bits, the highest first, and an accumulator of 32 bits that takes digits of
one width in and gives digits of another out. -/

namespace Tracefold.Library.Bits

/-- The low `width` bits of a number. -/
def bits : ℕ → ℕ → List Bool
  | 0, _ => []
  | width + 1, n => n.testBit width :: bits width n

@[simp]
theorem length_bits (width n : ℕ) : (bits width n).length = width := by
  induction width with
  | zero => rfl
  | succ width ih => rw [bits, List.length_cons, ih]

theorem bits_congr {width n m : ℕ} (h : ∀ i < width, n.testBit i = m.testBit i) :
    bits width n = bits width m := by
  induction width with
  | zero => rfl
  | succ width ih =>
    rw [bits, bits, h width (Nat.lt_succ_self width), ih]
    intro i hi
    exact h i (Nat.lt_succ_of_lt hi)

theorem testBit_of_bits {width n m i : ℕ} (h : bits width n = bits width m) (hi : i < width) :
    n.testBit i = m.testBit i := by
  induction width with
  | zero => exact absurd hi (Nat.not_lt_zero i)
  | succ width ih =>
    rw [bits, bits, List.cons.injEq] at h
    rcases Nat.lt_succ_iff_lt_or_eq.mp hi with hlt | rfl
    · exact ih h.2 hlt
    · exact h.1

theorem bits_inj {width n m : ℕ} (hn : n < 2 ^ width) (hm : m < 2 ^ width)
    (h : bits width n = bits width m) : n = m := by
  apply Nat.eq_of_testBit_eq
  intro i
  by_cases hi : i < width
  · exact testBit_of_bits h hi
  · have hpow : 2 ^ width ≤ 2 ^ i := Nat.pow_le_pow_right (by decide) (Nat.not_lt.mp hi)
    rw [Nat.testBit_lt_two_pow (hn.trans_le hpow), Nat.testBit_lt_two_pow (hm.trans_le hpow)]

theorem bits_mod (width n : ℕ) : bits width (n % 2 ^ width) = bits width n := by
  apply bits_congr
  intro i hi
  rw [Nat.testBit_mod_two_pow, decide_eq_true hi, Bool.true_and]

theorem bits_zero (width : ℕ) : bits width 0 = List.replicate width false := by
  induction width with
  | zero => rfl
  | succ width ih => rw [bits, Nat.zero_testBit, ih, List.replicate_succ]

theorem bits_add (a b n : ℕ) : bits (a + b) n = bits a (n >>> b) ++ bits b n := by
  induction a with
  | zero => rw [Nat.zero_add, bits, List.nil_append]
  | succ a ih => rw [Nat.succ_add, bits, ih, bits, Nat.testBit_shiftRight, Nat.add_comm b a,
      List.cons_append]

theorem bits_eq_replicate_iff {tail n : ℕ} :
    bits tail n = List.replicate tail false ↔ n % 2 ^ tail = 0 := by
  rw [← bits_zero, ← bits_mod tail n]
  constructor
  · intro h
    exact bits_inj (Nat.mod_lt _ (Nat.two_pow_pos tail)) (Nat.two_pow_pos tail) h
  · intro h
    rw [h]

theorem bits_shiftLeft (a b n : ℕ) :
    bits (a + b) (n <<< b) = bits a n ++ List.replicate b false := by
  have hzero : bits b (n <<< b) = List.replicate b false := by
    rw [bits_eq_replicate_iff, Nat.shiftLeft_eq, Nat.mul_mod_left]
  rw [bits_add, hzero, Nat.shiftLeft_shiftRight]

section Digits

variable {width : ℕ}

/-- The bits of some digits, one after another. -/
def bitsOf (width : ℕ) (digits : List ℕ) : List Bool := digits.flatMap (bits width)

theorem bitsOf_append (digits more : List ℕ) :
    bitsOf width (digits ++ more) = bitsOf width digits ++ bitsOf width more :=
  List.flatMap_append

theorem length_bitsOf (digits : List ℕ) : (bitsOf width digits).length = width * digits.length := by
  induction digits with
  | nil => rfl
  | cons digit digits ih =>
    rw [bitsOf, List.flatMap_cons, List.length_append, length_bits, ← bitsOf, ih, List.length_cons,
      Nat.mul_succ, Nat.add_comm]

/-- Digits are read back from their bits, with whatever is too short to be one of them. -/
theorem bitsOf_append_inj {digits digits' : List ℕ} {rest rest' : List Bool}
    (hdigits : ∀ d ∈ digits, d < 2 ^ width) (hdigits' : ∀ d ∈ digits', d < 2 ^ width)
    (hrest : rest.length < width) (hrest' : rest'.length < width)
    (h : bitsOf width digits ++ rest = bitsOf width digits' ++ rest') :
    digits = digits' ∧ rest = rest' := by
  induction digits generalizing digits' with
  | nil =>
    cases digits' with
    | nil => exact ⟨rfl, h⟩
    | cons d digits' =>
      have hlength := congrArg List.length h
      simp only [bitsOf, List.flatMap_nil, List.flatMap_cons, List.length_append, length_bits,
        List.length_nil] at hlength
      omega
  | cons d digits ih =>
    cases digits' with
    | nil =>
      have hlength := congrArg List.length h
      simp only [bitsOf, List.flatMap_nil, List.flatMap_cons, List.length_append, length_bits,
        List.length_nil] at hlength
      omega
    | cons d' digits' =>
      rw [bitsOf, bitsOf, List.flatMap_cons, List.flatMap_cons, List.append_assoc,
        List.append_assoc] at h
      obtain ⟨hfirst, hmore⟩ := List.append_inj h (by rw [length_bits, length_bits])
      obtain ⟨rfl, hrest⟩ := ih (fun x hx => hdigits x (List.mem_cons_of_mem _ hx))
        (fun x hx => hdigits' x (List.mem_cons_of_mem _ hx)) hmore
      have hd := bits_inj (hdigits d List.mem_cons_self) (hdigits' d' List.mem_cons_self) hfirst
      rw [hd]
      exact ⟨rfl, hrest⟩

theorem bitsOf_inj (hwidth : 0 < width) {digits digits' : List ℕ}
    (hdigits : ∀ d ∈ digits, d < 2 ^ width) (hdigits' : ∀ d ∈ digits', d < 2 ^ width)
    (h : bitsOf width digits = bitsOf width digits') : digits = digits' := by
  have hnil : bitsOf width digits ++ [] = bitsOf width digits' ++ [] := by
    rw [List.append_nil, List.append_nil, h]
  have hshort : ([] : List Bool).length < width := hwidth
  exact (bitsOf_append_inj hdigits hdigits' hshort hshort hnil).1

end Digits

section Accumulator

variable {a b acc pending : ℕ}

/-- A digit is shifted into the accumulator, and what it pushes out at the top is lost. -/
def shiftIn (width acc digit : ℕ) : ℕ := (acc <<< width) % 2 ^ 32 ||| digit

theorem bits_shiftIn {digit : ℕ} (hdigit : digit < 2 ^ a) (hroom : pending + a ≤ 32) :
    bits (pending + a) (shiftIn a acc digit) = bits pending acc ++ bits a digit := by
  have hhigh : bits pending (shiftIn a acc digit >>> a) = bits pending acc := by
    apply bits_congr
    intro i hi
    have hpow : 2 ^ a ≤ 2 ^ (a + i) := Nat.pow_le_pow_right (by decide) (Nat.le_add_right a i)
    rw [Nat.testBit_shiftRight, shiftIn, Nat.testBit_or, Nat.testBit_mod_two_pow,
      Nat.testBit_shiftLeft, Nat.testBit_lt_two_pow (hdigit.trans_le hpow)]
    have hin : a + i < 32 := by omega
    simp [hin]
  have hlow : bits a (shiftIn a acc digit) = bits a digit := by
    apply bits_congr
    intro i hi
    rw [shiftIn, Nat.testBit_or, Nat.testBit_mod_two_pow, Nat.testBit_shiftLeft]
    have hout : ¬ a ≤ i := by omega
    simp [hout]
  rw [bits_add, hhigh, hlow]

/-- Whole digits are taken from the top of what is pending, as long as there is one. -/
def drain (width acc : ℕ) (pending : ℕ) : List ℕ × ℕ :=
  if h : 0 < width ∧ width ≤ pending then
    let rest := drain width acc (pending - width)
    (((acc >>> (pending - width)) &&& (2 ^ width - 1)) :: rest.1, rest.2)
  else ([], pending)
termination_by pending
decreasing_by omega

theorem drain_spec (hwidth : 0 < b) (acc pending : ℕ) :
    bitsOf b (drain b acc pending).1 ++ bits (drain b acc pending).2 acc = bits pending acc ∧
      (drain b acc pending).2 < b ∧ ∀ d ∈ (drain b acc pending).1, d < 2 ^ b := by
  induction pending using Nat.strong_induction_on with
  | _ pending ih =>
    rw [drain]
    split
    next h =>
      obtain ⟨hbits, hrest, hdigits⟩ := ih (pending - b) (by omega)
      refine ⟨?_, hrest, ?_⟩
      · have hcut : pending = b + (pending - b) := by omega
        dsimp only
        rw [bitsOf, List.flatMap_cons, List.append_assoc, ← bitsOf, hbits,
          Nat.and_two_pow_sub_one_eq_mod, bits_mod, ← bits_add, ← hcut]
      · intro d hd
        rcases List.mem_cons.mp hd with rfl | hd
        · rw [Nat.and_two_pow_sub_one_eq_mod]
          exact Nat.mod_lt _ (Nat.two_pow_pos b)
        · exact hdigits d hd
    next h =>
      refine ⟨rfl, by omega, ?_⟩
      intro d hd
      cases hd

theorem drain_once (hwidth : 0 < b) (hpending : pending < 2 * b) :
    drain b acc pending =
      if b ≤ pending then ([(acc >>> (pending - b)) &&& (2 ^ b - 1)], pending - b)
      else ([], pending) := by
  rw [drain]
  by_cases h : b ≤ pending
  · have hless : ¬ (0 < b ∧ b ≤ pending - b) := by omega
    rw [dif_pos ⟨hwidth, h⟩, if_pos h, drain, dif_neg hless]
  · rw [dif_neg fun hboth => h hboth.2, if_neg h]

/-- Digits of width `a` go in one by one, and after each of them the whole digits of width `b` are
taken out: they, and the accumulator and the bits that are pending at the end. -/
def regroup (a b : ℕ) : ℕ → ℕ → List ℕ → List ℕ × ℕ × ℕ
  | acc, pending, [] => ([], acc, pending)
  | acc, pending, digit :: digits =>
    let acc := shiftIn a acc digit
    let taken := drain b acc (pending + a)
    let rest := regroup a b acc taken.2 digits
    (taken.1 ++ rest.1, rest.2)

/-- Nothing is lost by it, whatever has been pushed out of the accumulator. -/
theorem regroup_spec (hwidth : 0 < b) (hroom : b + a ≤ 33) {digits : List ℕ}
    (hdigits : ∀ d ∈ digits, d < 2 ^ a) (hpending : pending < b) :
    bitsOf b (regroup a b acc pending digits).1 ++
        bits (regroup a b acc pending digits).2.2 (regroup a b acc pending digits).2.1 =
      bits pending acc ++ bitsOf a digits ∧
      (regroup a b acc pending digits).2.2 < b ∧
      ∀ d ∈ (regroup a b acc pending digits).1, d < 2 ^ b := by
  induction digits generalizing acc pending with
  | nil =>
    refine ⟨?_, hpending, ?_⟩
    · rw [regroup, bitsOf, bitsOf, List.flatMap_nil, List.flatMap_nil, List.nil_append,
        List.append_nil]
    · intro d hd
      cases hd
  | cons digit digits ih =>
    obtain ⟨hbits, hrest, htaken⟩ := @drain_spec b hwidth (shiftIn a acc digit) (pending + a)
    obtain ⟨hmore, hend, hothers⟩ := @ih (shiftIn a acc digit)
      (drain b (shiftIn a acc digit) (pending + a)).2
      (fun d hd => hdigits d (List.mem_cons_of_mem _ hd)) hrest
    rw [regroup]
    refine ⟨?_, hend, ?_⟩
    · dsimp only
      rw [bitsOf_append, List.append_assoc, hmore, ← List.append_assoc, hbits,
        bits_shiftIn (hdigits digit List.mem_cons_self) (by omega), List.append_assoc, bitsOf,
        bitsOf, List.flatMap_cons]
    · intro d hd
      rcases List.mem_append.mp hd with hd | hd
      · exact htaken d hd
      · exact hothers d hd

/-- Where digits go in no wider than they come out, there is never more than one to take. -/
def regroupOnce (a b : ℕ) : ℕ → ℕ → List ℕ → List ℕ × ℕ × ℕ
  | acc, pending, [] => ([], acc, pending)
  | acc, pending, digit :: digits =>
    let acc := shiftIn a acc digit
    if b ≤ pending + a then
      let rest := regroupOnce a b acc (pending + a - b) digits
      (((acc >>> (pending + a - b)) &&& (2 ^ b - 1)) :: rest.1, rest.2)
    else regroupOnce a b acc (pending + a) digits

theorem regroupOnce_eq (hwidth : 0 < b) (hab : a ≤ b) (hpending : pending < b) (digits : List ℕ) :
    regroupOnce a b acc pending digits = regroup a b acc pending digits := by
  induction digits generalizing acc pending with
  | nil => rfl
  | cons digit digits ih =>
    have hdrain := @drain_once b (shiftIn a acc digit) (pending + a) hwidth (by omega)
    rw [regroupOnce, regroup, hdrain]
    dsimp only
    split
    next h =>
      rw [ih (by omega)]
      rfl
    next h =>
      rw [ih (by omega)]
      rfl

end Accumulator

end Tracefold.Library.Bits
