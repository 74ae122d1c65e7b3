import Mathlib.Data.List.Basic
import Mathlib.Tactic.Common

/-! Scans of a list by position: programs that move a position forward or fail, and what stands
between the positions they move over. -/

namespace Tracefold.Library

set_option autoImplicit true

/-- `s` stands in `l` from position `i` up to position `j`. -/
def Stands (l : List α) (i : ℕ) (s : List α) (j : ℕ) : Prop :=
  j = i + s.length ∧ l.drop i = s ++ l.drop j

namespace Stands

variable {l s t : List α} {i j k : ℕ}

theorem nil : Stands l i [] i := ⟨rfl, rfl⟩

theorem nil_iff : Stands l i [] j ↔ j = i := by
  constructor
  · intro h
    exact h.1
  · rintro rfl
    exact nil

theorem append (h : Stands l i s j) (h' : Stands l j t k) : Stands l i (s ++ t) k := by
  obtain ⟨rfl, hs⟩ := h
  obtain ⟨rfl, ht⟩ := h'
  constructor
  · rw [List.length_append, Nat.add_assoc]
  · rw [hs, ht, List.append_assoc]

theorem append_iff : Stands l i (s ++ t) k ↔ ∃ j, Stands l i s j ∧ Stands l j t k := by
  constructor
  · rintro ⟨rfl, h⟩
    have hdrop : l.drop (i + s.length) = t ++ l.drop (i + (s ++ t).length) := by
      rw [← List.drop_drop, h, List.append_assoc, List.drop_left]
    refine ⟨i + s.length, ⟨rfl, ?_⟩, ?_, hdrop⟩
    · rw [h, hdrop, List.append_assoc]
    · rw [List.length_append, Nat.add_assoc]
  · rintro ⟨j, h, h'⟩
    exact h.append h'

theorem le_length (h : Stands l i s j) (hs : s ≠ []) : j ≤ l.length := by
  have hlength := congrArg List.length h.2
  have hpos := List.length_pos_iff.mpr hs
  simp only [List.length_drop, List.length_append] at hlength
  have := h.1
  omega

theorem inside (h : Stands l i s j) (hi : i ≤ l.length) : j ≤ l.length := by
  have hlength := congrArg List.length h.2
  simp only [List.length_drop, List.length_append] at hlength
  have := h.1
  omega

theorem slice (h : Stands l i s j) : (l.take j).drop i = s := by
  obtain ⟨rfl, h⟩ := h
  rw [List.drop_take, Nat.add_sub_cancel_left, h, List.take_left]

theorem eq (h : Stands l i s j) (h' : Stands l i t j) : s = t := by
  rw [← h.slice, h'.slice]

theorem length (h : Stands l i s j) : s.length = j - i := by
  have := h.1
  omega

theorem between (hij : i ≤ j) (hj : j ≤ l.length) : Stands l i ((l.take j).drop i) j := by
  constructor
  · simp only [List.length_drop, List.length_take]
    omega
  · conv_lhs => rw [← List.take_append_drop j l]
    rw [List.drop_append_of_le_length (by rw [List.length_take]; omega)]

theorem whole : Stands l 0 l l.length := by
  constructor
  · exact (Nat.zero_add _).symm
  · rw [List.drop_length, List.append_nil, List.drop_zero]

theorem whole_iff : Stands l 0 s l.length ↔ s = l := by
  constructor
  · intro h
    exact h.eq whole
  · rintro rfl
    exact whole

theorem head (h : Stands l i (a :: s) j) : l[i]? = some a := by
  have hhead := congrArg List.head? h.2
  rwa [List.head?_drop] at hhead

end Stands

/-- Programs over a position. -/
abbrev Scan (ε α : Type) := StateT ℕ (Except ε) α

namespace Scan

variable {ε α β : Type} {i j k : ℕ}

/-- From position `i` the scan ends at position `j` with the answer `a`. -/
def Ends (x : Scan ε α) (i : ℕ) (a : α) (j : ℕ) : Prop := x.run i = .ok (a, j)

@[simp]
theorem ends_pure {a b : α} : Ends (pure a : Scan ε α) i b j ↔ a = b ∧ i = j := by
  constructor
  · intro h
    cases h
    exact ⟨rfl, rfl⟩
  · rintro ⟨rfl, rfl⟩
    rfl

@[simp]
theorem ends_throw {e : ε} {a : α} : ¬ Ends (throw e : Scan ε α) i a j := by
  intro h
  cases h

@[simp]
theorem ends_get {a : ℕ} : Ends (get : Scan ε ℕ) i a j ↔ i = a ∧ i = j := by
  constructor
  · intro h
    cases h
    exact ⟨rfl, rfl⟩
  · rintro ⟨rfl, rfl⟩
    rfl

@[simp]
theorem ends_set {a : Unit} : Ends (set k : Scan ε PUnit) i a j ↔ k = j := by
  constructor
  · intro h
    cases h
    rfl
  · rintro rfl
    rfl

theorem ends_bind {x : Scan ε α} {f : α → Scan ε β} {b : β} :
    Ends (x >>= f) i b k ↔ ∃ a j, Ends x i a j ∧ Ends (f a) j b k := by
  unfold Ends
  rw [StateT.run_bind]
  cases hx : x.run i with
  | error e =>
    constructor
    · intro h
      cases h
    · rintro ⟨a, j, h, _⟩
      cases h
  | ok p =>
    obtain ⟨a, j⟩ := p
    constructor
    · intro h
      exact ⟨a, j, rfl, h⟩
    · rintro ⟨a', j', h, h'⟩
      cases h
      exact h'

theorem ends_ite {c : Prop} [Decidable c] {x y : Scan ε α} {a : α} :
    Ends (if c then x else y) i a j ↔ (c ∧ Ends x i a j) ∨ (¬ c ∧ Ends y i a j) := by
  by_cases h : c
  · simp [h]
  · simp [h]

/-- A scan made some number of times, one after another. -/
def times (x : Scan ε Unit) : ℕ → Scan ε Unit
  | 0 => pure ()
  | n + 1 => do
    x
    times x n

/-- If a scan moves over the code of one value, then making it `n` times moves over the codes of
`n` values. -/
theorem ends_times {γ V : Type} {l : List γ} {x : Scan ε Unit} {P : V → Prop} {code : V → List γ}
    (h : ∀ i j, Ends x i () j ↔ ∃ v, P v ∧ Stands l i (code v) j) (n : ℕ) :
    Ends (times x n) i () k ↔
      ∃ vs : List V, vs.length = n ∧ (∀ v ∈ vs, P v) ∧ Stands l i (vs.flatMap code) k := by
  induction n generalizing i with
  | zero =>
    rw [times, ends_pure]
    constructor
    · rintro ⟨_, rfl⟩
      exact ⟨[], rfl, by simp, .nil⟩
    · rintro ⟨vs, hvs, _, hstands⟩
      rw [List.length_eq_zero_iff.mp hvs, List.flatMap_nil, Stands.nil_iff] at hstands
      exact ⟨rfl, hstands.symm⟩
  | succ n ih =>
    rw [times, ends_bind]
    constructor
    · rintro ⟨⟨⟩, j, hx, hrest⟩
      obtain ⟨v, hv, hstands⟩ := (h i j).mp hx
      obtain ⟨vs, hlength, hvs, hrest⟩ := ih.mp hrest
      refine ⟨v :: vs, by rw [List.length_cons, hlength], ?_, hstands.append hrest⟩
      exact List.forall_mem_cons.mpr ⟨hv, hvs⟩
    · rintro ⟨vs, hlength, hvs, hstands⟩
      cases vs with
      | nil => cases hlength
      | cons v vs =>
        rw [List.flatMap_cons, Stands.append_iff] at hstands
        obtain ⟨j, hv, hrest⟩ := hstands
        obtain ⟨hPv, hPvs⟩ := List.forall_mem_cons.mp hvs
        refine ⟨(), j, (h i j).mpr ⟨v, hPv, hv⟩, ih.mpr ⟨vs, ?_, hPvs, hrest⟩⟩
        exact Nat.succ.inj hlength

end Scan

end Tracefold.Library
