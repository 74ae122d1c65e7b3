import Mathlib.Data.List.Chain
import Mathlib.Tactic.Common
import Mathlib.Algebra.Ring.Nat

/-! Intervals laid end to end, and what two such rows over one line have in common. -/

namespace Tracefold.Library.Seams

set_option autoImplicit true

section Laid

variable (opens closes : α → ℕ)

/-- Intervals that each run forwards, the first from `start`, each from where the one before it
closed, and the last to `stop`. -/
inductive Laid : ℕ → List α → ℕ → Prop where
  | nil (start : ℕ) : Laid start [] start
  | cons {x : α} {row : List α} {stop : ℕ} (forwards : opens x ≤ closes x)
      (rest : Laid (closes x) row stop) : Laid (opens x) (x :: row) stop

variable {opens closes} {start stop : ℕ} {row : List α}

theorem Laid.le (h : Laid opens closes start row stop) : start ≤ stop := by
  induction h with
  | nil => exact le_rfl
  | cons forwards _ ih => exact forwards.trans ih

theorem Laid.mem (h : Laid opens closes start row stop) {x : α} (hx : x ∈ row) :
    start ≤ opens x ∧ opens x ≤ closes x ∧ closes x ≤ stop := by
  induction h with
  | nil => cases hx
  | cons forwards rest ih =>
    rcases List.mem_cons.mp hx with rfl | hx
    · exact ⟨le_rfl, forwards, rest.le⟩
    · obtain ⟨hopens, hforwards, hcloses⟩ := ih hx
      exact ⟨forwards.trans hopens, hforwards, hcloses⟩

theorem Laid.pairwise (h : Laid opens closes start row stop) :
    row.Pairwise fun x y => closes x ≤ opens y := by
  induction h with
  | nil => exact .nil
  | cons _ rest ih =>
    apply List.Pairwise.cons _ ih
    intro y hy
    exact (rest.mem hy).1

/-- Any two of them are one, or lie apart. -/
theorem Laid.apart (h : Laid opens closes start row stop) {x y : α} (hx : x ∈ row) (hy : y ∈ row) :
    x = y ∨ closes x ≤ opens y ∨ closes y ≤ opens x := by
  have hpairwise := h.pairwise
  clear h
  induction hpairwise with
  | nil => cases hx
  | @cons z row hfirst _ ih =>
    rcases List.mem_cons.mp hx with rfl | hxrow
    · rcases List.mem_cons.mp hy with rfl | hyrow
      · exact .inl rfl
      · exact .inr (.inl (hfirst y hyrow))
    · rcases List.mem_cons.mp hy with rfl | hyrow
      · exact .inr (.inr (hfirst x hxrow))
      · exact ih hxrow hyrow

theorem Laid.sum (h : Laid opens closes start row stop) :
    start + (row.map fun x => closes x - opens x).sum = stop := by
  induction h with
  | nil => rfl
  | cons forwards _ ih =>
    rw [List.map_cons, List.sum_cons]
    omega

theorem Laid.filter (h : Laid opens closes start row stop) :
    Laid opens closes start (row.filter fun x => opens x < closes x) stop := by
  induction h with
  | nil => exact .nil _
  | @cons x row stop forwards _ ih =>
    by_cases hx : opens x < closes x
    · rw [List.filter_cons_of_pos (by simpa using hx)]
      exact .cons forwards ih
    · rw [List.filter_cons_of_neg (by simpa using hx)]
      have hempty : opens x = closes x := by omega
      rwa [hempty]

theorem laid_of_isChain {x : α} (hforwards : ∀ y ∈ x :: row, opens y ≤ closes y)
    (hseams : (x :: row).IsChain fun y z => closes y = opens z) :
    Laid opens closes (opens x) (x :: row)
      (closes ((x :: row).getLast (List.cons_ne_nil x row))) := by
  induction row generalizing x with
  | nil => exact .cons (hforwards x List.mem_cons_self) (.nil _)
  | cons y row ih =>
    rw [List.isChain_cons_cons] at hseams
    obtain ⟨hseam, hseams⟩ := hseams
    have hrest := ih (fun z hz => hforwards z (List.mem_cons_of_mem x hz)) hseams
    rw [← hseam] at hrest
    rw [List.getLast_cons (List.cons_ne_nil y row)]
    exact .cons (hforwards x List.mem_cons_self) hrest

variable {row' : List α} {stop' : ℕ} {key : α → κ}

/-- Of two rows of nonempty intervals from one start, where any two that overlap are one in their
bounds and their key, the one begins with the other. -/
theorem Laid.prefix_or (h : Laid opens closes start row stop) (h' : Laid opens closes start row' stop')
    (hrow : ∀ x ∈ row, opens x < closes x) (hrow' : ∀ y ∈ row', opens y < closes y)
    (hoverlap : ∀ x ∈ row, ∀ y ∈ row', opens x < closes y → opens y < closes x →
      closes x = closes y ∧ key x = key y) :
    row.map key <+: row'.map key ∨ row'.map key <+: row.map key := by
  induction h generalizing row' with
  | nil => exact .inl List.nil_prefix
  | @cons x row stop forwards rest ih =>
    generalize hstart : opens x = start at h'
    cases h' with
    | nil => exact .inr List.nil_prefix
    | @cons y row' stop' forwards' rest' =>
      have hx := hrow x List.mem_cons_self
      have hy := hrow' y List.mem_cons_self
      obtain ⟨hcloses, hkey⟩ :=
        hoverlap x List.mem_cons_self y List.mem_cons_self (by omega) (by omega)
      rw [← hcloses] at rest'
      have htails := ih rest' (fun z hz => hrow z (List.mem_cons_of_mem x hz))
        (fun z hz => hrow' z (List.mem_cons_of_mem y hz))
        (fun z hz w hw => hoverlap z (List.mem_cons_of_mem x hz) w (List.mem_cons_of_mem y hw))
      rw [List.map_cons, List.map_cons, hkey, List.prefix_cons_inj, List.prefix_cons_inj]
      exact htails

end Laid

end Tracefold.Library.Seams
