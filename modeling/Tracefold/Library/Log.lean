import Mathlib.Data.List.Induction
import Mathlib.Tactic.Common

/-! Logs that only grow: the part since the last mark, and what holds of every entry over what
stood before it. -/

namespace Tracefold.Library

set_option autoImplicit true

/-- The elements after the last one that `p` marks; all of them if none is marked. -/
def afterLast (p : α → Bool) (l : List α) : List α :=
  l.foldl (fun acc a => if p a then [] else acc ++ [a]) []

theorem afterLast_append (p : α → Bool) (l : List α) (a : α) :
    afterLast p (l ++ [a]) = if p a then [] else afterLast p l ++ [a] := by
  simp [afterLast]

theorem afterLast_marked {p : α → Bool} {a : α} (h : p a = true) (l : List α) :
    afterLast p (l ++ [a]) = [] := by
  rw [afterLast_append, if_pos h]

theorem afterLast_unmarked {p : α → Bool} {a : α} (h : p a = false) (l : List α) :
    afterLast p (l ++ [a]) = afterLast p l ++ [a] := by
  rw [afterLast_append, if_neg (by simp [h])]

theorem mem_of_mem_afterLast {p : α → Bool} {l : List α} {a : α} (h : a ∈ afterLast p l) :
    a ∈ l := by
  induction l using List.reverseRecOn with
  | nil => cases h
  | append_singleton l b ih =>
    rw [afterLast_append] at h
    split at h
    · cases h
    · rcases List.mem_append.mp h with h | h
      · exact List.mem_append_left _ (ih h)
      · exact List.mem_append_right _ h

theorem mem_afterLast_append {p : α → Bool} {l : List α} {a b : α}
    (h : b ∈ afterLast p (l ++ [a])) : p a = false ∧ (b ∈ afterLast p l ∨ b = a) := by
  rw [afterLast_append] at h
  split at h
  next => cases h
  next ha =>
    refine ⟨by simpa using ha, ?_⟩
    simpa using h

/-- Every entry of a log stands in `P` to the entries before it. -/
def EveryEntry (P : List α → α → Prop) (l : List α) : Prop :=
  ∀ before a after, l = before ++ a :: after → P before a

theorem EveryEntry.nil {P : List α → α → Prop} : EveryEntry P [] := by
  intro before a after h
  cases before <;> cases h

theorem EveryEntry.append {P : List α → α → Prop} {l : List α} {a : α} (h : EveryEntry P l)
    (ha : P l a) : EveryEntry P (l ++ [a]) := by
  intro before b after heq
  rcases List.eq_nil_or_concat after with rfl | ⟨after, last, rfl⟩
  · obtain ⟨rfl, hlast⟩ := List.append_inj' heq rfl
    cases hlast
    exact ha
  · rw [List.concat_eq_append, ← List.cons_append, ← List.append_assoc] at heq
    obtain ⟨rfl, _⟩ := List.append_inj' heq rfl
    exact h before b after rfl

theorem EveryEntry.getElem? {P : List α → α → Prop} {l : List α} {k : ℕ} {a : α}
    (h : EveryEntry P l) (hk : l[k]? = some a) : P (l.take k) a := by
  obtain ⟨hlt, rfl⟩ := List.getElem?_eq_some_iff.mp hk
  refine h (l.take k) l[k] (l.drop (k + 1)) ?_
  rw [List.getElem_cons_drop, List.take_append_drop]

end Tracefold.Library
