import Mathlib.Algebra.BigOperators.Group.List.Basic
import Mathlib.Tactic.Common
import Mathlib.Algebra.Ring.Nat

/-! Texts whose letters take several units each, cut by numbers of units. -/

namespace Tracefold.Library

variable {α : Type*} (size : α → ℕ)

/-- The units that a text takes. -/
def extent (text : List α) : ℕ := (text.map size).sum

@[simp]
theorem extent_nil : extent size [] = 0 := rfl

@[simp]
theorem extent_cons (x : α) (text : List α) : extent size (x :: text) = size x + extent size text := by
  simp [extent]

@[simp]
theorem extent_append (a b : List α) : extent size (a ++ b) = extent size a + extent size b := by
  simp [extent]

/-- A text cut after some units; none when the cut falls within a letter or beyond the end. -/
def cutAt : ℕ → List α → Option (List α × List α)
  | 0, text => some ([], text)
  | _ + 1, [] => none
  | n + 1, x :: text =>
    if size x ≤ n + 1 then (cutAt (n + 1 - size x) text).map fun cut => (x :: cut.1, cut.2) else none

def slice (text : List α) (start stop : ℕ) : Option (List α) :=
  if start ≤ stop then do
    let (_, rest) ← cutAt size start text
    let (piece, _) ← cutAt size (stop - start) rest
    some piece
  else none

/-- The letters that satisfy `p` among those that begin before a number of units. -/
def countBefore (p : α → Bool) : ℕ → List α → ℕ
  | _, [] => 0
  | 0, _ :: _ => 0
  | n + 1, x :: text => (if p x then 1 else 0) + countBefore p (n + 1 - size x) text

section Positive

variable {size} (hsize : ∀ x, 0 < size x)

include hsize

theorem extent_pos {text : List α} (h : text ≠ []) : 0 < extent size text := by
  obtain ⟨x, rest, rfl⟩ := List.exists_cons_of_ne_nil h
  have hx := hsize x
  rw [extent_cons]
  omega

theorem cutAt_append (a b : List α) : cutAt size (extent size a) (a ++ b) = some (a, b) := by
  induction a with
  | nil => simp [cutAt]
  | cons x a ih =>
    have hx := hsize x
    obtain ⟨n, hn⟩ : ∃ n, extent size (x :: a) = n + 1 := ⟨extent size (x :: a) - 1, by
      rw [extent_cons]
      omega⟩
    rw [hn, List.cons_append, cutAt, if_pos, ← hn, extent_cons, Nat.add_sub_cancel_left, ih]
    · rfl
    · rw [← hn, extent_cons]
      omega

theorem slice_append (a b c : List α) :
    slice size (a ++ (b ++ c)) (extent size a) (extent size a + extent size b) = some b := by
  rw [slice, if_pos (Nat.le_add_right _ _), cutAt_append hsize, Nat.add_sub_cancel_left]
  change (cutAt size (extent size b) (b ++ c)).bind (fun cut => some cut.1) = some b
  rw [cutAt_append hsize]
  rfl

theorem countBefore_append (p : α → Bool) (n : ℕ) (a b : List α) :
    countBefore size p (extent size a + n) (a ++ b) = a.countP p + countBefore size p n b := by
  induction a with
  | nil => simp
  | cons x a ih =>
    have hx := hsize x
    obtain ⟨m, hm⟩ : ∃ m, extent size (x :: a) + n = m + 1 := ⟨extent size (x :: a) + n - 1, by
      rw [extent_cons]
      omega⟩
    have hrest : m + 1 - size x = extent size a + n := by
      rw [← hm, extent_cons]
      omega
    rw [hm, List.cons_append, countBefore, hrest, ih, List.countP_cons]
    omega

theorem countBefore_extent (p : α → Bool) (a b : List α) :
    countBefore size p (extent size a) (a ++ b) = a.countP p := by
  have h := countBefore_append hsize p 0 a b
  rw [Nat.add_zero] at h
  rw [h]
  cases b <;> rfl

theorem countBefore_last {p : α → Bool} (hp : ∀ x, p x = true → size x = 1) (a : List α) (x : α)
    (b : List α) : countBefore size p (extent size (a ++ [x]) - 1) (a ++ ([x] ++ b)) = a.countP p := by
  have hx := hsize x
  have hunits : extent size (a ++ [x]) - 1 = extent size a + (size x - 1) := by
    rw [extent_append, extent_cons, extent_nil]
    omega
  rw [hunits, countBefore_append hsize]
  suffices countBefore size p (size x - 1) ([x] ++ b) = 0 by omega
  cases hn : size x - 1 with
  | zero => rfl
  | succ n =>
    have hnot : ¬ p x = true := fun h => by
      have := hp x h
      omega
    have hrest : n + 1 - size x = 0 := by omega
    rw [List.singleton_append, countBefore, hrest, if_neg hnot]
    cases b <;> rfl

end Positive

end Tracefold.Library
