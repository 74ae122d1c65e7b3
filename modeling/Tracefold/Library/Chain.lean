import Mathlib.Tactic.Common
import Mathlib.Algebra.Ring.Nat
import Mathlib.Algebra.BigOperators.Group.List.Basic
import Mathlib.Data.List.Induction

/-! Chains of links: each link commits to an item and to the link before it, so that the last one
commits to all of them. -/

namespace Tracefold.Library.Chain

variable {δ β : Type} (link : δ → β → δ)

/-- The link after a list of items. -/
def head (start : δ) (items : List β) : δ := items.foldl link start

/-- Every link and item that is hashed on the way. -/
def hashed (start : δ) : List β → List (δ × β)
  | [] => []
  | item :: items => (start, item) :: hashed (link start item) items

variable {link}

theorem head_concat (start : δ) (items : List β) (item : β) :
    head link start (items ++ [item]) = link (head link start items) item := by
  rw [head, List.foldl_append]
  rfl

theorem hashed_append (start : δ) (items more : List β) :
    hashed link start (items ++ more) =
      hashed link start items ++ hashed link (head link start items) more := by
  induction items generalizing start with
  | nil => rfl
  | cons item items ih =>
    rw [List.cons_append, hashed, ih, hashed, List.cons_append]
    rfl

/-- Items of one size altogether that lead to one link are the same items, from the same start:
the last item is, and so are those before it. -/
theorem head_injective {start start' : δ} {items items' : List β} {size : β → ℕ}
    (hpos : ∀ item, 0 < size item) (hsize : (items.map size).sum = (items'.map size).sum)
    (hfree : ∀ x ∈ hashed link start items, ∀ y ∈ hashed link start' items',
      link x.1 x.2 = link y.1 y.2 → x = y)
    (hhead : head link start items = head link start' items') :
    start = start' ∧ items = items' := by
  induction items using List.reverseRecOn generalizing items' with
  | nil =>
    cases items' with
    | nil => exact ⟨hhead, rfl⟩
    | cons item' items' =>
      have hitem := hpos item'
      simp only [List.map_nil, List.sum_nil, List.map_cons, List.sum_cons] at hsize
      omega
  | append_singleton items item ih =>
    rcases List.eq_nil_or_concat items' with rfl | ⟨items', item', rfl⟩
    · have hitem := hpos item
      simp only [List.map_append, List.sum_append, List.map_cons, List.map_nil, List.sum_cons,
        List.sum_nil] at hsize
      omega
    · rw [List.concat_eq_append] at *
      rw [head_concat, head_concat] at hhead
      have hmem : ∀ (start : δ) (items : List β) (item : β),
          (head link start items, item) ∈ hashed link start (items ++ [item]) := by
        intro start items item
        rw [hashed_append]
        exact List.mem_append_right _ List.mem_cons_self
      obtain ⟨hprevious, rfl⟩ := Prod.mk.inj (hfree _ (hmem ..) _ (hmem ..) hhead)
      have hsize' : (items.map size).sum = (items'.map size).sum := by
        simpa only [List.map_append, List.sum_append, Nat.add_right_cancel_iff] using hsize
      have hfree' : ∀ x ∈ hashed link start items, ∀ y ∈ hashed link start' items',
          link x.1 x.2 = link y.1 y.2 → x = y := by
        intro x hx y hy
        apply hfree
        · rw [hashed_append]
          exact List.mem_append_left _ hx
        · rw [hashed_append]
          exact List.mem_append_left _ hy
      obtain ⟨rfl, rfl⟩ := ih hsize' hfree' hprevious
      exact ⟨rfl, rfl⟩

end Tracefold.Library.Chain
