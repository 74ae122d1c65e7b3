import Mathlib.Data.List.Destutter
import Mathlib.Data.List.Sort
import Mathlib.Tactic.Common

/-! Sorting by a comparison, and when the order a list came in leaves no trace. -/

namespace Tracefold.Library.Sort

set_option autoImplicit true

open Std

/-- A stable sort by a comparison. -/
def sortBy (cmp : α → α → Ordering) (l : List α) : List α :=
  l.insertionSort fun a b => (cmp a b).isLE

variable {cmp : α → α → Ordering}

theorem sortBy_perm (l : List α) : (sortBy cmp l).Perm l := List.perm_insertionSort _ l

theorem mem_sortBy {l : List α} {a : α} : a ∈ sortBy cmp l ↔ a ∈ l := (sortBy_perm l).mem_iff

theorem pairwise_sortBy [TransCmp cmp] (l : List α) :
    (sortBy cmp l).Pairwise fun a b => (cmp a b).isLE := by
  have htotal : Std.Total fun a b => (cmp a b).isLE = true := by
    constructor
    intro a b
    have hswap : cmp b a = (cmp a b).swap := OrientedCmp.eq_swap
    rw [hswap, Ordering.isLE_swap]
    cases cmp a b <;> simp
  have htrans : IsTrans α fun a b => (cmp a b).isLE = true := ⟨fun _ _ _ => TransCmp.isLE_trans⟩
  exact List.pairwise_insertionSort (fun a b => (cmp a b).isLE = true) l

/-- Where the comparison tells the elements apart, the sorted list is that of their multiset. -/
theorem sortBy_eq_of_perm [TransCmp cmp] {l l' : List α}
    (hinj : ∀ a ∈ l, ∀ b ∈ l, cmp a b = .eq → a = b) (h : l.Perm l') :
    sortBy cmp l = sortBy cmp l' := by
  apply List.Perm.eq_of_pairwise _ (pairwise_sortBy l) (pairwise_sortBy l')
  · exact (sortBy_perm l).trans (h.trans (sortBy_perm l').symm)
  · intro a b ha hb hab hba
    rw [mem_sortBy] at ha hb
    apply hinj a ha b (h.mem_iff.mpr hb)
    exact OrientedCmp.isLE_antisymm hab hba

section Distinct

variable [DecidableEq α]

/-- A list sorted by a comparison, and every element of it once. -/
def distinctBy (cmp : α → α → Ordering) (l : List α) : List α := (sortBy cmp l).destutter (· ≠ ·)

variable [TransCmp cmp] [LawfulEqCmp cmp]

theorem distinctBy_eq_dedup (l : List α) : distinctBy cmp l = (sortBy cmp l).dedup := by
  have hantisymm : Std.Antisymm fun a b => (cmp a b).isLE = true := by
    constructor
    intro a b hab hba
    exact LawfulEqCmp.eq_of_compare (OrientedCmp.isLE_antisymm hab hba)
  exact List.Pairwise.destutter_eq_dedup (pairwise_sortBy l)

theorem mem_distinctBy {l : List α} {a : α} : a ∈ distinctBy cmp l ↔ a ∈ l := by
  rw [distinctBy_eq_dedup, List.mem_dedup, mem_sortBy]

theorem nodup_distinctBy (l : List α) : (distinctBy cmp l).Nodup := by
  rw [distinctBy_eq_dedup]
  exact List.nodup_dedup _

omit [LawfulEqCmp cmp] in
theorem pairwise_distinctBy (l : List α) : (distinctBy cmp l).Pairwise fun a b => (cmp a b).isLE :=
  (pairwise_sortBy l).sublist (List.destutter_sublist ..)

omit [DecidableEq α] in
theorem eq_of_mem_iff {l l' : List α} (hl : l.Pairwise fun a b => (cmp a b).isLE)
    (hl' : l'.Pairwise fun a b => (cmp a b).isLE) (hnodup : l.Nodup) (hnodup' : l'.Nodup) (h : ∀ a, a ∈ l ↔ a ∈ l') : l = l' := by
  apply List.Perm.eq_of_pairwise _ hl hl'
  · exact (List.perm_ext_iff_of_nodup hnodup hnodup').mpr h
  · intro a b _ _ hab hba
    exact LawfulEqCmp.eq_of_compare (OrientedCmp.isLE_antisymm hab hba)

/-- The order and the repeats that a list came with leave no trace, and all else does. -/
theorem distinctBy_eq_iff {l l' : List α} :
    distinctBy cmp l = distinctBy cmp l' ↔ ∀ a, a ∈ l ↔ a ∈ l' := by
  constructor
  · intro h a
    have hl : a ∈ distinctBy cmp l ↔ a ∈ l := mem_distinctBy
    have hl' : a ∈ distinctBy cmp l' ↔ a ∈ l' := mem_distinctBy
    rw [← hl, h, hl']
  · intro h
    apply eq_of_mem_iff (pairwise_distinctBy l) (pairwise_distinctBy l') (nodup_distinctBy l)
      (nodup_distinctBy l')
    intro a
    rw [mem_distinctBy, mem_distinctBy]
    exact h a

theorem distinctBy_eq_self {l : List α} (h : l.Pairwise fun a b => cmp a b = .lt) :
    distinctBy cmp l = l := by
  apply eq_of_mem_iff (pairwise_distinctBy l) _ (nodup_distinctBy l)
  · apply h.imp
    rintro a _ hab rfl
    have hself : cmp a a = .eq := ReflCmp.compare_self
    rw [hself] at hab
    cases hab
  · intro a
    exact mem_distinctBy
  · apply h.imp
    intro a b hab
    rw [hab]
    rfl

end Distinct

section Keyed

variable {κ ν : Type} [DecidableEq κ] {cmp : κ → κ → Ordering}

/-- The pairs of a key, in the order of the list, and the values in them. -/
def pairsOf (key : κ) (l : List (κ × ν)) : List (κ × ν) := l.filter (·.1 = key)

def valuesOf (key : κ) (l : List (κ × ν)) : List ν := (pairsOf key l).map (·.2)

theorem mem_pairsOf {key : κ} {l : List (κ × ν)} {pair : κ × ν} :
    pair ∈ pairsOf key l ↔ pair ∈ l ∧ pair.1 = key := by
  rw [pairsOf, List.mem_filter, decide_eq_true_iff]

theorem pairsOf_eq (key : κ) (l : List (κ × ν)) :
    pairsOf key l = (valuesOf key l).map fun value => (key, value) := by
  rw [valuesOf, List.map_map]
  symm
  calc (pairsOf key l).map ((fun value => (key, value)) ∘ (·.2))
      = (pairsOf key l).map id := by
        apply List.map_congr_left
        intro pair hpair
        rw [← (mem_pairsOf.mp hpair).2]
        rfl
    _ = pairsOf key l := List.map_id _

theorem pairsOf_eq_iff {key : κ} {l l' : List (κ × ν)} :
    pairsOf key l = pairsOf key l' ↔ valuesOf key l = valuesOf key l' := by
  constructor
  · intro h
    rw [valuesOf, h, valuesOf]
  · intro h
    rw [pairsOf_eq, h, ← pairsOf_eq]

variable [TransCmp cmp]

instance transCmp_fst : TransCmp fun a b : κ × ν => cmp a.1 b.1 where
  eq_swap := OrientedCmp.eq_swap
  isLE_trans := TransCmp.isLE_trans

theorem pairsOf_sortBy (key : κ) (l : List (κ × ν)) :
    pairsOf key (sortBy (fun a b => cmp a.1 b.1) l) = pairsOf key l := by
  have hpairwise : (pairsOf key l).Pairwise fun a b => (cmp a.1 b.1).isLE := by
    apply List.pairwise_of_forall_mem_list
    intro a ha b hb
    rw [(mem_pairsOf.mp ha).2, (mem_pairsOf.mp hb).2]
    exact ReflCmp.isLE_rfl
  have hsublist := List.sublist_insertionSort hpairwise List.filter_sublist
  have hkept : pairsOf key (pairsOf key l) = pairsOf key l := by
    unfold pairsOf
    rw [List.filter_filter]
    simp only [Bool.and_self]
  symm
  apply List.Sublist.eq_of_length
  · rw [← hkept]
    exact hsublist.filter _
  · exact ((sortBy_perm l).filter _).length_eq.symm

theorem pairsOf_cons {pair : κ × ν} {l : List (κ × ν)} :
    pairsOf pair.1 (pair :: l) = pair :: pairsOf pair.1 l := by
  rw [pairsOf, List.filter_cons, if_pos (decide_eq_true rfl)]
  rfl

theorem eq_of_pairsOf_eq [LawfulEqCmp cmp] {l l' : List (κ × ν)}
    (hl : l.Pairwise fun a b => (cmp a.1 b.1).isLE) (hl' : l'.Pairwise fun a b => (cmp a.1 b.1).isLE)
    (h : ∀ key, pairsOf key l = pairsOf key l') : l = l' := by
  induction l generalizing l' with
  | nil =>
    cases l' with
    | nil => rfl
    | cons pair l' =>
      have hkey := h pair.1
      rw [pairsOf_cons] at hkey
      cases hkey
  | cons pair l ih =>
    cases l' with
    | nil =>
      have hkey := h pair.1
      rw [pairsOf_cons] at hkey
      cases hkey
    | cons pair' l' =>
      have hle : ∀ {a b : κ × ν} {l l' : List (κ × ν)},
          (a :: l).Pairwise (fun a b => (cmp a.1 b.1).isLE) →
          pairsOf b.1 (a :: l) = pairsOf b.1 (b :: l') → (cmp a.1 b.1).isLE := by
        intro a b l l' hsorted hsame
        rw [pairsOf_cons] at hsame
        have hmem : b ∈ pairsOf b.1 (a :: l) := by
          rw [hsame]
          exact List.mem_cons_self
        rcases List.mem_cons.mp (mem_pairsOf.mp hmem).1 with rfl | hmem
        · exact ReflCmp.isLE_rfl
        · exact List.rel_of_pairwise_cons hsorted hmem
      have hkeys : pair.1 = pair'.1 := LawfulEqCmp.eq_of_compare
        (OrientedCmp.isLE_antisymm (hle hl (h pair'.1)) (hle hl' (h pair.1).symm))
      have hfirst := h pair.1
      rw [pairsOf_cons, hkeys, pairsOf_cons] at hfirst
      obtain ⟨rfl, -⟩ := List.cons.inj hfirst
      rw [ih hl.of_cons hl'.of_cons]
      intro key
      have hkey := h key
      unfold pairsOf at hkey ⊢
      rw [List.filter_cons, List.filter_cons] at hkey
      split at hkey
      next => exact (List.cons.inj hkey).2
      next => exact hkey

/-- What is sorted by its keys is told by the values of each key, in their order. -/
theorem sortBy_key_eq_iff [LawfulEqCmp cmp] {l l' : List (κ × ν)} :
    sortBy (fun a b => cmp a.1 b.1) l = sortBy (fun a b => cmp a.1 b.1) l' ↔
      ∀ key, valuesOf key l = valuesOf key l' := by
  constructor
  · intro h key
    have hl := @pairsOf_sortBy κ ν _ cmp _ key l
    rw [h, pairsOf_sortBy] at hl
    exact pairsOf_eq_iff.mp hl.symm
  · intro h
    apply eq_of_pairsOf_eq (pairwise_sortBy l) (pairwise_sortBy l')
    intro key
    rw [pairsOf_sortBy, pairsOf_sortBy, pairsOf_eq_iff]
    exact h key

end Keyed

end Tracefold.Library.Sort
