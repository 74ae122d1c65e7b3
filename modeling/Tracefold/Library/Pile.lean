import Mathlib.Tactic.Common
import Mathlib.Data.List.Induction

/-! A pile that items are put on, or take the top one off, or pass over: what is left on it, and
where in the list of items that stood. -/

namespace Tracefold.Library.Pile

set_option autoImplicit true

inductive Fate where
  | skip
  | pop
  | keep
  deriving DecidableEq

section Defs

variable (fate : α → Fate)

def put (kept : List α) (x : α) : List α :=
  match fate x with
  | .skip => kept
  | .pop => kept.dropLast
  | .keep => kept ++ [x]

/-- The pile a list of items leaves. -/
def pile (items : List α) : List α := items.foldl (put fate) []

/-- Items that leave a pile as it was: each one that is put on it is taken off again. -/
inductive Cancels : List α → Prop where
  | nil : Cancels []
  | skip {d : List α} {x : α} (hd : Cancels d) (hx : fate x = .skip) : Cancels (d ++ [x])
  | pop {d d' : List α} {x y : α} (hd : Cancels d) (hx : fate x = .keep) (hd' : Cancels d')
      (hy : fate y = .pop) : Cancels (d ++ x :: d' ++ [y])

/-- The items on a pile, among those it was made of: what stands behind each one cancels, and what
stands before them all is as `base` says. -/
inductive Piled (base : List α → Prop) : List α → List α → Prop where
  | base {d : List α} (hd : base d) : Piled base d []
  | keep {items kept d : List α} {x : α} (h : Piled base items kept) (hx : fate x = .keep)
      (hd : Cancels fate d) : Piled base (items ++ x :: d) (kept ++ [x])

/-- An item takes off what lay under the topmost `depth` ones. -/
def digs : ℕ → List α → Bool
  | _, [] => false
  | depth, x :: rest =>
    match fate x with
    | .skip => digs depth rest
    | .pop => depth = 0 || digs (depth - 1) rest
    | .keep => digs (depth + 1) rest

/-- With `depth` items still over it, an item comes to lie next to `other`, and not to the last of
all. -/
def meets [DecidableEq α] (other : α) : ℕ → List α → Bool
  | _, [] => false
  | depth, x :: rest =>
    (depth = 0 && x = other && !rest.isEmpty) ||
      match fate x with
      | .skip => meets other depth rest
      | .pop => depth ≠ 0 && meets other (depth - 1) rest
      | .keep => meets other (depth + 1) rest

end Defs

variable {fate : α → Fate} {items kept : List α} {base : List α → Prop} {x y : α}

theorem pile_concat (items : List α) (x : α) :
    pile fate (items ++ [x]) = put fate (pile fate items) x := by
  rw [pile, List.foldl_append]
  rfl

theorem Cancels.append {d d' : List α} (h : Cancels fate d) (h' : Cancels fate d') :
    Cancels fate (d ++ d') := by
  induction h' with
  | nil => rwa [List.append_nil]
  | skip _ hx ih =>
    rw [← List.append_assoc]
    exact .skip ih hx
  | pop _ hx hd' hy ih _ =>
    rw [← List.append_assoc, ← List.append_assoc]
    exact .pop ih hx hd' hy

theorem Piled.append (hbase : ∀ d d', base d → Cancels fate d' → base (d ++ d'))
    (h : Piled fate base items kept) {d : List α} (hd : Cancels fate d) :
    Piled fate base (items ++ d) kept := by
  cases h with
  | base hd' => exact .base (hbase _ _ hd' hd)
  | keep h hx hd' =>
    rw [List.append_assoc]
    exact .keep h hx (hd'.append hd)

theorem Piled.pop (hbase : ∀ d d', base d → Cancels fate d' → base (d ++ d'))
    (h : Piled fate base items (kept ++ [x])) (hy : fate y = .pop) :
    Piled fate base (items ++ [y]) kept := by
  generalize htop : kept ++ [x] = top at h
  cases h with
  | base => simp at htop
  | @keep items kept' d x' h hx hd =>
    obtain ⟨rfl, hlast⟩ := List.append_inj' htop rfl
    have hcancels : Cancels fate ([] ++ x' :: d ++ [y]) := .pop .nil hx hd hy
    rw [List.append_assoc]
    exact h.append hbase hcancels

/-- Items that stand side by side on a pile had only cancelling ones between them. -/
theorem Piled.adjacent {a b : α} {before after : List α}
    (h : Piled fate base items (before ++ a :: b :: after)) :
    ∃ A D B, items = A ++ a :: D ++ b :: B ∧ Cancels fate D ∧ (after ≠ [] → B ≠ []) := by
  induction after using List.reverseRecOn generalizing items with
  | nil =>
    rw [show before ++ [a, b] = before ++ [a] ++ [b] by simp] at h
    generalize htop : before ++ [a] ++ [b] = top at h
    cases h with
    | base => simp at htop
    | @keep items kept d x h hx hd =>
      obtain ⟨rfl, hlast⟩ := List.append_inj' htop rfl
      cases hlast
      generalize hnext : before ++ [a] = next at h
      cases h with
      | base => simp at hnext
      | @keep items' kept' d' x' h' hx' hd' =>
        obtain ⟨rfl, hlast⟩ := List.append_inj' hnext rfl
        cases hlast
        exact ⟨items', d', d, rfl, hd', fun h => absurd rfl h⟩
  | append_singleton after z ih =>
    rw [show before ++ a :: b :: (after ++ [z]) = before ++ a :: b :: after ++ [z] by simp] at h
    generalize htop : before ++ a :: b :: after ++ [z] = top at h
    cases h with
    | base => simp at htop
    | @keep items kept d x h hx hd =>
      obtain ⟨rfl, hlast⟩ := List.append_inj' htop rfl
      obtain ⟨A, D, B, rfl, hD, _⟩ := ih h
      exact ⟨A, D, B ++ x :: d, by simp, hD, fun _ => by simp⟩

theorem piled_pile (items : List α) : Piled fate (fun _ => True) items (pile fate items) := by
  have hbase : ∀ d d' : List α, True → Cancels fate d' → True := fun _ _ _ _ => trivial
  induction items using List.reverseRecOn with
  | nil => exact .base trivial
  | append_singleton items x ih =>
    rw [pile_concat, put]
    split
    next hx => exact ih.append hbase (.skip .nil hx)
    next hx =>
      rcases List.eq_nil_or_concat (pile fate items) with hnil | ⟨kept, top, hconcat⟩
      · rw [hnil]
        exact .base trivial
      · rw [List.concat_eq_append] at hconcat
        rw [hconcat] at ih ⊢
        rw [List.dropLast_concat]
        exact ih.pop hbase hx
    next hx => exact .keep ih hx .nil

theorem mem_pile (h : x ∈ pile fate items) : x ∈ items ∧ fate x = .keep := by
  induction items using List.reverseRecOn with
  | nil => cases h
  | append_singleton items y ih =>
    have hkept : x ∈ pile fate items → x ∈ items ++ [y] ∧ fate x = .keep :=
      fun h => ⟨List.mem_append_left _ (ih h).1, (ih h).2⟩
    rw [pile_concat, put] at h
    split at h
    next => exact hkept h
    next => exact hkept (List.dropLast_subset _ h)
    next hy =>
      rcases List.mem_append.mp h with h | h
      · exact hkept h
      · obtain rfl := List.mem_singleton.mp h
        exact ⟨List.mem_append_right _ h, hy⟩

theorem pile_of_keep (h : ∀ x ∈ items, fate x = .keep) : pile fate items = items := by
  induction items using List.reverseRecOn with
  | nil => rfl
  | append_singleton items x ih =>
    have hx : fate x = .keep := h x (List.mem_append_right _ List.mem_cons_self)
    rw [pile_concat, ih fun y hy => h y (List.mem_append_left _ hy), put, hx]

theorem foldl_put_cons {rest : List α} (h : digs fate kept.length rest = false) :
    rest.foldl (put fate) (x :: kept) = x :: rest.foldl (put fate) kept := by
  induction rest generalizing kept with
  | nil => rfl
  | cons y rest ih =>
    rw [digs] at h
    rw [List.foldl_cons, List.foldl_cons, put.eq_def fate (x :: kept), put.eq_def fate kept]
    cases hy : fate y with
    | skip =>
      rw [hy] at h
      exact ih h
    | pop =>
      rw [hy] at h
      obtain ⟨hne, hrest⟩ := Bool.or_eq_false_iff.mp h
      have hkept : kept ≠ [] := by
        rintro rfl
        cases hne
      dsimp only
      rw [List.dropLast_cons_of_ne_nil hkept]
      apply ih
      rwa [List.length_dropLast]
    | keep =>
      rw [hy] at h
      dsimp only
      rw [List.cons_append]
      apply ih
      rwa [List.length_append]

theorem pile_cons {rest : List α} (hx : fate x = .keep) (h : digs fate 0 rest = false) :
    pile fate (x :: rest) = x :: pile fate rest := by
  rw [pile, List.foldl_cons, put, hx]
  exact foldl_put_cons h

theorem digs_map {f : β → α} {depth : ℕ} {items : List β} :
    digs fate depth (items.map f) = digs (fun x => fate (f x)) depth items := by
  induction items generalizing depth with
  | nil => rfl
  | cons x items ih =>
    rw [List.map_cons, digs, digs]
    simp only [ih]

theorem digs_concat {depth : ℕ} (hx : fate x = .keep) :
    digs fate depth (items ++ [x]) = digs fate depth items := by
  induction items generalizing depth with
  | nil => simp [digs, hx]
  | cons y items ih =>
    rw [List.cons_append, digs, digs]
    simp only [ih]

theorem meets_map [DecidableEq α] [DecidableEq β] {f : β → α} {other : β} {depth : ℕ}
    {items : List β} (hf : ∀ x, f x = f other ↔ x = other) :
    meets fate (f other) depth (items.map f) = meets (fun x => fate (f x)) other depth items := by
  induction items generalizing depth with
  | nil => rfl
  | cons x items ih =>
    rw [List.map_cons, meets, meets]
    simp only [ih, hf, List.isEmpty_map]

theorem meets_cancels [DecidableEq α] {other : α} {d rest : List α} {depth : ℕ}
    (hd : Cancels fate d) (h : meets fate other depth rest = true) :
    meets fate other depth (d ++ rest) = true := by
  induction hd generalizing depth rest with
  | nil => exact h
  | skip _ hx ih =>
    rw [List.append_assoc]
    apply ih
    rw [List.singleton_append, meets, hx]
    exact Bool.or_eq_true_iff.mpr (.inr h)
  | @pop d d' x y _ hx _ hy ih ih' =>
    rw [List.append_assoc, List.append_assoc, List.cons_append]
    apply ih
    rw [meets, hx]
    refine Bool.or_eq_true_iff.mpr (.inr (ih' ?_))
    rw [List.singleton_append, meets, hy]
    exact Bool.or_eq_true_iff.mpr (.inr (by simpa using h))

end Tracefold.Library.Pile
