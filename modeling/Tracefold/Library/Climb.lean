import Mathlib.Algebra.Group.Defs
import Mathlib.Algebra.BigOperators.Group.List.Basic
import Mathlib.Data.List.DropRight
import Mathlib.Tactic.Common
import Tracefold.Library.Pile

/-! Paths as ways through a tree: so many levels up, and from there down. -/

namespace Tracefold.Library

set_option autoImplicit true

open Pile (Fate)

/-- Some levels up, and then down through the names. -/
structure Climb (α : Type) where
  ups : ℕ
  names : List α
  deriving DecidableEq, Repr

namespace Climb

instance : One (Climb α) := ⟨⟨0, []⟩⟩

/-- One way after another: the levels it goes up take back what the first went down. -/
instance : Mul (Climb α) where
  mul a b := ⟨a.ups + (b.ups - a.names.length), a.names.rdrop b.ups ++ b.names⟩

@[simp] theorem ups_one : (1 : Climb α).ups = 0 := rfl

@[simp] theorem names_one : (1 : Climb α).names = [] := rfl

@[simp] theorem ups_mul (a b : Climb α) : (a * b).ups = a.ups + (b.ups - a.names.length) := rfl

@[simp] theorem names_mul (a b : Climb α) : (a * b).names = a.names.rdrop b.ups ++ b.names := rfl

theorem ext {a b : Climb α} (hups : a.ups = b.ups) (hnames : a.names = b.names) : a = b := by
  cases a
  cases b
  exact congrArg₂ Climb.mk hups hnames

theorem length_rdrop (xs : List α) (n : ℕ) : (xs.rdrop n).length = xs.length - n := by
  rw [List.rdrop, List.length_take]
  omega

theorem rdrop_append (xs ys : List α) (n : ℕ) :
    (xs ++ ys).rdrop n = xs.rdrop (n - ys.length) ++ ys.rdrop n := by
  simp only [List.rdrop_eq_reverse_drop_reverse, List.reverse_append, List.drop_append,
    List.length_reverse]

instance : Monoid (Climb α) where
  one_mul a := by
    apply ext
    · rw [ups_mul, ups_one, names_one, List.length_nil]
      omega
    · rw [names_mul, names_one, List.rdrop_nil, List.nil_append]
  mul_one a := by
    apply ext
    · rw [ups_mul, ups_one, Nat.zero_sub, Nat.add_zero]
    · rw [names_mul, ups_one, names_one, List.rdrop_zero, List.append_nil]
  mul_assoc a b c := by
    apply ext
    · simp only [ups_mul, names_mul, List.length_append, length_rdrop]
      omega
    · simp only [ups_mul, names_mul, rdrop_append, List.rdrop_add, List.append_assoc]

section Walk

variable (fate : α → Fate)

/-- The way one segment of a path is. -/
def step (x : α) : Climb α :=
  match fate x with
  | .skip => 1
  | .pop => ⟨1, []⟩
  | .keep => ⟨0, [x]⟩

/-- The way a path is. -/
def walk (path : List α) : Climb α := (path.map (step fate)).prod

/-- The path that goes a way; from the root nothing goes up. -/
def spell (up : α) (rooted : Bool) (c : Climb α) : List α :=
  (if rooted then [] else List.replicate c.ups up) ++ c.names

/-- A segment put behind a path that is already short: what goes up takes the last name back, and
where there is none it stays, if not at the root. -/
def push (up : α) (rooted : Bool) (kept : List α) (x : α) : List α :=
  match fate x with
  | .skip => kept
  | .keep => kept ++ [x]
  | .pop =>
    match kept.getLast? with
    | some last => if fate last = .pop then stay kept else kept.dropLast
    | none => stay kept
where
  stay (kept : List α) : List α := if rooted then kept else kept ++ [up]

end Walk

variable {fate : α → Fate} {up : α} {rooted : Bool} {path : List α} {c : Climb α}

theorem walk_append (path rest : List α) :
    walk fate (path ++ rest) = walk fate path * walk fate rest := by
  rw [walk, List.map_append, List.prod_append]
  rfl

theorem walk_singleton (x : α) : walk fate [x] = step fate x := by
  rw [walk, List.map_singleton, List.prod_singleton]

theorem walk_skip {x : α} (h : fate x = .skip) : walk fate [x] = 1 := by
  rw [walk_singleton, step, h]

theorem mem_walk {x : α} (h : x ∈ (walk fate path).names) : x ∈ path ∧ fate x = .keep := by
  induction path using List.reverseRecOn with
  | nil => cases h
  | append_singleton path y ih =>
    rw [walk_append, names_mul, List.mem_append, walk_singleton, step] at h
    rcases h with h | h
    · have hkept := ih (List.mem_of_mem_take h)
      exact ⟨List.mem_append_left _ hkept.1, hkept.2⟩
    · split at h
      next => cases h
      next => cases h
      next hy =>
        obtain rfl := List.mem_singleton.mp h
        exact ⟨List.mem_append_right _ h, hy⟩

theorem walk_names {names : List α} (h : ∀ x ∈ names, fate x = .keep) :
    walk fate names = ⟨0, names⟩ := by
  induction names using List.reverseRecOn with
  | nil => rfl
  | append_singleton names x ih =>
    have hx : fate x = .keep := h x (List.mem_append_right _ List.mem_cons_self)
    rw [walk_append, ih fun y hy => h y (List.mem_append_left _ hy), walk_singleton, step, hx]
    apply ext
    · exact (Nat.zero_add _).trans (Nat.zero_sub _)
    · exact congrArg (· ++ [x]) (List.rdrop_zero names)

theorem walk_replicate (hup : fate up = .pop) (n : ℕ) :
    walk fate (List.replicate n up) = ⟨n, []⟩ := by
  induction n with
  | zero => rfl
  | succ n ih =>
    rw [List.replicate_succ', walk_append, ih, walk_singleton, step, hup]
    rfl

/-- The path that goes a way goes it; from the root it goes down the names alone. -/
theorem walk_spell (hup : fate up = .pop) (h : ∀ x ∈ c.names, fate x = .keep) :
    walk fate (spell up rooted c) = ⟨if rooted then 0 else c.ups, c.names⟩ := by
  have hdown : (⟨c.ups, []⟩ : Climb α) * ⟨0, c.names⟩ = ⟨c.ups, c.names⟩ := ext rfl rfl
  rw [spell, walk_append, walk_names h]
  cases rooted with
  | true => exact ext rfl rfl
  | false =>
    rw [if_neg Bool.false_ne_true, walk_replicate hup, hdown]
    rfl

theorem spell_up (hup : fate up = .pop) (h : ∀ x ∈ c.names, fate x = .keep) {x : α}
    (hx : fate x = .pop) :
    push fate up rooted (spell up rooted c) x = spell up rooted (c * ⟨1, []⟩) := by
  rw [push, hx]
  dsimp only
  rcases List.eq_nil_or_concat c.names with hnil | ⟨names, top, hconcat⟩
  · have hstay : push.stay up rooted (spell up rooted c) = spell up rooted (c * ⟨1, []⟩) := by
      rw [push.stay, spell, spell, ups_mul, names_mul, hnil]
      cases rooted with
      | true => rfl
      | false =>
        rw [List.rdrop_nil, List.append_nil, List.append_nil, List.append_nil]
        exact List.replicate_succ'.symm
    split
    next last hlast =>
      have hpop : fate last = .pop := by
        rw [spell, hnil, List.append_nil] at hlast
        have hmem := List.mem_of_getLast? hlast
        split at hmem
        · cases hmem
        · rwa [List.eq_of_mem_replicate hmem]
      rw [if_pos hpop, hstay]
    next => exact hstay
  · rw [List.concat_eq_append] at hconcat
    have hkeep : fate top = .keep := h top (by rw [hconcat]; exact List.mem_append_right _ (by simp))
    rw [spell, spell, names_mul, ups_mul, hconcat, ← List.append_assoc, List.getLast?_concat,
      List.rdrop_concat_succ, List.rdrop_zero, List.append_nil, List.length_append]
    dsimp only
    rw [if_neg (by rw [hkeep]; nofun), List.dropLast_concat, List.length_singleton,
      Nat.sub_eq_zero_of_le (Nat.le_add_left _ _), Nat.add_zero]

theorem foldl_push (hup : fate up = .pop) (path : List α) :
    path.foldl (push fate up rooted) [] = spell up rooted (walk fate path) := by
  induction path using List.reverseRecOn with
  | nil => cases rooted <;> rfl
  | append_singleton path x ih =>
    have hnames : ∀ y ∈ (walk fate path).names, fate y = .keep := fun y hy => (mem_walk hy).2
    rw [List.foldl_append, ih, walk_append, walk_singleton, List.foldl_cons, List.foldl_nil]
    cases hx : fate x with
    | skip =>
      rw [push, hx, step, hx]
      exact congrArg (spell up rooted) (mul_one _).symm
    | pop =>
      rw [spell_up hup hnames hx, step, hx]
    | keep =>
      rw [push, hx, step, hx]
      dsimp only
      rw [spell, spell, ups_mul, names_mul, List.rdrop_zero, List.append_assoc, Nat.zero_sub,
        Nat.add_zero]

/-- A path goes up as far as it takes off more than it has put on. -/
theorem digs_iff {depth : ℕ} : Pile.digs fate depth path = true ↔ depth < (walk fate path).ups := by
  induction path generalizing depth with
  | nil => exact iff_of_false Bool.false_ne_true (Nat.not_lt_zero depth)
  | cons x path ih =>
    have hwalk : walk fate (x :: path) = step fate x * walk fate path := by
      rw [walk, List.map_cons, List.prod_cons, walk]
    rw [Pile.digs, hwalk, ups_mul, step]
    cases hx : fate x with
    | skip =>
      refine ih.trans ?_
      simp
    | pop =>
      dsimp only
      rw [Bool.or_eq_true, ih, decide_eq_true_iff, List.length_nil]
      omega
    | keep =>
      dsimp only
      rw [ih, List.length_singleton]
      omega

end Climb

end Tracefold.Library
