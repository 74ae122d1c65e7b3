import Mathlib.Data.List.Forall2
import Mathlib.Logic.Function.Basic
import Mathlib.Order.Nat
import Mathlib.Tactic.Common
import Mathlib.Algebra.Ring.Nat

/-! Merkle trees that halve at a power of two: the root of a list of leaves, and the walks that
lead to it from one leaf, or from the right edge of an older tree. -/

namespace Tracefold.Library.Merkle

set_option autoImplicit true

/-- The largest power of two below `n`, for `n ≥ 2`. -/
def split (n : ℕ) : ℕ := 2 ^ Nat.log2 (n - 1)

theorem split_eq {p : ℕ} (h : 2 ^ p < n) (h' : n ≤ 2 ^ (p + 1)) : split n = 2 ^ p := by
  have hpos := Nat.two_pow_pos p
  have hlog : Nat.log2 (n - 1) = p := by
    rw [Nat.log2_eq_iff (by omega)]
    exact ⟨by omega, by omega⟩
  rw [split, hlog]

theorem exists_split (h : 2 ≤ n) : ∃ p, split n = 2 ^ p ∧ 2 ^ p < n ∧ n ≤ 2 ^ (p + 1) := by
  obtain ⟨hle, hlt⟩ := (Nat.log2_eq_iff (k := Nat.log2 (n - 1)) (by omega)).mp rfl
  exact ⟨Nat.log2 (n - 1), rfl, by omega, by omega⟩

section Root

variable {H : Type} (node : H → H → H)

/-- The root of a list of leaves. -/
inductive IsRoot : List H → H → Prop where
  | leaf (x : H) : IsRoot [x] x
  | node {a b : List H} {x y : H} (hsplit : split (a.length + b.length) = a.length)
      (ha : IsRoot a x) (hb : IsRoot b y) : IsRoot (a ++ b) (node x y)

variable {node} {D a b : List H} {r r' x y : H}

theorem IsRoot.length_pos (h : IsRoot node D r) : 0 < D.length := by
  induction h with
  | leaf => exact Nat.one_pos
  | node _ _ _ ha _ =>
    rw [List.length_append]
    omega

theorem IsRoot.halves (h : IsRoot node (a ++ b) r) (hsplit : split (a.length + b.length) = a.length)
    (hb : 0 < b.length) : ∃ x y, IsRoot node a x ∧ IsRoot node b y ∧ r = node x y := by
  have ha : 0 < a.length := by
    rw [← hsplit]
    exact Nat.two_pow_pos _
  generalize hD : a ++ b = D at h
  cases h with
  | leaf x =>
    have hlength := congrArg List.length hD
    rw [List.length_append, List.length_singleton] at hlength
    omega
  | @node a' b' x y hsplit' hx hy =>
    have hlength := congrArg List.length hD
    rw [List.length_append, List.length_append] at hlength
    obtain ⟨rfl, rfl⟩ := List.append_inj hD (by rw [← hsplit, ← hsplit', hlength])
    exact ⟨x, y, hx, hy, rfl⟩

theorem IsRoot.unique (h : IsRoot node D r) (h' : IsRoot node D r') : r = r' := by
  induction h generalizing r' with
  | leaf x =>
    generalize hD : [x] = D at h'
    cases h' with
    | leaf y => exact (List.cons.inj hD).1
    | node _ ha hb =>
      have hlength := congrArg List.length hD
      rw [List.length_append, List.length_singleton] at hlength
      have hapos := ha.length_pos
      have hbpos := hb.length_pos
      omega
  | node hsplit _ hb iha ihb =>
    obtain ⟨x', y', hx', hy', rfl⟩ := h'.halves hsplit hb.length_pos
    rw [iha hx', ihb hy']

/-- Two lists of one length and one root are the same. -/
theorem IsRoot.inj (hnode : Function.Injective2 node) (h : IsRoot node D r)
    (h' : IsRoot node D' r) (hlength : D.length = D'.length) : D = D' := by
  induction h generalizing D' with
  | leaf x =>
    cases h' with
    | leaf y => rfl
    | node _ ha hb =>
      rw [List.length_append, List.length_singleton] at hlength
      have hapos := ha.length_pos
      have hbpos := hb.length_pos
      omega
  | @node a b x y hsplit ha hb iha ihb =>
    rw [List.length_append] at hlength
    have hbpos := hb.length_pos
    have hapos := ha.length_pos
    have hD' : D' = D'.take a.length ++ D'.drop a.length := (List.take_append_drop _ _).symm
    have htake : (D'.take a.length).length = a.length := by
      rw [List.length_take]
      omega
    have hdrop : (D'.drop a.length).length = b.length := by
      rw [List.length_drop]
      omega
    rw [hD'] at h'
    obtain ⟨x', y', hx', hy', heq⟩ := h'.halves (by rw [htake, hdrop, hsplit]) (by omega)
    obtain ⟨rfl, rfl⟩ := hnode heq
    have hleft : a = D'.take a.length := iha hx' htake.symm
    have hright : b = D'.drop a.length := ihb hy' hdrop.symm
    calc a ++ b = D'.take a.length ++ D'.drop a.length := congrArg₂ _ hleft hright
      _ = D' := hD'.symm

theorem split_mul {q : ℕ} (h : 2 ≤ n) : split (n * 2 ^ q) = split n * 2 ^ q := by
  obtain ⟨p, hp, hlt, hle⟩ := exists_split h
  rw [hp, ← Nat.pow_add]
  apply split_eq
  · rw [Nat.pow_add]
    exact Nat.mul_lt_mul_of_pos_right hlt (Nat.two_pow_pos q)
  · rw [show p + q + 1 = p + 1 + q by omega, Nat.pow_add]
    exact Nat.mul_le_mul_right _ hle

/-- The roots of pieces of one size, which is a power of two, have the root of the whole. -/
theorem IsRoot.flatten {q : ℕ} {pieces : List (List H)} (hsize : ∀ piece ∈ pieces, piece.length = 2 ^ q)
    (hpieces : List.Forall₂ (IsRoot node) pieces D) (h : IsRoot node D r) :
    IsRoot node pieces.flatten r := by
  induction h generalizing pieces with
  | leaf x =>
    cases hpieces with
    | cons hx hnil =>
      cases hnil
      simpa using hx
  | @node a b x y hsplit ha hb iha ihb =>
    obtain ⟨before, after, hbefore, hafter, rfl⟩ :
        ∃ before after, List.Forall₂ (IsRoot node) before a ∧ List.Forall₂ (IsRoot node) after b ∧
          pieces = before ++ after := by
      refine ⟨pieces.take a.length, pieces.drop a.length, ?_, ?_, (List.take_append_drop _ _).symm⟩
      · exact List.forall₂_take_append pieces a b hpieces
      · exact List.forall₂_drop_append pieces a b hpieces
    have hlength : ∀ {some : List (List H)} {roots : List H},
        List.Forall₂ (IsRoot node) some roots → (∀ piece ∈ some, piece.length = 2 ^ q) →
          some.flatten.length = roots.length * 2 ^ q := by
      intro some roots hsome hall
      rw [← hsome.length_eq, List.length_flatten, List.map_congr_left hall, List.map_const',
        List.sum_replicate_nat]
    have hbefore' : ∀ piece ∈ before, piece.length = 2 ^ q := fun piece hpiece =>
      hsize piece (List.mem_append_left _ hpiece)
    have hafter' : ∀ piece ∈ after, piece.length = 2 ^ q := fun piece hpiece =>
      hsize piece (List.mem_append_right _ hpiece)
    rw [List.flatten_append]
    refine .node ?_ (iha hbefore' hbefore) (ihb hafter' hafter)
    have hapos := ha.length_pos
    have hbpos := hb.length_pos
    rw [hlength hbefore hbefore', hlength hafter hafter', ← Nat.add_mul, split_mul (by omega),
      hsplit]

end Root

/-- The side of a node its sibling stands on. -/
inductive Side where
  | left
  | right
  deriving DecidableEq

/-- The siblings a walk meets from node `index` of a level whose last node is `last`: one on the
left of an odd node, one on the right of an even one, and none at the edge. -/
def sides (index last : ℕ) : List Side :=
  if last = 0 then []
  else if index % 2 = 1 then .left :: sides (index / 2) (last / 2)
  else if index = last then sides (index / 2) (last / 2)
  else .right :: sides (index / 2) (last / 2)
termination_by last

theorem sides_zero (index : ℕ) : sides index 0 = [] := by
  rw [sides, if_pos rfl]

theorem sides_odd {index last : ℕ} (hlast : last ≠ 0) (h : index % 2 = 1) :
    sides index last = .left :: sides (index / 2) (last / 2) := by
  rw [sides, if_neg hlast, if_pos h]

theorem sides_edge {last : ℕ} (hlast : last ≠ 0) (h : last % 2 = 0) :
    sides last last = sides (last / 2) (last / 2) := by
  rw [sides, if_neg hlast, if_neg (by omega), if_pos rfl]

theorem sides_even {index last : ℕ} (hlt : index < last) (h : index % 2 = 0) :
    sides index last = .right :: sides (index / 2) (last / 2) := by
  rw [sides, if_neg (by omega), if_neg (by omega), if_neg (by omega)]

theorem sides_left {p index last : ℕ} (hindex : index < 2 ^ p) (hlast : 2 ^ p ≤ last)
    (hlast' : last < 2 ^ (p + 1)) :
    sides index last = sides index (2 ^ p - 1) ++ [.right] := by
  induction p generalizing index last with
  | zero =>
    obtain rfl : index = 0 := by omega
    obtain rfl : last = 1 := by omega
    rw [sides_even (by omega) rfl]
    simp [sides_zero]
  | succ p ih =>
    rw [Nat.pow_succ] at hindex hlast hlast'
    have hpos := Nat.two_pow_pos p
    have hhalf : (2 ^ (p + 1) - 1) / 2 = 2 ^ p - 1 := by omega
    have hrest : sides (index / 2) (last / 2) = sides (index / 2) (2 ^ p - 1) ++ [.right] :=
      ih (by omega) (by omega) (by omega)
    rcases Nat.mod_two_eq_zero_or_one index with heven | hodd
    · have hlt : index < 2 ^ (p + 1) - 1 := by omega
      rw [sides_even (by omega) heven, sides_even hlt heven, hhalf, hrest, List.cons_append]
    · rw [sides_odd (by omega) hodd, sides_odd (by omega) hodd, hhalf, hrest, List.cons_append]

theorem sides_right {p index last : ℕ} (hindex : 2 ^ p ≤ index) (hle : index ≤ last)
    (hlast : last < 2 ^ (p + 1)) :
    sides index last = sides (index - 2 ^ p) (last - 2 ^ p) ++ [.left] := by
  induction p generalizing index last with
  | zero =>
    obtain rfl : index = 1 := by omega
    obtain rfl : last = 1 := by omega
    rw [sides_odd (by omega) rfl]
    simp [sides_zero]
  | succ p ih =>
    rw [Nat.pow_succ] at hindex hlast
    have hpos := Nat.two_pow_pos p
    have hhalf : (index - 2 ^ (p + 1)) / 2 = index / 2 - 2 ^ p := by omega
    have hhalf' : (last - 2 ^ (p + 1)) / 2 = last / 2 - 2 ^ p := by omega
    have hrest : sides (index / 2) (last / 2) =
        sides (index / 2 - 2 ^ p) (last / 2 - 2 ^ p) ++ [.left] :=
      ih (by omega) (by omega) (by omega)
    rcases Nat.mod_two_eq_zero_or_one index with heven | hodd
    · rcases Nat.lt_or_eq_of_le hle with hlt | rfl
      · have hpart := @sides_even (index - 2 ^ (p + 1)) (last - 2 ^ (p + 1)) (by omega) (by omega)
        rw [sides_even hlt heven, hpart, hhalf, hhalf', hrest, List.cons_append]
      · rw [sides_edge (by omega) heven, hrest]
        rcases Nat.eq_zero_or_pos (index - 2 ^ (p + 1)) with hzero | hne
        · rw [hzero, show index / 2 - 2 ^ p = 0 by omega]
        · have hpart := @sides_edge (index - 2 ^ (p + 1)) (by omega) (by omega)
          rw [hpart, hhalf]
    · have hpart := @sides_odd (index - 2 ^ (p + 1)) (last - 2 ^ (p + 1)) (by omega) (by omega)
      rw [sides_odd (by omega) hodd, hpart, hhalf, hhalf', hrest, List.cons_append]

section Climb

variable (f : Side → H → β → β)

/-- A walk that takes one sibling for each side, and stops when there are too many or too few. -/
def climb : List Side → List H → β → Option β
  | [], [], reached => some reached
  | side :: sides, sibling :: path, reached => climb sides path (f side sibling reached)
  | _, _, _ => none

variable {f}

theorem climb_nil {path : List H} {reached top : β} :
    climb f [] path reached = some top ↔ path = [] ∧ reached = top := by
  cases path with
  | nil => simp [climb]
  | cons => simp [climb]

theorem climb_concat {sides : List Side} {side : Side} {path : List H} {reached top : β} :
    climb f (sides ++ [side]) path reached = some top ↔
      ∃ path' sibling below, path = path' ++ [sibling] ∧ climb f sides path' reached = some below ∧
        top = f side sibling below := by
  induction sides generalizing path reached with
  | nil =>
    cases path with
    | nil => simp [climb]
    | cons sibling path =>
      rw [List.nil_append, climb, climb_nil]
      constructor
      · rintro ⟨rfl, rfl⟩
        exact ⟨[], sibling, reached, rfl, rfl, rfl⟩
      · rintro ⟨path', sibling', below, hpath, hbelow, rfl⟩
        obtain ⟨rfl, rfl⟩ := climb_nil.mp hbelow
        obtain ⟨rfl, rfl⟩ := List.cons.inj hpath
        exact ⟨rfl, rfl⟩
  | cons first sides ih =>
    cases path with
    | nil => simp [climb]
    | cons sibling path =>
      rw [List.cons_append, climb, ih]
      constructor
      · rintro ⟨path', last, below, rfl, hbelow, rfl⟩
        exact ⟨sibling :: path', last, below, rfl, hbelow, rfl⟩
      · rintro ⟨path', last, below, hpath, hbelow, rfl⟩
        cases path' with
        | nil => simp [climb] at hbelow
        | cons first' path' =>
          obtain ⟨rfl, rfl⟩ := List.cons.inj hpath
          exact ⟨path', last, below, rfl, hbelow, rfl⟩

theorem climb_length {sides : List Side} {path : List H} {reached top : β}
    (h : climb f sides path reached = some top) : path.length = sides.length := by
  induction sides generalizing path reached with
  | nil =>
    rw [(climb_nil.mp h).1]
    rfl
  | cons side sides ih =>
    cases path with
    | nil => cases h
    | cons sibling path =>
      rw [List.length_cons, List.length_cons, ih h]

end Climb

section Inclusion

variable {H : Type} (node : H → H → H)

/-- A node over what a walk has reached and the sibling it meets. -/
def Side.join : Side → H → H → H
  | .left, sibling, reached => node sibling reached
  | .right, sibling, reached => node reached sibling

/-- The siblings of the walk from leaf `index`, the nearest first. -/
inductive IsPath : List H → ℕ → List H → Prop where
  | leaf (x : H) : IsPath [x] 0 []
  | left {a b path : List H} {index : ℕ} {y : H}
      (hsplit : split (a.length + b.length) = a.length) (ha : IsPath a index path)
      (hb : IsRoot node b y) : IsPath (a ++ b) index (path ++ [y])
  | right {a b path : List H} {index : ℕ} {x : H}
      (hsplit : split (a.length + b.length) = a.length) (ha : IsRoot node a x)
      (hb : IsPath b index path) : IsPath (a ++ b) (a.length + index) (path ++ [x])

variable {node} {D : List H} {r hash : H} {path : List H} {index : ℕ}

theorem IsPath.lt_length (h : IsPath node D index path) : index < D.length := by
  induction h with
  | leaf => exact Nat.one_pos
  | left _ _ _ ih =>
    rw [List.length_append]
    omega
  | right _ _ _ ih =>
    rw [List.length_append]
    omega

theorem sides_halves {a b : List H} (hsplit : split (a.length + b.length) = a.length)
    (hb : 0 < b.length) :
    (∀ index, index < a.length → sides index ((a ++ b).length - 1) =
        sides index (a.length - 1) ++ [.right]) ∧
      ∀ index, index < b.length → sides (a.length + index) ((a ++ b).length - 1) =
        sides index (b.length - 1) ++ [.left] := by
  have ha : 0 < a.length := by
    rw [← hsplit]
    exact Nat.two_pow_pos _
  obtain ⟨p, hp, hlt, hle⟩ := exists_split (show 2 ≤ a.length + b.length by omega)
  rw [hsplit] at hp
  rw [List.length_append]
  constructor
  · intro index hindex
    rw [hp] at hindex ⊢
    exact sides_left hindex (by omega) (by omega)
  · intro index hindex
    have hright := @sides_right p (a.length + index) (a.length + b.length - 1) (by omega) (by omega)
      (by omega)
    rw [hright, show a.length + index - 2 ^ p = index by omega,
      show a.length + b.length - 1 - 2 ^ p = b.length - 1 by omega]

/-- A walk to the root of a tree, whatever siblings it was given, began at the leaf. -/
theorem climb_sound (hnode : Function.Injective2 node) (hroot : IsRoot node D r)
    (hindex : index < D.length)
    (h : climb (Side.join node) (sides index (D.length - 1)) path hash = some r) :
    D[index]? = some hash := by
  induction hroot generalizing index path with
  | leaf x =>
    obtain rfl : index = 0 := by
      rw [List.length_singleton] at hindex
      omega
    rw [List.length_singleton, sides_zero, climb_nil] at h
    rw [h.2]
    rfl
  | @node a b x y hsplit ha hb iha ihb =>
    obtain ⟨hleft, hright⟩ := sides_halves hsplit hb.length_pos
    rw [List.length_append] at hindex
    by_cases hside : index < a.length
    · rw [hleft index hside, climb_concat] at h
      obtain ⟨path', sibling, below, rfl, hbelow, heq⟩ := h
      obtain ⟨rfl, rfl⟩ := hnode heq
      rw [List.getElem?_append_left hside]
      exact iha hside hbelow
    · obtain ⟨offset, rfl⟩ := Nat.exists_eq_add_of_le (Nat.le_of_not_lt hside)
      rw [hright offset (by omega), climb_concat] at h
      obtain ⟨path', sibling, below, rfl, hbelow, heq⟩ := h
      obtain ⟨rfl, rfl⟩ := hnode heq
      rw [List.getElem?_append_right (by omega), Nat.add_sub_cancel_left]
      exact ihb (by omega) hbelow

theorem climb_injective (hnode : Function.Injective2 node) {sides : List Side} {path' : List H}
    {hash' : H} (h : climb (Side.join node) sides path hash = some r)
    (h' : climb (Side.join node) sides path' hash' = some r) : path = path' ∧ hash = hash' := by
  induction sides generalizing path path' hash hash' with
  | nil =>
    obtain ⟨rfl, rfl⟩ := climb_nil.mp h
    obtain ⟨rfl, rfl⟩ := climb_nil.mp h'
    exact ⟨rfl, rfl⟩
  | cons side sides ih =>
    cases path with
    | nil => cases h
    | cons sibling path =>
      cases path' with
      | nil => cases h'
      | cons sibling' path' =>
        obtain ⟨rfl, hjoin⟩ := ih h h'
        cases side with
        | left =>
          obtain ⟨rfl, rfl⟩ := hnode hjoin
          exact ⟨rfl, rfl⟩
        | right =>
          obtain ⟨rfl, rfl⟩ := hnode hjoin
          exact ⟨rfl, rfl⟩

theorem IsPath.climb (h : IsPath node D index path) (hroot : IsRoot node D r)
    (hhash : D[index]? = some hash) :
    climb (Side.join node) (sides index (D.length - 1)) path hash = some r := by
  induction h generalizing r with
  | leaf x =>
    obtain rfl : x = hash := Option.some.inj hhash
    obtain rfl : x = r := (IsRoot.leaf x).unique hroot
    rw [List.length_singleton, sides_zero, climb_nil]
    exact ⟨rfl, rfl⟩
  | @left a b path index y hsplit ha hb ih =>
    obtain ⟨x, y', hx, hy, rfl⟩ := hroot.halves hsplit hb.length_pos
    obtain rfl := hb.unique hy
    rw [(sides_halves hsplit hb.length_pos).1 index ha.lt_length, climb_concat]
    rw [List.getElem?_append_left ha.lt_length] at hhash
    exact ⟨path, y, x, rfl, ih hx hhash, rfl⟩
  | @right a b path index x hsplit ha hb ih =>
    have hbpos : 0 < b.length := Nat.lt_of_le_of_lt (Nat.zero_le _) hb.lt_length
    obtain ⟨x', y, hx, hy, rfl⟩ := hroot.halves hsplit hbpos
    obtain rfl := ha.unique hx
    rw [(sides_halves hsplit hbpos).2 index hb.lt_length, climb_concat]
    rw [List.getElem?_append_right (Nat.le_add_right _ _), Nat.add_sub_cancel_left] at hhash
    exact ⟨path, x, y, rfl, ih hy hhash, rfl⟩

end Inclusion

/-- The node an older tree's right edge is complete at: the odd ones are climbed over. -/
def strip (index last : ℕ) : ℕ × ℕ :=
  if index % 2 = 1 then strip (index / 2) (last / 2) else (index, last)
termination_by index

theorem strip_odd {index last : ℕ} (h : index % 2 = 1) :
    strip index last = strip (index / 2) (last / 2) := by
  rw [strip, if_pos h]

theorem strip_even {index last : ℕ} (h : index % 2 = 0) : strip index last = (index, last) := by
  rw [strip, if_neg (by omega)]

/-- The siblings a walk meets from the right edge of the tree of `m` leaves to the root of the one
of `n`. -/
def edge (m n : ℕ) : List Side := sides (strip (m - 1) (n - 1)).1 (strip (m - 1) (n - 1)).2

theorem strip_fst (index last last' : ℕ) : (strip index last).1 = (strip index last').1 := by
  induction index using Nat.strongRecOn generalizing last last' with
  | ind index ih =>
    rcases Nat.mod_two_eq_zero_or_one index with heven | hodd
    · rw [strip_even heven, strip_even heven]
    · rw [strip_odd hodd, strip_odd hodd]
      exact ih (index / 2) (by omega) _ _

theorem strip_full (p last : ℕ) : (strip (2 ^ p - 1) last).1 = 0 := by
  induction p generalizing last with
  | zero => simp [strip_even]
  | succ p ih =>
    have hpos := Nat.two_pow_pos p
    rw [strip_odd (by omega), show (2 ^ (p + 1) - 1) / 2 = 2 ^ p - 1 by omega]
    exact ih _

theorem strip_le (index last : ℕ) (h : index ≤ last) :
    (strip index last).1 ≤ (strip index last).2 := by
  induction index using Nat.strongRecOn generalizing last with
  | ind index ih =>
    rcases Nat.mod_two_eq_zero_or_one index with heven | hodd
    · rw [strip_even heven]
      exact h
    · rw [strip_odd hodd]
      exact ih (index / 2) (by omega) _ (by omega)

theorem strip_left {p index last : ℕ} (hindex : index < 2 ^ p) (hlast : 2 ^ p ≤ last)
    (hlast' : last < 2 ^ (p + 1)) :
    sides (strip index last).1 (strip index last).2 =
      sides (strip index (2 ^ p - 1)).1 (strip index (2 ^ p - 1)).2 ++ [.right] := by
  induction p generalizing index last with
  | zero =>
    rw [strip_even (by omega), strip_even (by omega)]
    exact sides_left hindex hlast hlast'
  | succ p ih =>
    rcases Nat.mod_two_eq_zero_or_one index with heven | hodd
    · rw [strip_even heven, strip_even heven]
      exact sides_left hindex hlast hlast'
    · have hpos := Nat.two_pow_pos p
      rw [strip_odd hodd, strip_odd hodd, show (2 ^ (p + 1) - 1) / 2 = 2 ^ p - 1 by omega]
      exact ih (by omega) (by omega) (by omega)

theorem strip_right {p index last : ℕ} (hindex : 2 ^ p ≤ index) (hlt : index < last)
    (hlast : last < 2 ^ (p + 1)) :
    (strip index last).1 ≠ 0 ∧
      sides (strip index last).1 (strip index last).2 =
        sides (strip (index - 2 ^ p) (last - 2 ^ p)).1
          (strip (index - 2 ^ p) (last - 2 ^ p)).2 ++ [.left] := by
  induction p generalizing index last with
  | zero => omega
  | succ p ih =>
    have hpos := Nat.two_pow_pos p
    rcases Nat.mod_two_eq_zero_or_one index with heven | hodd
    · rw [strip_even heven, @strip_even (index - 2 ^ (p + 1)) _ (by omega)]
      exact ⟨by omega, sides_right hindex hlt.le hlast⟩
    · rw [strip_odd hodd, @strip_odd (index - 2 ^ (p + 1)) _ (by omega),
        show (index - 2 ^ (p + 1)) / 2 = index / 2 - 2 ^ p by omega,
        show (last - 2 ^ (p + 1)) / 2 = last / 2 - 2 ^ p by omega]
      exact ih (by omega) (by omega) (by omega)

theorem edge_full (p : ℕ) : edge (2 ^ p) (2 ^ p) = [] := by
  rw [edge]
  induction p with
  | zero =>
    rw [strip_even rfl]
    exact sides_zero _
  | succ p ih =>
    have hpos := Nat.two_pow_pos p
    rw [strip_odd (by omega), show (2 ^ (p + 1) - 1) / 2 = 2 ^ p - 1 by omega]
    exact ih

section Consistency

variable {H : Type} (node : H → H → H)

/-- The older and the newer tree over what a walk has reached: a sibling on the left is one of both
trees, and one on the right of the newer tree alone. -/
def Side.grow : Side → H → H × H → H × H
  | .left, sibling, reached => (node sibling reached.1, node sibling reached.2)
  | .right, sibling, reached => (reached.1, node reached.2 sibling)

/-- The nodes of a proof that a tree has grown from its first `m` leaves. With the flag, the root
of these is known to whoever reads it. -/
inductive IsGrowth : Bool → List H → ℕ → List H → Prop where
  | known (D : List H) : IsGrowth true D D.length []
  | named {D : List H} {r : H} (h : IsRoot node D r) : IsGrowth false D D.length [r]
  | left {flag : Bool} {a b path : List H} {m : ℕ} {y : H}
      (hsplit : split (a.length + b.length) = a.length) (hm : m ≤ a.length)
      (ha : IsGrowth flag a m path) (hb : IsRoot node b y) :
      IsGrowth flag (a ++ b) m (path ++ [y])
  | right {flag : Bool} {a b path : List H} {m : ℕ} {x : H}
      (hsplit : split (a.length + b.length) = a.length) (hm : 0 < m) (hm' : m < b.length)
      (ha : IsRoot node a x) (hb : IsGrowth false b m path) :
      IsGrowth flag (a ++ b) (a.length + m) (path ++ [x])

variable {node} {D : List H} {r : H} {path : List H} {m : ℕ}

theorem edge_halves {a b : List H} (hsplit : split (a.length + b.length) = a.length)
    (hb : 0 < b.length) :
    (∃ p, a.length = 2 ^ p) ∧
      (∀ m, 0 < m → m ≤ a.length → edge m (a ++ b).length = edge m a.length ++ [.right]) ∧
      ∀ m, 0 < m → m < b.length →
        (∀ last, (strip (a.length + m - 1) last).1 ≠ 0) ∧
        edge (a.length + m) (a ++ b).length = edge m b.length ++ [.left] ∧
        split (a.length + m) = a.length := by
  have ha : 0 < a.length := by
    rw [← hsplit]
    exact Nat.two_pow_pos _
  obtain ⟨p, hp, hlt, hle⟩ := exists_split (show 2 ≤ a.length + b.length by omega)
  rw [hsplit] at hp
  rw [List.length_append]
  refine ⟨⟨p, hp⟩, ?_, ?_⟩
  · intro m hpos hm
    rw [edge, edge, hp]
    exact strip_left (by omega) (by omega) (by omega)
  · intro m hpos hm
    obtain ⟨hne, heq⟩ := @strip_right p (a.length + m - 1) (a.length + b.length - 1) (by omega)
      (by omega) (by omega)
    refine ⟨?_, ?_, ?_⟩
    · intro last
      rwa [strip_fst _ last (a.length + b.length - 1)]
    · rw [edge, heq, edge, show a.length + m - 1 - 2 ^ p = m - 1 by omega,
        show a.length + b.length - 1 - 2 ^ p = b.length - 1 by omega]
    · rw [hp]
      exact split_eq (by omega) (by omega)

/-- A walk to the root of the newer tree, whatever siblings it was given, has the root of its first
leaves for the older one. -/
theorem older_of_newer (hnode : Function.Injective2 node) (hroot : IsRoot node D r)
    (hpos : 0 < m) (hm : m < D.length) {start older : H}
    (h : climb (Side.grow node) (edge m D.length) path (start, start) = some (older, r)) :
    IsRoot node (D.take m) older := by
  induction hroot generalizing m path older with
  | leaf x =>
    rw [List.length_singleton] at hm
    omega
  | @node a b x y hsplit ha hb iha ihb =>
    obtain ⟨⟨p, hp⟩, hleft, hright⟩ := edge_halves hsplit hb.length_pos
    rw [List.length_append] at hm
    by_cases hside : m ≤ a.length
    · rw [hleft m hpos hside, climb_concat] at h
      obtain ⟨path', sibling, ⟨older', below⟩, rfl, hbelow, heq⟩ := h
      obtain ⟨rfl, heq⟩ := Prod.mk.inj heq
      obtain ⟨rfl, rfl⟩ := hnode heq
      rw [List.take_append_of_le_length hside]
      rcases Nat.lt_or_eq_of_le hside with hlt | rfl
      · exact iha hpos hlt hbelow
      · rw [hp, edge_full, climb_nil] at hbelow
        obtain ⟨_, heq⟩ := hbelow
        obtain ⟨rfl, rfl⟩ := Prod.mk.inj heq
        rwa [List.take_length]
    · obtain ⟨offset, rfl⟩ := Nat.exists_eq_add_of_le (Nat.le_of_not_le hside)
      obtain ⟨_, hedge, hsplit'⟩ := hright offset (by omega) (by omega)
      rw [hedge, climb_concat] at h
      obtain ⟨path', sibling, ⟨older', below⟩, rfl, hbelow, heq⟩ := h
      obtain ⟨hfst, hsnd⟩ := Prod.mk.inj heq
      obtain ⟨rfl, rfl⟩ := hnode hsnd
      rw [hfst]
      have holder := ihb (by omega) (by omega) hbelow
      rw [List.take_length_add_append]
      refine .node ?_ ha holder
      rw [List.length_take, Nat.min_eq_left (by omega), hsplit']

/-- The walk over the nodes of such a proof leads to both roots. -/
theorem IsGrowth.climb {flag : Bool} (h : IsGrowth node flag D m path) (hpos : 0 < m)
    (hfull : m = D.length → ∃ p, m = 2 ^ p) {older newer : H}
    (holder : IsRoot node (D.take m) older) (hnewer : IsRoot node D newer) :
    (flag = true ∧ (∀ last, (strip (m - 1) last).1 = 0) ∧
        climb (Side.grow node) (edge m D.length) path (older, older) = some (older, newer)) ∨
      ((flag = true → ∀ last, (strip (m - 1) last).1 ≠ 0) ∧ ∃ first rest, path = first :: rest ∧
        climb (Side.grow node) (edge m D.length) rest (first, first) = some (older, newer)) := by
  induction h generalizing older newer with
  | known D =>
    obtain ⟨p, hp⟩ := hfull rfl
    rw [List.take_length] at holder
    obtain rfl := holder.unique hnewer
    refine .inl ⟨rfl, ?_, ?_⟩
    · intro last
      rw [hp]
      exact strip_full p last
    · rw [hp, edge_full]
      rfl
  | @named D r hr =>
    obtain ⟨p, hp⟩ := hfull rfl
    rw [List.take_length] at holder
    obtain rfl := hr.unique hnewer
    obtain rfl := hr.unique holder
    refine .inr ⟨nofun, r, [], rfl, ?_⟩
    rw [hp, edge_full]
    rfl
  | @left flag a b path m y hsplit hm ha hb ih =>
    obtain ⟨⟨p, hp⟩, hleft, _⟩ := edge_halves hsplit hb.length_pos
    obtain ⟨x, y', hx, hy, rfl⟩ := hnewer.halves hsplit hb.length_pos
    obtain rfl := hb.unique hy
    rw [List.take_append_of_le_length hm] at holder
    rw [hleft m hpos hm]
    rcases ih hpos (fun heq => ⟨p, heq.trans hp⟩) holder hx with
      ⟨hflag, hzero, hclimb⟩ | ⟨hne, first, rest, rfl, hclimb⟩
    · exact .inl ⟨hflag, hzero, climb_concat.mpr ⟨path, y, (older, x), rfl, hclimb, rfl⟩⟩
    · exact .inr ⟨hne, first, rest ++ [y], rfl,
        climb_concat.mpr ⟨rest, y, (older, x), rfl, hclimb, rfl⟩⟩
  | @right flag a b path m x hsplit hm hm' ha hb ih =>
    have hbpos : 0 < b.length := Nat.lt_of_le_of_lt (Nat.zero_le _) hm'
    obtain ⟨_, _, hright⟩ := edge_halves hsplit hbpos
    obtain ⟨hne, hedge, hsplit'⟩ := hright m hm hm'
    obtain ⟨x', y, hx, hy, rfl⟩ := hnewer.halves hsplit hbpos
    obtain rfl := ha.unique hx
    rw [List.take_length_add_append] at holder
    have htake : (b.take m).length = m := by
      rw [List.length_take, Nat.min_eq_left hm'.le]
    obtain ⟨x', older', hx', holder', rfl⟩ := holder.halves (by rw [htake, hsplit']) (by omega)
    obtain rfl := ha.unique hx'
    rw [hedge]
    rcases ih hm (fun heq => absurd heq hm'.ne) holder' hy with
      ⟨hflag, _, _⟩ | ⟨_, first, rest, rfl, hclimb⟩
    · cases hflag
    · exact .inr ⟨fun _ => hne, first, rest ++ [x], rfl,
        climb_concat.mpr ⟨rest, x, (older', y), rfl, hclimb, rfl⟩⟩

end Consistency

end Tracefold.Library.Merkle
