import Mathlib.Data.List.Infix
import Mathlib.Tactic.Common

/-! Contents with separators between them, and when these are the only ones to be read there. -/

namespace Tracefold.Library

variable {α : Type*}

/-- Of the text `x sep y`, no part of `x sep` before its end and no part of `sep y` after its
beginning is the separator again. -/
structure Clear (sep x y : List α) : Prop where
  last : ∀ {front back}, x ++ sep = front ++ (sep ++ back) → back = []
  first : ∀ {front back}, sep ++ y = front ++ (sep ++ back) → front = []

theorem clear_singleton {sep : List α} {x : α} {y : List α} (hsep : sep ≠ []) (hx : sep.head? ≠ some x)
    (hlength : y.length ≤ 1) (hy : ∀ c ∈ y, sep.getLast? ≠ some c) : Clear sep [x] y where
  last {front back} h := by
    cases front with
    | nil =>
      have hhead := congrArg List.head? h
      rw [List.nil_append, List.head?_append_of_ne_nil _ hsep] at hhead
      exact absurd hhead.symm hx
    | cons c front =>
      have hlengths := congrArg List.length h
      simp only [List.length_append, List.length_cons, List.length_nil] at hlengths
      exact List.eq_nil_of_length_eq_zero (by omega)
  first {front back} h := by
    cases front with
    | nil => rfl
    | cons c front =>
      have hlengths := congrArg List.length h
      simp only [List.length_append, List.length_cons] at hlengths
      obtain rfl : back = [] := List.eq_nil_of_length_eq_zero (by omega)
      obtain ⟨d, rfl⟩ := List.length_eq_one_iff.mp (by omega : y.length = 1)
      have hlast := congrArg List.getLast? h
      rw [List.append_nil, List.getLast?_concat, List.getLast?_append_of_ne_nil _ hsep] at hlast
      exact absurd hlast.symm (hy d List.mem_cons_self)

/-- A content, others that have a separator before them each, and a tail. -/
def separated (x : List α) : List (List α × List α) → List α → List α
  | [], tail => x ++ tail
  | (sep, y) :: more, tail => x ++ (sep ++ separated y more tail)

def AllClear (x : List α) : List (List α × List α) → Prop
  | [] => True
  | (sep, y) :: more => Clear sep x y ∧ AllClear y more

def lastContent (x : List α) : List (List α × List α) → List α
  | [] => x
  | (_, y) :: more => lastContent y more

theorem prefix_separated (x : List α) (more : List (List α × List α)) (tail : List α) :
    x <+: separated x more tail := by
  cases more with
  | nil => exact List.prefix_append x tail
  | cons row more => exact List.prefix_append x _

theorem Clear.shifted {sep x y front rest rest' : List α} (h : Clear sep x y) (hy : y <+: rest)
    (hfront : front ≠ []) (heq : sep ++ rest = front ++ (sep ++ rest')) :
    ∃ between, rest = between ++ rest' ∧ y.length < between.length := by
  have hlength := congrArg List.length heq
  simp only [List.length_append] at hlength
  have hsuffix : rest' <:+ sep ++ rest := by
    rw [heq, ← List.append_assoc]
    exact List.suffix_append _ _
  obtain ⟨between, rfl⟩ :=
    List.suffix_of_suffix_length_le hsuffix (List.suffix_append sep rest) (by omega)
  refine ⟨between, rfl, ?_⟩
  rw [List.length_append] at hlength
  by_contra hshort
  have hleft : front ++ sep <+: front ++ (sep ++ rest') := by
    rw [← List.append_assoc]
    exact List.prefix_append _ _
  have hright : sep ++ y <+: front ++ (sep ++ rest') := by
    rw [← heq]
    exact (List.prefix_append_right_inj sep).mpr hy
  obtain ⟨back, hback⟩ := List.prefix_of_prefix_length_le hleft hright (by
    simp only [List.length_append]
    omega)
  rw [List.append_assoc] at hback
  exact hfront (h.first hback.symm)

theorem separated_ne_append {x x' tail tail' : List α} {more more' : List (List α × List α)}
    (hclear : AllClear x more) (hseps : more.map Prod.fst = more'.map Prod.fst)
    (htail : ∀ front, lastContent x more ++ tail = front ++ tail' → front = lastContent x more)
    {before : List α} (hlong : x.length < before.length) :
    separated x more tail ≠ before ++ separated x' more' tail' := by
  induction more generalizing x x' more' before with
  | nil =>
    obtain rfl := List.map_eq_nil_iff.mp hseps.symm
    intro h
    rw [separated, separated, ← List.append_assoc] at h
    have hlength := congrArg List.length (htail _ h)
    rw [List.length_append, lastContent] at hlength
    omega
  | cons row more ih =>
    obtain ⟨sep, y⟩ := row
    obtain ⟨⟨other, y'⟩, more', rfl, hother, hmore⟩ := List.map_eq_cons_iff.mp hseps.symm
    obtain rfl : other = sep := hother
    obtain ⟨hhere, hrest⟩ := hclear
    intro h
    rw [separated, separated, ← List.append_assoc before] at h
    have hwhole : before ++ x' <+: x ++ (other ++ separated y more tail) := by
      rw [h]
      exact List.prefix_append _ _
    obtain ⟨between, hbetween⟩ : x <+: before ++ x' := by
      apply List.prefix_of_prefix_length_le (List.prefix_append x _) hwhole
      rw [List.length_append]
      omega
    rw [← hbetween, List.append_assoc, List.append_cancel_left_eq] at h
    have hne : between ≠ [] := by
      rintro rfl
      have hlength := congrArg List.length hbetween
      rw [List.append_nil, List.length_append] at hlength
      omega
    obtain ⟨next, hnext, hlonger⟩ := hhere.shifted (prefix_separated y more tail) hne h
    exact ih hrest hmore.symm htail hlonger hnext

theorem separated_inj {x x' tail tail' : List α} {more more' : List (List α × List α)}
    (hclear : AllClear x more) (hseps : more.map Prod.fst = more'.map Prod.fst)
    (htail : ∀ front, lastContent x more ++ tail = front ++ tail' → front = lastContent x more)
    (h : separated x more tail = separated x' more' tail') :
    x = x' ∧ more = more' ∧ tail = tail' := by
  induction more generalizing x x' more' with
  | nil =>
    obtain rfl := List.map_eq_nil_iff.mp hseps.symm
    rw [separated, separated] at h
    obtain rfl := htail _ h
    exact ⟨rfl, rfl, List.append_cancel_left h⟩
  | cons row more ih =>
    obtain ⟨sep, y⟩ := row
    obtain ⟨⟨other, y'⟩, more', rfl, hother, hmore⟩ := List.map_eq_cons_iff.mp hseps.symm
    obtain rfl : other = sep := hother
    obtain ⟨hhere, hrest⟩ := hclear
    rw [separated, separated] at h
    obtain hshort | hsame | hlong := lt_trichotomy x'.length x.length
    · have hleft : x' ++ other <+: x ++ (other ++ separated y more tail) := by
        rw [h, ← List.append_assoc]
        exact List.prefix_append _ _
      have hright : x ++ other <+: x ++ (other ++ separated y more tail) := by
        rw [← List.append_assoc]
        exact List.prefix_append _ _
      obtain ⟨back, hback⟩ := List.prefix_of_prefix_length_le hleft hright (by
        simp only [List.length_append]
        omega)
      rw [List.append_assoc] at hback
      obtain rfl := hhere.last hback.symm
      have hlength := congrArg List.length hback
      simp only [List.append_nil, List.length_append] at hlength
      omega
    · obtain ⟨rfl, heq⟩ := List.append_inj h hsame.symm
      obtain ⟨rfl, rfl, rfl⟩ := ih hrest hmore.symm htail (List.append_cancel_left heq)
      exact ⟨rfl, rfl, rfl⟩
    · have hwhole : x' <+: x ++ (other ++ separated y more tail) := by
        rw [h]
        exact List.prefix_append _ _
      obtain ⟨between, rfl⟩ :=
        List.prefix_of_prefix_length_le (List.prefix_append x _) hwhole hlong.le
      rw [List.append_assoc, List.append_cancel_left_eq] at h
      have hne : between ≠ [] := by
        rintro rfl
        rw [List.append_nil] at hlong
        exact Nat.lt_irrefl _ hlong
      obtain ⟨next, hnext, hlonger⟩ := hhere.shifted (prefix_separated y more tail) hne h
      exact absurd hnext (separated_ne_append hrest hmore.symm htail hlonger)

/-- A separator is clear exactly where the text is cut by it in one way. -/
theorem clear_iff {sep x y : List α} : Clear sep x y ↔
    ∀ {x' y'}, x ++ (sep ++ y) = x' ++ (sep ++ y') → x' = x := by
  constructor
  · intro h x' y' heq
    have hone : separated x [(sep, y)] [] = separated x' [(sep, y')] [] := by
      simpa [separated] using heq
    have htail : ∀ front, lastContent x [(sep, y)] ++ [] = front ++ [] →
        front = lastContent x [(sep, y)] := fun front hfront => by simpa using hfront.symm
    have hclear : AllClear x [(sep, y)] := ⟨h, trivial⟩
    have hseps : [(sep, y)].map Prod.fst = [(sep, y')].map Prod.fst := rfl
    exact (separated_inj hclear hseps htail hone).1.symm
  · intro h
    constructor
    · intro front back heq
      have hcut : x ++ (sep ++ y) = front ++ (sep ++ (back ++ y)) := by
        rw [← List.append_assoc, heq]
        simp only [List.append_assoc]
      rw [h hcut] at heq
      simpa using heq
    · intro front back heq
      have hcut : x ++ (sep ++ y) = (x ++ front) ++ (sep ++ back) := by
        rw [heq, List.append_assoc]
      simpa using h hcut

end Tracefold.Library
