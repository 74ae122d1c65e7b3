import Mathlib.Logic.Relation
import Mathlib.Tactic.Common
import Tracefold.Core
import Tracefold.Library.Search

/-! The ancestors of a transformation, nearest first. -/

namespace Tracefold.Ancestors

open Library Relation

variable (resolve : TransformationId → Option Transformation)

/-- What an id that resolves puts into the queue. -/
def parentsOf (id : TransformationId) : List TransformationId :=
  match resolve id with
  | some t => t.parents
  | none => []

/-- `ancestors`, for as many turns of its loop as there is fuel. -/
def ancestors (fuel : ℕ) (start : TransformationId) : Option (List TransformationId) :=
  Search.run (parentsOf resolve) fuel ⟨[], [], parentsOf resolve start⟩

/-- An edge of the provenance graph. -/
def Parent (child parent : TransformationId) : Prop :=
  ∃ t, resolve child = some t ∧ parent ∈ t.parents

variable {resolve} {start id : TransformationId}

theorem mem_parentsOf : id ∈ parentsOf resolve start ↔ Parent resolve start id := by
  rw [parentsOf, Parent]
  cases resolve start with
  | none => simp
  | some t => simp

theorem exists_walk_iff :
    (∃ n, Search.Walk (parentsOf resolve) start n id) ↔ TransGen (Parent resolve) start id := by
  constructor
  · rintro ⟨n, hwalk⟩
    induction hwalk with
    | first hy => exact .single (mem_parentsOf.mp hy)
    | step _ hy ih => exact ih.tail (mem_parentsOf.mp hy)
  · intro h
    induction h with
    | single hedge => exact ⟨1, .first (mem_parentsOf.mpr hedge)⟩
    | tail _ hedge ih =>
      obtain ⟨n, hwalk⟩ := ih
      exact ⟨n + 1, .step hwalk (mem_parentsOf.mpr hedge)⟩

/-- Over a finite store the loop comes to an end with every id that is reached over one or more
edges, each once, in the order of the length of the shortest way to it. -/
theorem ancestors_are_what_is_reached (resolve : TransformationId → Option Transformation)
    (start : TransformationId) (hfinite : {id | (resolve id).isSome}.Finite) :
    ∃ fuel out, (∀ more, fuel ≤ more → ancestors resolve more start = some out) ∧ out.Nodup ∧
      (∀ id, id ∈ out ↔ TransGen (Parent resolve) start id) ∧
      out.Pairwise fun a b => Search.distance (parentsOf resolve) start a ≤
        Search.distance (parentsOf resolve) start b := by
  have hnext : {id | parentsOf resolve id ≠ []}.Finite := by
    apply hfinite.subset
    intro id hid
    show (resolve id).isSome = true
    cases h : resolve id with
    | none => exact absurd (by rw [parentsOf, h]) hid
    | some t => rfl
  obtain ⟨fuel, out, hrun, hfound⟩ := Search.search start hnext
  refine ⟨fuel, out, hrun, hfound.nodup, ?_, hfound.ordered⟩
  intro id
  rw [hfound.reached, exists_walk_iff]

/-- A store of two transformations that are parents of each other, one of them of itself, too, and
child of one that is not there. -/
def tangled (id : TransformationId) : Option Transformation :=
  if id = ⟨[1]⟩ then some (transformation id [⟨[2]⟩, ⟨[1]⟩, ⟨[3]⟩])
  else if id = ⟨[2]⟩ then some (transformation id [⟨[1]⟩])
  else none
where
  transformation (id : TransformationId) (parents : List TransformationId) : Transformation :=
    ⟨id, ⟨[0]⟩, 0, .object ⟨[0]⟩, none, ⟨.fs, ⟨[0]⟩⟩, .evidence, .human "k", parents, 0⟩

theorem ancestors_tangled : ∃ fuel out,
    (∀ more, fuel ≤ more → ancestors tangled more ⟨[2]⟩ = some out) ∧ out.Nodup ∧
      (∀ id, id ∈ out ↔ TransGen (Parent tangled) ⟨[2]⟩ id) ∧
      out.Pairwise fun a b => Search.distance (parentsOf tangled) ⟨[2]⟩ a ≤
        Search.distance (parentsOf tangled) ⟨[2]⟩ b := by
  apply ancestors_are_what_is_reached
  apply (Set.toFinite {⟨[1]⟩, ⟨[2]⟩}).subset
  intro id hid
  by_contra hother
  rw [Set.mem_insert_iff, Set.mem_singleton_iff, not_or] at hother
  simp [tangled, hother.1, hother.2] at hid

example : ancestors tangled 9 ⟨[2]⟩ = some [⟨[1]⟩, ⟨[2]⟩, ⟨[3]⟩] := by decide

end Tracefold.Ancestors
