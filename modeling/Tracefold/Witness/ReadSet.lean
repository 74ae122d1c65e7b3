import Mathlib.Tactic.Common
import Tracefold.Ideal
import Tracefold.Ledger.Walks
import Tracefold.Library.Sort

/-! What a receipt commits to of the reads behind an inverse: the set of them and, where they are
too many to be listed, a tree over them in which each has its place. -/

namespace Tracefold

open Std
open Library
open Library.Merkle (IsRoot IsPath Side climb climb_sound climb_injective)
open Ledger (walkFrom walkFrom_eq mth_eq_some)

section Order

theorem ReadEntry.compare_eq :
    (compare : ReadEntry → ReadEntry → Ordering) =
      compareLex (compareOn ReadEntry.digest) (compareOn ReadEntry.locator) := by
  funext a b
  show (compare a.digest b.digest).then ((compare a.locator b.locator).then .eq) = _
  rw [Ordering.then_eq]
  rfl

instance : TransOrd ReadEntry := by
  show TransCmp (compare : ReadEntry → ReadEntry → Ordering)
  rw [ReadEntry.compare_eq]
  infer_instance

instance : LawfulEqOrd ReadEntry where
  compare_self := ReflCmp.compare_self
  eq_of_compare := by
    intro a b h
    rw [ReadEntry.compare_eq, compareLex_eq_eq] at h
    cases a
    cases b
    exact congrArg₂ ReadEntry.mk (LawfulEqCmp.eq_of_compare h.1) (LawfulEqCmp.eq_of_compare h.2)

end Order

section Tree

variable [Canon]

/-- `read_set_path`. -/
def readSetPath (index : ℕ) (leaves : List Cid) : List Cid := auditPathFrom leaves.length index leaves

/-- `read_set_fold`, by the two counters of `reconstruct_root`. -/
def readSetFold (index : ℕ) (leaf : Cid) (siblings : List Cid) (leafCount : ℕ) : Option Cid :=
  if leafCount = 0 ∨ leafCount ≤ index then none
  else walkFrom (Side.join Canon.node) index (leafCount - 1) leaf siblings

omit [Canon] in
theorem split_halves {leaves : List Cid} (h : 2 ≤ leaves.length) :
    (leaves.take (splitPoint leaves.length)).length = splitPoint leaves.length ∧
      0 < splitPoint leaves.length ∧ splitPoint leaves.length < leaves.length ∧
      Merkle.split ((leaves.take (splitPoint leaves.length)).length +
        (leaves.drop (splitPoint leaves.length)).length) =
          (leaves.take (splitPoint leaves.length)).length := by
  have hlt : splitPoint leaves.length < leaves.length := splitPoint_lt h
  have htake : (leaves.take (splitPoint leaves.length)).length = splitPoint leaves.length :=
    List.length_take_of_le hlt.le
  refine ⟨htake, Nat.two_pow_pos _, hlt, ?_⟩
  rw [← List.length_append, List.take_append_drop, htake]
  rfl

theorem isPath_auditPathFrom {fuel index : ℕ} {leaves : List Cid} (hfuel : leaves.length ≤ fuel)
    (hindex : index < leaves.length) :
    IsPath Canon.node leaves index (auditPathFrom fuel index leaves) := by
  induction fuel generalizing index leaves with
  | zero => omega
  | succ fuel ih =>
    rw [auditPathFrom]
    by_cases hone : leaves.length ≤ 1
    · rw [if_pos hone]
      obtain ⟨leaf, rfl⟩ := List.length_eq_one_iff.mp (show leaves.length = 1 by omega)
      obtain rfl : index = 0 := by
        rw [List.length_singleton] at hindex
        omega
      exact .leaf leaf
    · rw [if_neg hone]
      obtain ⟨htake, hpos, hlt, hsplit⟩ := split_halves (show 2 ≤ leaves.length by omega)
      have hdrop : (leaves.drop (splitPoint leaves.length)).length =
          leaves.length - splitPoint leaves.length := List.length_drop
      have hroot : ∀ part : List Cid, 0 < part.length →
          ∃ root, mth part = some root ∧ IsRoot Canon.node part root := by
        intro part hpart
        obtain ⟨root, hroot⟩ := Option.isSome_iff_exists.mp
          (@mth_isSome _ part (List.ne_nil_of_length_pos hpart))
        exact ⟨root, hroot, mth_eq_some.mp hroot⟩
      obtain ⟨left, hleft, hleft'⟩ := hroot (leaves.take (splitPoint leaves.length)) (by omega)
      obtain ⟨right, hright, hright'⟩ := hroot (leaves.drop (splitPoint leaves.length)) (by omega)
      dsimp only
      rw [hleft, hright]
      by_cases hside : index < splitPoint leaves.length
      · rw [if_pos hside]
        have hpath := IsPath.left hsplit
          (ih (by omega) (by omega) : IsPath Canon.node (leaves.take (splitPoint leaves.length)) index _)
          hright'
        rwa [List.take_append_drop] at hpath
      · rw [if_neg hside]
        have hpath := IsPath.right hsplit hleft'
          (ih (by omega) (by omega) : IsPath Canon.node (leaves.drop (splitPoint leaves.length))
            (index - splitPoint leaves.length) _)
        rwa [List.take_append_drop, htake, Nat.add_sub_of_le (Nat.le_of_not_lt hside)] at hpath

/-- A fold ends at the root of a tree only over a leaf at its place and the siblings of this
place. -/
theorem readSetFold_eq_some (hnode : Function.Injective2 Canon.node) {leaves : List Cid} {root : Cid}
    (hroot : mth leaves = some root) {index : ℕ} {leaf : Cid} {siblings : List Cid} :
    readSetFold index leaf siblings leaves.length = some root ↔
      index < leaves.length ∧ leaves[index]? = some leaf ∧ siblings = readSetPath index leaves := by
  have hisRoot := mth_eq_some.mp hroot
  have hpos := hisRoot.length_pos
  unfold readSetFold
  by_cases hindex : index < leaves.length
  · rw [if_neg (by omega), walkFrom_eq (by omega)]
    have hclimb : ∀ {leaf : Cid}, leaves[index]? = some leaf →
        climb (Side.join Canon.node) (Merkle.sides index (leaves.length - 1))
          (readSetPath index leaves) leaf = some root := fun hleaf =>
      (isPath_auditPathFrom le_rfl hindex).climb hisRoot hleaf
    constructor
    · intro hfold
      have hleaf := climb_sound hnode hisRoot hindex hfold
      exact ⟨hindex, hleaf, (climb_injective hnode hfold (hclimb hleaf)).1⟩
    · rintro ⟨-, hleaf, rfl⟩
      exact hclimb hleaf
  · rw [if_pos (.inr (Nat.le_of_not_lt hindex))]
    constructor
    · intro hnone
      cases hnone
    · intro hin
      exact absurd hin.1 hindex

end Tree

section Commitment

variable [Canon]

/-- What is made of the reads once they are in order. -/
def ReadSet.ofListed (entries : List ReadEntry) : ReadSet :=
  if entries.isEmpty then .nothing
  else if entries.length ≤ readSetSpillThreshold then .perRead entries
  else
    match mth (entries.map Canon.readLeaf) with
    | some root => .perEffectRoot root entries.length
    | none => .nothing

theorem ReadSet.fromReads_eq (entries : List ReadEntry) :
    ReadSet.fromReads entries = .ofListed (Sort.distinctBy compare entries) := rfl

theorem ReadSet.ofListed_cases (entries : List ReadEntry) :
    entries = [] ∧ ReadSet.ofListed entries = .nothing ∨
      entries.length ≤ readSetSpillThreshold ∧ ReadSet.ofListed entries = .perRead entries ∨
      ∃ root, mth (entries.map Canon.readLeaf) = some root ∧
        readSetSpillThreshold < entries.length ∧
        ReadSet.ofListed entries = .perEffectRoot root entries.length := by
  unfold ReadSet.ofListed
  by_cases hempty : entries.isEmpty
  · rw [if_pos hempty]
    exact .inl ⟨List.isEmpty_iff.mp hempty, rfl⟩
  · rw [if_neg hempty]
    by_cases hfew : entries.length ≤ readSetSpillThreshold
    · rw [if_pos hfew]
      exact .inr (.inl ⟨hfew, rfl⟩)
    · rw [if_neg hfew]
      have hne : entries.map Canon.readLeaf ≠ [] := fun hnil =>
        hempty (List.isEmpty_iff.mpr (List.map_eq_nil_iff.mp hnil))
      obtain ⟨root, hroot⟩ := Option.isSome_iff_exists.mp (mth_isSome hne)
      rw [hroot]
      exact .inr (.inr ⟨root, rfl, Nat.lt_of_not_le hfew, rfl⟩)

theorem ReadSet.ofListed_injective (hleaf : Function.Injective Canon.readLeaf)
    (hnode : Function.Injective2 Canon.node) : Function.Injective ReadSet.ofListed := by
  intro a b h
  rcases ReadSet.ofListed_cases a with ⟨rfl, ha⟩ | ⟨-, ha⟩ | ⟨root, hroot, -, ha⟩
  · rcases ReadSet.ofListed_cases b with ⟨rfl, -⟩ | ⟨-, hb⟩ | ⟨_, -, -, hb⟩
    · rfl
    · rw [ha, hb] at h
      cases h
    · rw [ha, hb] at h
      cases h
  · rcases ReadSet.ofListed_cases b with ⟨-, hb⟩ | ⟨-, hb⟩ | ⟨_, -, -, hb⟩
    · rw [ha, hb] at h
      cases h
    · rw [ha, hb] at h
      exact ReadSet.perRead.inj h
    · rw [ha, hb] at h
      cases h
  · rcases ReadSet.ofListed_cases b with ⟨-, hb⟩ | ⟨-, hb⟩ | ⟨root', hroot', -, hb⟩
    · rw [ha, hb] at h
      cases h
    · rw [ha, hb] at h
      cases h
    · rw [ha, hb] at h
      obtain ⟨rfl, hlength⟩ := ReadSet.perEffectRoot.inj h
      apply List.map_injective_iff.mpr hleaf
      apply (mth_eq_some.mp hroot).inj hnode (mth_eq_some.mp hroot')
      rw [List.length_map, List.length_map, hlength]

end Commitment

/-- What a receipt says of the reads is a function of their set and, where hashes do not collide,
tells every set from every other. Over many reads it is a root that a fold reaches from a leaf at
its own place, over its own siblings, and from nothing else. -/
theorem read_set_commits [Canon] :
    (∀ reads reads' : List ReadEntry, (∀ entry, entry ∈ reads ↔ entry ∈ reads') →
      ReadSet.fromReads reads = .fromReads reads') ∧
    (Function.Injective Canon.readLeaf → Function.Injective2 Canon.node →
      (∀ reads reads' : List ReadEntry, ReadSet.fromReads reads = .fromReads reads' →
        ∀ entry, entry ∈ reads ↔ entry ∈ reads') ∧
      ∀ entries : List ReadEntry, entries.Pairwise (fun a b => compare a b = .lt) →
        readSetSpillThreshold < entries.length →
        ∃ root, ReadSet.fromReads entries = .perEffectRoot root entries.length ∧
          ∀ index leaf siblings, readSetFold index leaf siblings entries.length = some root ↔
            index < entries.length ∧ (entries.map Canon.readLeaf)[index]? = some leaf ∧
              siblings = readSetPath index (entries.map Canon.readLeaf)) := by
  refine ⟨fun reads reads' hsame => ?_, fun hleaf hnode => ⟨fun reads reads' h => ?_, ?_⟩⟩
  · rw [ReadSet.fromReads_eq, ReadSet.fromReads_eq, Sort.distinctBy_eq_iff.mpr hsame]
  · exact Sort.distinctBy_eq_iff.mp (ReadSet.ofListed_injective hleaf hnode h)
  · intro entries hsorted hmany
    rw [ReadSet.fromReads_eq, Sort.distinctBy_eq_self hsorted]
    rcases ReadSet.ofListed_cases entries with ⟨rfl, -⟩ | ⟨hfew, -⟩ | ⟨root, hroot, -, htree⟩
    · exact absurd hmany (Nat.not_lt_zero _)
    · exact absurd hmany (Nat.not_lt.mpr hfew)
    · refine ⟨root, htree, ?_⟩
      intro index leaf siblings
      have hfold := @readSetFold_eq_some _ hnode _ _ hroot index leaf siblings
      rwa [List.length_map] at hfold

/-- Six reads of one object, in order. -/
def sixReads : List ReadEntry := (List.range 6).map fun i => ⟨⟨[i]⟩, "a"⟩

open Tracefold.Ideal in
theorem read_set_commits_six :
    ReadSet.fromReads (sixReads ++ sixReads.reverse) = .fromReads sixReads ∧
      ReadSet.fromReads sixReads ≠ .fromReads sixReads.tail ∧
      ∃ root, ReadSet.fromReads sixReads = .perEffectRoot root 6 ∧
        readSetFold 4 (Canon.readLeaf ⟨⟨[4]⟩, "a"⟩)
          (readSetPath 4 (sixReads.map Canon.readLeaf)) 6 = some root := by
  have hleaf : Function.Injective Canon.readLeaf := fun _ _ h => hash_injective h
  obtain ⟨hsame, hdiffer⟩ := read_set_commits
  obtain ⟨hiff, htree⟩ := hdiffer hleaf node_injective
  obtain ⟨root, hroot, hfold⟩ := htree sixReads (by decide) (by decide)
  refine ⟨hsame _ _ ?_, ?_, root, hroot, (hfold 4 _ _).mpr ⟨by decide, rfl, rfl⟩⟩
  · intro entry
    rw [List.mem_append, List.mem_reverse, or_self]
  · intro h
    have hmem : (⟨⟨[0]⟩, "a"⟩ : ReadEntry) ∈ sixReads := by decide
    exact absurd ((hiff _ _ h _).mp hmem) (by decide)

end Tracefold
