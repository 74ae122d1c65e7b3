import Mathlib.Tactic.Common
import Tracefold.Ideal
import Tracefold.Ledger.Proof

/-! The walks of the ledger's readers are those of the tree, and what a walk that ends at a root
says of the leaves. -/

namespace Tracefold.Ledger

open Library Library.Merkle

section Trees

variable [Canon]

theorem isRoot_of_mthFrom {fuel : ℕ} {leaves : List Cid} {root : Cid}
    (h : mthFrom fuel leaves = some root) : IsRoot Canon.node leaves root := by
  induction fuel generalizing leaves root with
  | zero =>
    cases leaves with
    | nil => cases h
    | cons leaf rest =>
      cases rest with
      | nil =>
        rw [mthFrom] at h
        cases h
        exact .leaf _
      | cons => cases h
  | succ fuel ih =>
    cases leaves with
    | nil => cases h
    | cons a rest =>
      cases rest with
      | nil =>
        rw [mthFrom] at h
        cases h
        exact .leaf _
      | cons b rest =>
        have htwo : 2 ≤ (a :: b :: rest).length := by simp
        generalize a :: b :: rest = leaves at *
        rw [mthFrom_succ htwo] at h
        obtain ⟨left, hleft, h⟩ := Option.bind_eq_some_iff.mp h
        obtain ⟨right, hright, h⟩ := Option.bind_eq_some_iff.mp h
        cases h
        have hlt : splitPoint leaves.length < leaves.length := splitPoint_lt htwo
        have htake : (leaves.take (splitPoint leaves.length)).length = splitPoint leaves.length := by
          rw [List.length_take, Nat.min_eq_left hlt.le]
        have hboth := IsRoot.node
          (by rw [← List.length_append, List.take_append_drop, htake]; rfl) (ih hleft) (ih hright)
        rwa [List.take_append_drop] at hboth

theorem mth_eq_some {leaves : List Cid} {root : Cid} :
    mth leaves = some root ↔ IsRoot Canon.node leaves root := by
  constructor
  · exact isRoot_of_mthFrom
  · intro h
    have hne : leaves ≠ [] := List.ne_nil_of_length_pos h.length_pos
    obtain ⟨root', hroot'⟩ := Option.isSome_iff_exists.mp (mth_isSome hne)
    rw [hroot', h.unique (isRoot_of_mthFrom hroot')]

omit [Canon] in
theorem carry_odd {fuel node last : ℕ} (h : node % 2 = 1) : carry fuel node last = (node, last) := by
  cases fuel with
  | zero => rfl
  | succ fuel => rw [carry, if_neg (by omega)]

omit [Canon] in
theorem carry_edge {fuel node : ℕ} (hfuel : node ≤ fuel) (hne : node ≠ 0) :
    (carry fuel node node).1 = (carry fuel node node).2 ∧
      sides node node =
        .left :: sides ((carry fuel node node).1 / 2) ((carry fuel node node).2 / 2) := by
  induction fuel generalizing node with
  | zero => omega
  | succ fuel ih =>
    rcases Nat.mod_two_eq_zero_or_one node with heven | hodd
    · rw [carry, if_pos ⟨hne, heven⟩, sides_edge hne heven]
      exact ih (by omega) (by omega)
    · rw [carry_odd hodd, sides_odd hne hodd]
      exact ⟨rfl, rfl⟩

omit [Canon] in
theorem sides_ne_nil {node last : ℕ} (hle : node ≤ last) (hlast : last ≠ 0) :
    ∃ side rest, sides node last = side :: rest := by
  rcases Nat.mod_two_eq_zero_or_one node with heven | hodd
  · rcases hle.lt_or_eq with hlt | rfl
    · exact ⟨_, _, sides_even hlt heven⟩
    · exact ⟨_, _, (carry_edge le_rfl hlast).2⟩
  · exact ⟨_, _, sides_odd hlast hodd⟩

omit [Canon] in
theorem walkFrom_eq {β : Type} {step : Side → Cid → β → β} {node last : ℕ} {reached : β}
    {path : List Cid} (hle : node ≤ last) :
    walkFrom step node last reached path = climb step (sides node last) path reached := by
  induction path generalizing node last reached with
  | nil =>
    rw [walkFrom]
    split
    next hlast =>
      rw [hlast, sides_zero]
      rfl
    next hlast =>
      obtain ⟨side, rest, hsides⟩ := sides_ne_nil hle hlast
      rw [hsides]
      rfl
  | cons sibling path ih =>
    rw [walkFrom]
    by_cases hlast : last = 0
    · rw [if_pos hlast, hlast, sides_zero]
      rfl
    rw [if_neg hlast]
    rcases Nat.mod_two_eq_zero_or_one node with heven | hodd
    · rcases hle.lt_or_eq with hlt | rfl
      · rw [if_neg (by omega), sides_even hlt heven, climb]
        exact ih (by omega)
      · obtain ⟨hedge, hsides⟩ := carry_edge le_rfl hlast
        rw [if_pos (.inr rfl), hsides, climb]
        exact ih (by rw [hedge])
    · rw [if_pos (.inl hodd), carry_odd hodd, sides_odd hlast hodd, climb]
      exact ih (by omega)

omit [Canon] in
theorem stripOdd_eq {fuel node last : ℕ} (hfuel : node ≤ fuel) :
    stripOdd fuel node last = strip node last := by
  induction fuel generalizing node last with
  | zero =>
    rw [Nat.le_zero.mp hfuel, strip_even rfl]
    rfl
  | succ fuel ih =>
    rw [stripOdd]
    split
    next hodd =>
      rw [strip_odd hodd]
      exact ih (by omega)
    next heven => rw [strip_even (by omega)]

section Soundness

variable (hnode : Function.Injective2 Canon.node)
include hnode

/-- The walk of an inclusion proof ends at the root of a tree only from the leaf's own place. -/
theorem sits_of_rootOfInclusion {proof : InclusionProof} {leaf : LedgerLeaf} {leaves : List Cid}
    {root : Cid} (hsize : leaves.length = proof.treeSize) (hroot : IsRoot Canon.node leaves root)
    (h : rootOfInclusion proof leaf = some root) :
    proof.leafIndex < proof.treeSize ∧ leaf.index = proof.leafIndex ∧
      leaves[proof.leafIndex]? = some (leafHash leaf) := by
  rw [rootOfInclusion, reconstructRoot] at h
  split_ifs at h with hindex hlen hsmall
  have hlt : proof.leafIndex < proof.treeSize := by omega
  rw [walkFrom_eq (by omega), ← hsize] at h
  exact ⟨hlt, not_not.mp hindex, climb_sound hnode hroot (by omega) h⟩

/-- The older root of a consistency proof that holds is the root of the newer tree's first
leaves. -/
theorem older_of_verifyConsistency {proof : ConsistencyProof} {leaves : List Cid}
    {oldRoot newRoot : Cid} (hsize : leaves.length = proof.newSize)
    (hroot : IsRoot Canon.node leaves newRoot)
    (h : verifyConsistency proof oldRoot newRoot = .ok true) :
    IsRoot Canon.node (leaves.take proof.oldSize) oldRoot := by
  rw [verifyConsistency] at h
  split_ifs at h with hzero hless hsame
  · simp only [Except.ok.injEq, decide_eq_true_eq] at h
    rw [hsame, ← hsize, List.take_length, h.2]
    exact hroot
  · have hpos : 0 < proof.oldSize := Nat.pos_of_ne_zero hzero
    have hlt : proof.oldSize < leaves.length := by omega
    have hwalk : ∃ start path, climb (Side.grow Canon.node) (edge proof.oldSize leaves.length) path
        (start, start) = some (oldRoot, newRoot) := by
      rw [stripOdd_eq le_rfl] at h
      have hle : (strip (proof.oldSize - 1) (proof.newSize - 1)).1 ≤
          (strip (proof.oldSize - 1) (proof.newSize - 1)).2 := strip_le _ _ (by omega)
      rw [edge, hsize]
      dsimp only at h
      split at h
      next =>
        simp only [Except.ok.injEq, decide_eq_true_eq] at h
        exact ⟨oldRoot, proof.path, by rw [← walkFrom_eq hle, h]⟩
      next =>
        split at h
        next => cases h
        next first path hpath =>
          simp only [Except.ok.injEq, decide_eq_true_eq] at h
          exact ⟨first, path, by rw [← walkFrom_eq hle, h]⟩
    obtain ⟨start, path, hclimb⟩ := hwalk
    exact older_of_newer hnode hroot hpos hlt hclimb

end Soundness

end Trees

/-- An inclusion proof leads to the root of a tree only for a leaf that sits where it says. -/
theorem inclusion_proof_is_sound [Canon] (hnode : Function.Injective2 Canon.node) (proof : InclusionProof)
    (leaf : LedgerLeaf) (leaves : List Cid) (hsize : leaves.length = proof.treeSize) (root : Cid)
    (hroot : mth leaves = some root)
    (h : rootOfInclusion proof leaf = some root ∨ verifyInclusionOf proof root leaf = true) :
    proof.leafIndex < proof.treeSize ∧ leaf.index = proof.leafIndex ∧
      leaves[proof.leafIndex]? = some (leafHash leaf) := by
  apply sits_of_rootOfInclusion hnode hsize (mth_eq_some.mp hroot)
  rcases h with h | h
  · exact h
  · rw [verifyInclusionOf, Option.any_eq_true] at h
    obtain ⟨reached, hreached, heq⟩ := h
    rw [hreached, of_decide_eq_true heq]

/-- Two leaves, and the proof of the second of them. -/
def twoLeaves : LedgerLeaf × LedgerLeaf := (⟨0, ⟨[1]⟩, ⟨[2]⟩⟩, ⟨1, ⟨[3]⟩, ⟨[4]⟩⟩)

open Tracefold.Ideal in
theorem inclusion_proof_is_sound_second :
    verifyInclusionOf ⟨1, 2, [leafHash twoLeaves.1]⟩
        (Canon.node (leafHash twoLeaves.1) (leafHash twoLeaves.2)) twoLeaves.2 = true ∧
      [leafHash twoLeaves.1, leafHash twoLeaves.2][1]? = some (leafHash twoLeaves.2) := by
  have hverify : verifyInclusionOf ⟨1, 2, [leafHash twoLeaves.1]⟩
      (Canon.node (leafHash twoLeaves.1) (leafHash twoLeaves.2)) twoLeaves.2 = true := by
    decide
  have hsits := inclusion_proof_is_sound node_injective ⟨1, 2, [leafHash twoLeaves.1]⟩ twoLeaves.2
    [leafHash twoLeaves.1, leafHash twoLeaves.2] rfl
    (Canon.node (leafHash twoLeaves.1) (leafHash twoLeaves.2)) (by decide) (.inr hverify)
  exact ⟨hverify, hsits.2.2⟩

/-- A consistency proof holds of two trees only when one has grown from the other. -/
theorem consistency_proof_is_sound [Canon] (hnode : Function.Injective2 Canon.node)
    (proof : ConsistencyProof) (older newer : List Cid) (holder : older.length = proof.oldSize)
    (hnewer : newer.length = proof.newSize) (oldRoot newRoot : Cid)
    (hold : mth older = some oldRoot) (hnew : mth newer = some newRoot)
    (h : verifyConsistency proof oldRoot newRoot = .ok true) : older <+: newer := by
  have hprefix := older_of_verifyConsistency hnode hnewer (mth_eq_some.mp hnew) h
  have hle : proof.oldSize ≤ proof.newSize := by
    rw [verifyConsistency] at h
    split_ifs at h <;> omega
  have hlength : older.length = (newer.take proof.oldSize).length := by
    rw [List.length_take, holder]
    omega
  rw [(mth_eq_some.mp hold).inj hnode hprefix hlength]
  exact List.take_prefix _ _

open Tracefold.Ideal in
theorem consistency_proof_is_sound_second :
    verifyConsistency ⟨2, 1, [⟨[2]⟩]⟩ ⟨[1]⟩ (Canon.node ⟨[1]⟩ ⟨[2]⟩) = .ok true ∧
      [(⟨[1]⟩ : Cid)] <+: [⟨[1]⟩, ⟨[2]⟩] := by
  have hverify : verifyConsistency ⟨2, 1, [⟨[2]⟩]⟩ ⟨[1]⟩ (Canon.node ⟨[1]⟩ ⟨[2]⟩) = .ok true := by
    decide
  exact ⟨hverify, consistency_proof_is_sound node_injective ⟨2, 1, [⟨[2]⟩]⟩ [⟨[1]⟩]
    [⟨[1]⟩, ⟨[2]⟩] rfl rfl ⟨[1]⟩ (Canon.node ⟨[1]⟩ ⟨[2]⟩) (by decide) (by decide)
    hverify⟩

end Tracefold.Ledger
