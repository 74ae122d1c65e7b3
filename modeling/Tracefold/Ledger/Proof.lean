import Mathlib.Tactic.Common
import Tracefold.Ledger.Tile

/-! Inclusion and consistency proofs as the ledger gives them out, and as a reader walks them: by
two counters, and without the tree. -/

namespace Tracefold.Ledger

open Library Library.Merkle

variable [Canon]

inductive ProofError where
  | outOfRange (index treeSize : ℕ)
  | malformed
  deriving DecidableEq, Repr

structure ConsistencyProof where
  newSize : ℕ
  oldSize : ℕ
  path : List Cid
  deriving DecidableEq, Repr

/-- `prove_inclusion_at`. -/
def proveInclusionAt (log : TileLog) (index treeSize : ℕ) : Except ProofError InclusionProof :=
  if treeSize = 0 ∨ log.len < treeSize ∨ treeSize ≤ index then .error (.outOfRange index treeSize)
  else .ok ⟨index, treeSize, log.auditPathAt index treeSize⟩

/-- `while node != 0 && node % 2 == 0`, both halved. -/
def carry : ℕ → ℕ → ℕ → ℕ × ℕ
  | 0, node, last => (node, last)
  | fuel + 1, node, last =>
    if node ≠ 0 ∧ node % 2 = 0 then carry fuel (node / 2) (last / 2) else (node, last)

/-- The loop of `reconstruct_root` and of `verify_consistency`, over what each of them has
reached. -/
def walkFrom {β : Type} (step : Side → Cid → β → β) : ℕ → ℕ → β → List Cid → Option β
  | _, last, reached, [] => if last = 0 then some reached else none
  | node, last, reached, sibling :: path =>
    if last = 0 then none
    else if node % 2 = 1 ∨ node = last then
      let (node, last) := carry node node last
      walkFrom step (node / 2) (last / 2) (step .left sibling reached) path
    else walkFrom step (node / 2) (last / 2) (step .right sibling reached) path

/-- `reconstruct_root`. -/
def reconstructRoot (proof : InclusionProof) (leaf : Cid) : Option Cid :=
  if proof.treeSize = 0 ∨ proof.treeSize ≤ proof.leafIndex then none
  else walkFrom (Side.join Canon.node) proof.leafIndex (proof.treeSize - 1) leaf proof.auditPath

/-- `root_of_inclusion`. -/
def rootOfInclusion (proof : InclusionProof) (leaf : LedgerLeaf) : Option Cid :=
  if leaf.index ≠ proof.leafIndex then none
  else if auditPathLen proof.leafIndex proof.treeSize ≠ some proof.auditPath.length then none
  else reconstructRoot proof (leafHash leaf)

/-- `verify_inclusion_of`. -/
def verifyInclusionOf (proof : InclusionProof) (root : Cid) (leaf : LedgerLeaf) : Bool :=
  (rootOfInclusion proof leaf).any fun reached => reached = root

/-- `verify_inclusion`. -/
def verifyInclusion (proof : InclusionProof) (root : Cid) (entry : LedgerEntry) : Bool :=
  verifyInclusionOf proof root entry.leaf

/-- `prove_consistency`. -/
def proveConsistency (log : TileLog) (oldSize newSize : ℕ) : Except ProofError ConsistencyProof :=
  if oldSize = 0 then .error .malformed
  else if newSize < oldSize then .error .malformed
  else if log.len < newSize then .error .malformed
  else
    .ok ⟨newSize, oldSize,
      if oldSize < newSize then subproof oldSize (log.leaves.take newSize) true else []⟩

/-- `while node % 2 == 1`, both halved. -/
def stripOdd : ℕ → ℕ → ℕ → ℕ × ℕ
  | 0, node, last => (node, last)
  | fuel + 1, node, last =>
    if node % 2 = 1 then stripOdd fuel (node / 2) (last / 2) else (node, last)

/-- `verify_consistency`. -/
def verifyConsistency (proof : ConsistencyProof) (oldRoot newRoot : Cid) : Except ProofError Bool :=
  if proof.oldSize = 0 then .error .malformed
  else if proof.newSize < proof.oldSize then .error .malformed
  else if proof.oldSize = proof.newSize then .ok (proof.path = [] ∧ oldRoot = newRoot)
  else
    let (node, last) := stripOdd (proof.oldSize - 1) (proof.oldSize - 1) (proof.newSize - 1)
    if node = 0 then
      .ok (walkFrom (Side.grow Canon.node) node last (oldRoot, oldRoot) proof.path =
        some (oldRoot, newRoot))
    else
      match proof.path with
      | [] => .ok false
      | first :: path =>
        .ok (walkFrom (Side.grow Canon.node) node last (first, first) path =
          some (oldRoot, newRoot))

end Tracefold.Ledger
