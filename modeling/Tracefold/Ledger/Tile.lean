import Mathlib.Tactic.Common
import Tracefold.Engine
import Tracefold.Library.Merkle

/-! The ledger's tree in memory: its entries, their leaf hashes, and the roots of the tiles that are
complete. -/

namespace Tracefold

/-- What a leaf hash is taken over. -/
structure LedgerLeaf where
  index : ℕ
  receiptDigest : Cid
  transformation : TransformationId
  deriving DecidableEq, Repr

/-- `LedgerEntry::leaf`. -/
def LedgerEntry.leaf (entry : LedgerEntry) : LedgerLeaf where
  index := entry.index
  receiptDigest := entry.receiptDigest
  transformation := entry.transformation

namespace Ledger

open Library Library.Merkle

variable [Canon]

/-- `leaf_hash`. -/
def leafHash (leaf : LedgerLeaf) : Cid :=
  Canon.ledgerLeaf leaf.index leaf.receiptDigest leaf.transformation

/-- `TILE_WIDTH`. -/
def tileWidth : ℕ := 256

structure TileLog where
  entries : List LedgerEntry
  leaves : List Cid
  tileRoots : List Cid
  deriving DecidableEq, Repr

namespace TileLog

def new : TileLog := ⟨[], [], []⟩

/-- `TileLog::len`. -/
def len (log : TileLog) : ℕ := log.entries.length

/-- `TileLog::stage`. -/
def stage (log : TileLog) (transformation : TransformationId) (receiptDigest : Cid)
    (appendedAt : Timestamp) : LedgerEntry where
  appendedAt := appendedAt
  index := log.len
  leafCid := leafHash ⟨log.len, receiptDigest, transformation⟩
  receiptDigest := receiptDigest
  transformation := transformation

/-- `TileLog::commit`: a tile is folded once, when its last leaf arrives. -/
def commit (log : TileLog) (entry : LedgerEntry) : TileLog :=
  let leaves := log.leaves ++ [entry.leafCid]
  { entries := log.entries ++ [entry]
    leaves := leaves
    tileRoots :=
      if leaves.length % tileWidth = 0 then
        log.tileRoots ++ (mth (leaves.drop (leaves.length - tileWidth))).toList
      else log.tileRoots }

/-- `TileLog::append`. -/
def append (log : TileLog) (transformation : TransformationId) (receiptDigest : Cid)
    (appendedAt : Timestamp) : TileLog :=
  log.commit (log.stage transformation receiptDigest appendedAt)

/-- `TileLog::mth_range`: the tile roots stand for a range of whole tiles. The fuel is the number
of leaves. -/
def mthRangeFrom (log : TileLog) : ℕ → ℕ → ℕ → Option Cid
  | fuel, start, stop =>
    if stop - start = 0 then none
    else if stop - start = 1 then log.leaves[start]?
    else if start % tileWidth = 0 ∧ (stop - start) % tileWidth = 0 ∧
        stop / tileWidth ≤ log.tileRoots.length then
      mth ((log.tileRoots.take (stop / tileWidth)).drop (start / tileWidth))
    else
      match fuel with
      | 0 => none
      | fuel + 1 => do
        let k := splitPoint (stop - start)
        let left ← mthRangeFrom log fuel start (start + k)
        let right ← mthRangeFrom log fuel (start + k) stop
        return Canon.node left right

def mthRange (log : TileLog) (start stop : ℕ) : Option Cid :=
  log.mthRangeFrom (stop - start) start stop

/-- `TileLog::root_at`. -/
def rootAt (log : TileLog) (treeSize : ℕ) : Option Cid :=
  if treeSize = 0 ∨ log.leaves.length < treeSize then none else log.mthRange 0 treeSize

/-- `TileLog::walk_to_root`, what it pushes in order. -/
def walkToRootFrom (log : TileLog) : ℕ → ℕ → ℕ → ℕ → List Cid
  | 0, _, _, _ => []
  | fuel + 1, index, start, stop =>
    if stop - start ≤ 1 then []
    else
      let k := splitPoint (stop - start)
      if index < start + k then
        log.walkToRootFrom fuel index start (start + k) ++ (log.mthRange (start + k) stop).toList
      else
        log.walkToRootFrom fuel index (start + k) stop ++ (log.mthRange start (start + k)).toList

/-- `TileLog::audit_path_at`. -/
def auditPathAt (log : TileLog) (index treeSize : ℕ) : List Cid :=
  log.walkToRootFrom treeSize index 0 treeSize

end TileLog

/-- `SUBPROOF(m, D[n], b)`. -/
def subproofFrom : ℕ → ℕ → List Cid → Bool → List Cid
  | fuel, m, leaves, b =>
    if m = leaves.length then if b then [] else (mth leaves).toList
    else
      match fuel with
      | 0 => []
      | fuel + 1 =>
        let k := splitPoint leaves.length
        if m ≤ k then subproofFrom fuel m (leaves.take k) b ++ (mth (leaves.drop k)).toList
        else subproofFrom fuel (m - k) (leaves.drop k) false ++ (mth (leaves.take k)).toList

def subproof (m : ℕ) (leaves : List Cid) (b : Bool) : List Cid :=
  subproofFrom leaves.length m leaves b

/-- The loop of `audit_path_len`. -/
def auditPathLenFrom : ℕ → ℕ → ℕ → ℕ → ℕ
  | 0, _, _, len => len
  | fuel + 1, i, n, len =>
    if n ≤ 1 then len
    else
      let k := splitPoint n
      if i < k then auditPathLenFrom fuel i k (len + 1)
      else auditPathLenFrom fuel (i - k) (n - k) (len + 1)

/-- `audit_path_len`. -/
def auditPathLen (index treeSize : ℕ) : Option ℕ :=
  if treeSize = 0 ∨ treeSize ≤ index then none
  else some (auditPathLenFrom treeSize index treeSize 0)

end Ledger

end Tracefold
