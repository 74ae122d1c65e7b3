import Mathlib.Tactic.Common
import Tracefold.Cbor
import Tracefold.Ledger.Tile
import Tracefold.Library.Frames

/-! The ledger on a file: records behind their lengths, what is read back of them when the file is
opened, and the appends of one writer. -/

namespace Tracefold.Ledger

open Library.Frames

/-- `MAX_RECORD_BYTES`. -/
def maxRecordBytes : ℕ := 2 ^ 20

/-- The last record, as it lies on the file. -/
structure TailRecord where
  at_ : ℕ
  framed : Bytes
  deriving DecidableEq, Repr

structure Recovery where
  records : ℕ
  tornTailBytes : ℕ
  deriving DecidableEq, Repr

/-- A store. The file is beside it, since others may write it too. -/
structure LedgerStore where
  tree : TileLog
  byKey : BTreeMap TransformationId ℕ
  recovery : Recovery
  readOnly : Bool
  bytes : ℕ
  tail : Option TailRecord

/-- The variables of the loop of `replay`. -/
structure Replay where
  tree : TileLog
  byKey : BTreeMap TransformationId ℕ
  good : ℕ
  tail : Option TailRecord

def Replay.start : Replay := ⟨.new, ∅, 0, none⟩

structure Replayed where
  tree : TileLog
  byKey : BTreeMap TransformationId ℕ
  goodBytes : ℕ
  tornTailBytes : ℕ
  tail : Option TailRecord

inductive StoreError where
  | readOnly
  | conflict (transformation : TransformationId) (recorded offered : Cid)
  | canon
  | malformed
  | io
  /-- The `expect` of the lookup. -/
  | panicked
  deriving DecidableEq, Repr

inductive AppendOutcome where
  | appended (entry : LedgerEntry)
  | alreadyPresent (entry : LedgerEntry)
  deriving DecidableEq, Repr

/-- What becomes of the write of a record at the end of the file: `write_all` fails behind some of
its bytes, or all are written and `sync_all` fails, or both succeed. -/
inductive Write where
  | cut (written : ℕ)
  | unsynced
  | done
  deriving DecidableEq, Repr

variable [Canon] [Cbor LedgerEntry]

/-- One turn of the loop of `replay`. The key is inserted before it is known to be new. -/
def Replay.record (replay : Replay) (payload : Bytes) : Flow Replay :=
  match Cbor.decode (α := LedgerEntry) payload with
  | none => .stop replay
  | some recorded =>
    if recorded.index ≠ replay.tree.len then .stop replay
    else
      let staged := replay.tree.stage recorded.transformation recorded.receiptDigest
        recorded.appendedAt
      if staged ≠ recorded then .stop replay
      else
        let byKey := replay.byKey.insert recorded.transformation recorded.index
        if replay.byKey[recorded.transformation]?.isSome then .stop { replay with byKey := byKey }
        else
          .next {
            tree := replay.tree.commit staged
            byKey := byKey
            good := replay.good + lengthBytes + payload.length
            tail := some ⟨replay.good, frame payload⟩ }

/-- `replay`. -/
def replay (file : Bytes) : Replayed :=
  let last := walk maxRecordBytes Replay.record file.length .start file
  ⟨last.tree, last.byKey, last.good, file.length - last.good, last.tail⟩

namespace LedgerStore

/-- `LedgerStore::open`: the store, and the file without its torn tail. -/
def open_ (file : Bytes) : LedgerStore × Bytes :=
  let replayed := replay file
  ({ tree := replayed.tree
     byKey := replayed.byKey
     recovery := ⟨replayed.tree.len, replayed.tornTailBytes⟩
     readOnly := false
     bytes := replayed.goodBytes
     tail := replayed.tail },
    if 0 < replayed.tornTailBytes then file.take replayed.goodBytes else file)

/-- `write_and_sync`: the store, the file, and whether it succeeded. -/
def writeAndSync (store : LedgerStore) (file payload : Bytes) (write : Write) :
    LedgerStore × Bytes × Except StoreError Unit :=
  if maxRecordBytes < payload.length then (store, file, .error .malformed)
  else
    match write with
    | .cut written => (store, file ++ (frame payload).take written, .error .io)
    | .unsynced => (store, file ++ frame payload, .error .io)
    | .done =>
      ({ store with
         tail := some ⟨store.bytes, frame payload⟩
         bytes := store.bytes + lengthBytes + payload.length },
        file ++ frame payload, .ok ())

/-- `LedgerStore::append`. -/
def append (store : LedgerStore) (file : Bytes) (transformation : TransformationId)
    (receiptDigest : Cid) (appendedAt : Timestamp) (write : Write) :
    LedgerStore × Bytes × Except StoreError AppendOutcome :=
  if store.readOnly then (store, file, .error .readOnly)
  else
    match store.byKey[transformation]? with
    | some index =>
      match store.tree.entries[index]? with
      | none => (store, file, .error .panicked)
      | some recorded =>
        if recorded.receiptDigest = receiptDigest then (store, file, .ok (.alreadyPresent recorded))
        else (store, file, .error (.conflict transformation recorded.receiptDigest receiptDigest))
    | none =>
      let staged := store.tree.stage transformation receiptDigest appendedAt
      match Cbor.encode staged with
      | none => (store, file, .error .canon)
      | some payload =>
        match store.writeAndSync file payload write with
        | (store, file, .error error) => (store, file, .error error)
        | (store, file, .ok ()) =>
          ({ store with
             tree := store.tree.commit staged
             byKey := store.byKey.insert transformation staged.index },
            file, .ok (.appended staged))

end LedgerStore

end Tracefold.Ledger
