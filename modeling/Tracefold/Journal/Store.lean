import Mathlib.Tactic.Common
import Tracefold.Journal.Replay
import Tracefold.Ledger.Store

/-! A process's journal on a file: the writer's door and the reader's, an append, the read of what
others have appended since, and the check that what was read is still there. -/

namespace Tracefold.JournalFile

open Library
open Library.Frames (lengthBytes u32ToBeBytes Fits)
open Head (Digest JournalFormat journalMagicV2 chainBytes maxRecordBytes link genesisLink)
open Ledger (Write)

structure TailRecord where
  at_ : ℕ
  framed : Bytes
  deriving DecidableEq, Repr

inductive JournalCreation where
  | permitted
  | refused
  deriving DecidableEq, Repr

/-- A journal. The file is beside it, since others may write it too; a torn tail that was cut is
named by the bytes that it was copied from. -/
structure EngineJournal where
  records : List Record
  recovery : Recovery
  consumedBytes : ℕ
  readOnly : Bool
  quarantined : Option (ℕ × ℕ)
  tail : Option TailRecord
  format : JournalFormat
  chain : Option Digest
  chainBreak : Option ℕ
  downgraded : Bool
  fromANewerGx : Bool
  deriving DecidableEq

inductive JournalError where
  | notFound
  | readOnly
  | downgraded
  | fromANewerGx
  /-- The record carries a word that the framing does not cover. -/
  | vocabulary (format : JournalFormat)
  | chainBroken (at_ : ℕ)
  | canon
  | noChainHead
  | overCeiling (length : ℕ)
  | io
  | shorter (end_ read : ℕ)
  | torn (bytes good : ℕ)
  deriving DecidableEq

/-- The comparison of what a project declares with the framing that its journal has. -/
def isDowngraded (declared : Option JournalFormat) (format : JournalFormat) : Bool :=
  match declared with
  | none => false
  | some declared =>
    declared.isChained ∧ format.vocabularyRank < declared.vocabularyRank ∨
      declared.isChained ∧ format = .legacy

/-- `tail_record`. -/
def tailRecord (bytes : Bytes) (base : ℕ) (span : Option (ℕ × ℕ)) : Option TailRecord :=
  match span with
  | none => none
  | some (at_, length) =>
    if bytes.length < at_ + length then none
    else some ⟨base + at_, (bytes.drop at_).take length⟩

/-- What is on a file once a writer has stamped it: a file with no bytes gets the marker that the
project declares, or the newest one. -/
def stamped (declared : Option JournalFormat) (bytes : Bytes) : Bytes :=
  if bytes.isEmpty then (declared.bind JournalFormat.marker).getD journalMagicV2 else bytes

namespace EngineJournal

section Doors

variable (hash : Bytes → Digest) [Cbor Record]

/-- `EngineJournal::open_declared_creating`: the journal, and the file without its torn tail. -/
def openDeclaredCreating (declared : Option JournalFormat) (creation : JournalCreation)
    (file : Option Bytes) : Except JournalError (EngineJournal × Bytes) :=
  if file = none ∧ creation = .refused then .error .notFound
  else
    let bytes := stamped declared (file.getD [])
    let replayed := replay hash bytes
    let fromANewerGx := framingThisBuildDoesNotKnow bytes
    let downgraded := isDowngraded declared replayed.format
    let torn := replayed.recovery.tornTailBytes
    let cut : Bool :=
      0 < torn ∧ ¬ downgraded ∧ ¬ fromANewerGx ∧ replayed.chainBreak = none
    .ok (
      { records := replayed.records
        recovery := replayed.recovery
        consumedBytes := replayed.goodBytes
        readOnly := false
        quarantined := if cut then some (replayed.goodBytes, replayed.goodBytes + torn) else none
        tail := tailRecord bytes 0 replayed.tailSpan
        format := replayed.format
        chain := replayed.chain
        chainBreak := replayed.chainBreak.map (·.at_)
        downgraded := downgraded
        fromANewerGx := fromANewerGx },
      if cut then bytes.take replayed.goodBytes else bytes)

/-- `EngineJournal::open_declared`. -/
def openDeclared (declared : Option JournalFormat) (file : Option Bytes) :
    Except JournalError (EngineJournal × Bytes) :=
  openDeclaredCreating hash declared .permitted file

/-- `EngineJournal::open_read_only_declared`. -/
def openReadOnlyDeclared (declared : Option JournalFormat) (file : Option Bytes) :
    Except JournalError EngineJournal :=
  match file with
  | none => .error .notFound
  | some bytes =>
    let replayed := replay hash bytes
    .ok
      { records := replayed.records
        recovery := replayed.recovery
        consumedBytes := replayed.goodBytes
        readOnly := true
        quarantined := none
        tail := tailRecord bytes 0 replayed.tailSpan
        format := replayed.format
        chain := replayed.chain
        chainBreak := replayed.chainBreak.map (·.at_)
        downgraded := isDowngraded declared replayed.format
        fromANewerGx := framingThisBuildDoesNotKnow bytes }

end Doors

/-- `write_and_sync`: the file, and whether it succeeded. -/
def writeAndSync (file payload : Bytes) (sealed : Option Digest) (write : Write) :
    Bytes × Except JournalError Unit :=
  if maxRecordBytes < payload.length then (file, .error (.overCeiling payload.length))
  else
    let record := u32ToBeBytes payload.length ++ payload ++ (sealed.map (·.1)).getD []
    match write with
    | .cut written => (file ++ record.take written, .error .io)
    | .unsynced => (file ++ record, .error .io)
    | .done => (file ++ record, .ok ())

/-- The refusals of an append, in the order in which they are asked. -/
def refusal (journal : EngineJournal) (record : Record) : Option JournalError :=
  if journal.readOnly then some .readOnly
  else if journal.downgraded then some .downgraded
  else if journal.fromANewerGx then some .fromANewerGx
  else if journal.format.vocabularyRank < record.minimumFormat.vocabularyRank then
    some (.vocabulary journal.format)
  else journal.chainBreak.map .chainBroken

/-- The link that will follow a payload, where the framing has one. -/
def sealOf (hash : Bytes → Digest) (journal : EngineJournal) (payload : Bytes) :
    Except JournalError (Option Digest) :=
  match journal.format, journal.chain with
  | .legacy, _ => .ok none
  | _, some previous => .ok (some (link hash previous payload))
  | _, none => .error .noChainHead

section Append

variable (hash : Bytes → Digest) [Cbor Record]

/-- `EngineJournal::append`. -/
def append (journal : EngineJournal) (file : Bytes) (record : Record) (write : Write) :
    EngineJournal × Bytes × Except JournalError ℕ :=
  match journal.refusal record with
  | some error => (journal, file, .error error)
  | none =>
    match Cbor.encode record with
    | none => (journal, file, .error .canon)
    | some payload =>
      match journal.sealOf hash payload with
      | .error error => (journal, file, .error error)
      | .ok sealed =>
        match writeAndSync file payload sealed write with
        | (file, .error error) => (journal, file, .error error)
        | (file, .ok ()) =>
          let framed := u32ToBeBytes payload.length ++ payload ++ (sealed.map (·.1)).getD []
          ({ journal with
             records := journal.records ++ [record]
             tail := some ⟨journal.consumedBytes, framed⟩
             consumedBytes :=
               journal.consumedBytes + (lengthBytes + payload.length) +
                 (if sealed.isSome then chainBytes else 0)
             chain := sealed.or journal.chain },
            file, .ok journal.records.length)

/-- `read_to_the_end`: the journal, and the records that arrived. -/
def readToTheEnd (journal : EngineJournal) (file : Bytes) (underLock : Bool) :
    EngineJournal × Except JournalError (List Record) :=
  if journal.downgraded then (journal, .ok [])
  else if file.length < journal.consumedBytes then
    if underLock then (journal, .error (.shorter file.length journal.consumedBytes))
    else (journal, .ok [])
  else if file.length = journal.consumedBytes then (journal, .ok [])
  else
    let bytes := file.drop journal.consumedBytes
    let replayed := replayOnward hash bytes ⟨journal.format, journal.chain⟩
    let chainBreak :=
      (replayed.chainBreak.map fun broken => journal.consumedBytes + broken.at_).or
        journal.chainBreak
    let torn := replayed.recovery.tornTailBytes
    if 0 < torn ∧ underLock ∧ replayed.chainBreak = none then
      ({ journal with chainBreak := chainBreak }, .error (.torn torn replayed.goodBytes))
    else
      ({ journal with
         chainBreak := chainBreak
         tail := (tailRecord bytes journal.consumedBytes replayed.tailSpan).or journal.tail
         chain := replayed.chain.or journal.chain
         consumedBytes := journal.consumedBytes + replayed.goodBytes
         records := journal.records ++ replayed.records },
        .ok replayed.records)

/-- `EngineJournal::catch_up` and `EngineJournal::catch_up_unlocked`. -/
def catchUp (journal : EngineJournal) (file : Bytes) :
    EngineJournal × Except JournalError (List Record) := journal.readToTheEnd hash file true

def catchUpUnlocked (journal : EngineJournal) (file : Bytes) :
    EngineJournal × Except JournalError (List Record) := journal.readToTheEnd hash file false

/-- `EngineJournal::prefix_intact`. -/
def prefixIntact (journal : EngineJournal) (file : Option Bytes) : Bool :=
  if journal.consumedBytes = 0 then true
  else
    match file with
    | none => false
    | some file =>
      if file.length < journal.consumedBytes then false
      else
        let bytes := file.take journal.consumedBytes
        if journal.format.isChained then
          let walked := Head.walkLinks hash bytes
          walked.breakAt = none ∧ walked.goodBytes = journal.consumedBytes ∧
            walked.records = journal.records.length ∧ walked.head = journal.chain
        else
          let replayed := replay hash bytes
          replayed.goodBytes = journal.consumedBytes ∧
            replayed.recovery.records = journal.records.length

end Append

end EngineJournal

end Tracefold.JournalFile
