import Mathlib.Tactic.Common
import Tracefold.Api.Serving
import Tracefold.Library.Pages

/-! `GET /stream`: the events of the records of a journal, and a subscriber who reads them a batch at
a time from a cursor on. -/

namespace Tracefold.Api

open GxGate (Digests Reason)
open Library

/-- How many events one tick may take. -/
def batch : ℕ := 256

inductive EventKind where
  | candidateCreated
  | verifyStarted
  | verdictIssued
  | escalated
  | humanDecision
  | canonicalized
  | committed
  | aborted
  | superseded
  | receiptIssued
  deriving DecidableEq, Repr

/-- The data of an event, by its kind. -/
inductive EventData where
  | candidateCreated (intentDigest : IntentId) (substrate : Option String) (locator : String)
  | verifyStarted
  | verdictIssued (kind : VerdictKind) (proofDigest : Option Cid)
  | escalated (ticketId : Option Cid) (reasons : Option (List Reason))
  | humanDecision (ticketId : Option Cid) (decision : VerdictKind) (reason : String)
  | canonicalized (canonicalCid : Cid) (enforced : Option Bool)
  | committed (canonicalCid : Option Cid) (ledgerIndex : ℕ) (enforced : Option Bool)
  | aborted (reason : AbortReason) (rollback : Option Rollback)
  | superseded (supersededBy : TransformationId)
  | receiptIssued (receiptDigest : Cid) (keyId : KeyId) (receiptKind : ReceiptKind)
  deriving DecidableEq, Repr

structure Event where
  kind : EventKind
  transformation : TransformationId
  at_ : Timestamp
  data : EventData
  deriving DecidableEq, Repr

def substrateText : SubstrateKind → String
  | .fs => "fs"
  | .git => "git"
  | .mcp => "mcp"
  | .custom name => "custom:" ++ name

section Projection

variable [Canon] [Digests] [ErrorTexts]

/-- `receipt_data`. -/
def receiptData (receipt : Receipt) (kind : ReceiptKind) : EventData :=
  .receiptIssued receipt.payload.ledgerDigest receipt.payload.keyId kind

/-- The ticket an event names, or nothing where it is not raised again. -/
def ticketNamed (s : Serving) (id : TransformationId) : Option GxGate.EscalationTicket :=
  match s.ticketAsRaised id with
  | .ok ticket => ticket
  | .error _ => none

/-- `events_for`, of a note. -/
def eventsForNote (id : TransformationId) (stamp : Timestamp) (s : Serving) : Note → List Event
  | .committingStarted => []
  | .provenanceDerived _ => []
  | .inverseEscrowed _ => []
  | .applyStarted _ => []
  | .applyObserved _ => []
  | .inverseCompleted _ => []
  | .planned body =>
    [⟨.candidateCreated, id, stamp, .candidateCreated body.intentId
      ((s.engine.plannedDelta s.disk id).map fun delta => substrateText delta.substrate) body.locator⟩]
  | .verifyStarted => [⟨.verifyStarted, id, stamp, .verifyStarted⟩]
  | .verdict kind verdictDigest _ =>
    let events := [⟨.verdictIssued, id, stamp, .verdictIssued kind verdictDigest⟩]
    let events :=
      if kind = .Escalate then
        events ++ [⟨.escalated, id, stamp, .escalated ((ticketNamed s id).map (·.id))
          ((ticketNamed s id).map (·.reasons))⟩]
      else events
    match (s.verdictReceipts id).head? with
    | some receipt => events ++ [⟨.receiptIssued, id, stamp, receiptData receipt .verdictReceipt⟩]
    | none => events
  | .humanDecision kind reason _ _ =>
    let events := [⟨.humanDecision, id, stamp,
      .humanDecision ((ticketNamed s id).map (·.id)) kind reason⟩]
    match (s.verdictReceipts id).getLast? with
    | some receipt => events ++ [⟨.receiptIssued, id, stamp, receiptData receipt .verdictReceipt⟩]
    | none => events
  | .canonicalized canonicalCid _ =>
    [⟨.canonicalized, id, stamp, .canonicalized canonicalCid (s.engine.enforced id)⟩]
  | .committed ledgerSeq =>
    let events := [⟨.committed, id, stamp,
      .committed (s.engine.canonicalCid id) ledgerSeq (s.engine.enforced id)⟩]
    match s.receipt id with
    | some receipt => events ++ [⟨.receiptIssued, id, stamp, receiptData receipt .commitReceipt⟩]
    | none => events
  | .aborted reason rollback => [⟨.aborted, id, stamp, .aborted reason rollback⟩]
  | .superseded by_ => [⟨.superseded, id, stamp, .superseded by_⟩]

/-- `events_for`. -/
def eventsFor (record : Record) (s : Serving) : List Event :=
  match record with
  | .draftCreated _ _ _ => []
  | .about id note stamp => eventsForNote id stamp s note

/-- The events of one record, until the batch is full; the last says whether it is. -/
def eventLoop (after : Cursor) (index : ℕ) :
    List (Event × ℕ) → List (Cursor × Event) → Cursor → List (Cursor × Event) × Cursor × Bool
  | [], out, last => (out, last, false)
  | (event, ordinal) :: rest, out, last =>
    let cursor : Cursor := ⟨index, ordinal⟩
    if cursor ≤ after then eventLoop after index rest out last
    else if (out ++ [(cursor, event)]).length ≥ batch then (out ++ [(cursor, event)], cursor, true)
    else eventLoop after index rest (out ++ [(cursor, event)]) cursor

def recordLoop (s : Serving) (after : Cursor) :
    List (Record × ℕ) → List (Cursor × Event) → Cursor → List (Cursor × Event) × Cursor
  | [], out, last => (out, last)
  | (record, index) :: rest, out, last =>
    match eventLoop after index (eventsFor record s).zipIdx out last with
    | (out, last, true) => (out, last)
    | (out, last, false) => recordLoop s after rest out last

/-- `events_after`. -/
def eventsAfter (s : Serving) (after : Cursor) : List (Cursor × Event) × Cursor :=
  recordLoop s after (s.records.zipIdx.drop after.record) [] after

/-- What a subscriber has been sent whose cursor goes from tick to tick, and the cursor it has then. -/
def stream : Cursor → List Serving → List (Cursor × Event) × Cursor
  | cursor, [] => ([], cursor)
  | cursor, s :: rest =>
    let (events, last) := eventsAfter s cursor
    let (more, cursor) := stream last rest
    (events ++ more, cursor)

end Projection

section Resume

/-- `Cursor::pred`. -/
def Cursor.pred (c : Cursor) : Cursor :=
  if c.record = 0 then ⟨0, 0⟩ else ⟨c.record - 1, usizeMax⟩

/-- The number of a text of decimal digits. -/
def readDecimal (acc : ℕ) : List Char → Option ℕ
  | [] => some acc
  | c :: rest => if c.isDigit then readDecimal (acc * 10 + (c.toNat - 48)) rest else none

/-- `str::parse::<u64>`. -/
def parseU64 (text : String) : Option ℕ :=
  match text.toList with
  | [] => none
  | ['+'] => none
  | '+' :: digits => (readDecimal 0 digits).filter (· < 2 ^ 64)
  | digits => (readDecimal 0 digits).filter (· < 2 ^ 64)

def commits (ledgerIndex : ℕ) : Record → Bool
  | .about _ (.committed ledgerSeq) _ => ledgerSeq = ledgerIndex
  | _ => false

/-- `resume_from`, with what a date is read as. -/
def resumeFrom (rfc3339 : String → Except ApiError Timestamp) (s : Serving)
    (lastEventId since : Option String) : Except ApiError Cursor :=
  match lastEventId, since with
  | some value, _ => Cursor.parse value
  | none, none => .ok Cursor.default
  | none, some since =>
    match parseU64 since with
    | some ledgerIndex =>
      match s.records.findIdx? (commits ledgerIndex) with
      | some record => .ok ⟨record, usizeMax⟩
      | none =>
        .error (.validation ("no committed transformation carries ledger index " ++
          toString ledgerIndex ++ ". 44 §2.2's `?since=<ledger_index>` can only name what INV-S4 " ++
          "puts on the ledger; a `Denied` or `Aborted` position is nameable only by the " ++
          "`Last-Event-ID` cursor this stream publishes (M6-13)"))
    | none => do
      let instant ← rfc3339 since
      match s.records.findIdx? (instant ≤ ·.at_) with
      | some record => return (Cursor.mk record usizeMax).pred
      | none => return ⟨s.records.length, 0⟩

end Resume

end Tracefold.Api
