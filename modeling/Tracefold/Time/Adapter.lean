import Mathlib.Tactic.Common
import Tracefold.Adapter.Files

/-! The time adapter: one entry of a schedule that something else runs, at a position of a file tree. -/

namespace Tracefold.Time

open Library Library.FileTree Locator Adapter
open DagCbor (Value I64 optional required ofBool ofInt ofText optionValue)

section Grammar

/-- What is to be run, when it is due, and what the schedule says about whether it has run, if it
says it at all. -/
structure Entry where
  action : Text
  fireAt : I64
  fired : Option Bool
  deriving DecidableEq

namespace Entry

/-- What serde writes of an entry. -/
def value (entry : Entry) : Value :=
  .map [("fired", optionValue .bool entry.fired), ("action", .text (String.ofList entry.action)),
    ("fire_at", .int entry.fireAt)]

/-- What serde reads as an entry: members that an entry does not have are passed over. -/
def ofValue : Value → Option Entry
  | .map entries => do
    let action ← required ofText entries "action"
    let fireAt ← required ofInt entries "fire_at"
    let fired ← optional ofBool entries "fired"
    return ⟨action.toList, fireAt, fired⟩
  | _ => none

/-- `Entry::encode`. -/
def encode (entry : Entry) : Option Bytes := DagCbor.encode entry.value

/-- `Entry::decode`. -/
def decode [Host] (bytes : Bytes) : Option Entry := (DagCbor.decode bytes).bind ofValue

/-- `records_firedness`. -/
def recordsFiredness (entry : Entry) : Bool := entry.fired.isSome

/-- `is_recorded_as_fired`. -/
def isRecordedAsFired (entry : Entry) : Bool := entry.fired = some true

end Entry

/-- One change to one position of a schedule: what is to stand there, or nothing. -/
structure TimeOp where
  entry : Option Entry
  locator : Text
  deriving DecidableEq

def maxForwardPayloadBytes : ℕ := 64 * 1024

/-- `locator::normalize`: a `..` is left standing. -/
def normalize (locator : Text) : Text :=
  let body := ['/'].intercalate
    ((locator.splitOn '/').filter fun segment => ¬ (segment = [] ∨ segment = dot))
  if locator.head? = some '/' then '/' :: body else body

/-- `locator::is_absolute`. -/
def isAbsolute (locator : Text) : Bool := locator.head? = some '/' ∧ 1 < locator.length

def kind : SubstrateKind := .custom "time"

namespace TimeOp

def value (op : TimeOp) : Value :=
  .map [("entry", optionValue Entry.value op.entry), ("locator", .text (String.ofList op.locator))]

def ofValue : Value → Option TimeOp
  | .map entries => do
    let entry ← optional Entry.ofValue entries "entry"
    let locator ← required ofText entries "locator"
    return ⟨entry, locator.toList⟩
  | _ => none

/-- `TimeOp::position`. -/
def position (op : TimeOp) : Except Adapter.Error Text :=
  let normalised := normalize op.locator
  if isAbsolute normalised then .ok normalised else .error (.notAPosition op.locator normalised)

/-- `TimeOp::encode`. -/
def encode (op : TimeOp) : Option Bytes := DagCbor.encode op.value

/-- `TimeOp::decode`. -/
def decode [Host] (payload : Bytes) : Except Adapter.Error TimeOp :=
  match (DagCbor.decode payload).bind ofValue with
  | none => .error .payloadUnreadable
  | some op => .ok op

end TimeOp

/-- The operation of a delta and its position. -/
def operationOf [Host] (delta : PlannedDelta) : Except Adapter.Error (Text × TimeOp) :=
  if delta.substrate ≠ kind then .error (.foreignDelta kind delta.substrate)
  else do
    let op ← TimeOp.decode delta.payload
    let position ← op.position
    return (position, op)

end Grammar

section Methods

variable [Host]

/-- `plan::plan`: an empty goal cancels, and no goal may say that its entry has run. -/
def plan (intent : Intent) (_pre : ObjectSnapshot) : Except Adapter.Error PlannedDelta := do
  if intent.substrate ≠ kind then .error (.notPlannable (.foreign intent.substrate))
  else
    let position := normalize intent.locator.toList
    if !isAbsolute position then
      .error (.notPlannable (.notFromRoot intent.locator.toList position))
    else
      let (op, target) ← (
        if intent.goal = [] then .ok (⟨none, position⟩, absentDigest)
        else
          match Entry.decode intent.goal with
          | none => .error (.notPlannable .notAnEntry)
          | some entry =>
            if entry.isRecordedAsFired then .error (.notPlannable .claimsFired)
            else
              match entry.encode with
              | none => .error .notDigestible
              | some written => .ok (⟨some entry, position⟩, contentDigest written) :
        Except Adapter.Error (TimeOp × Cid))
      match op.encode with
      | none => .error .notDigestible
      | some payload =>
        if maxForwardPayloadBytes < payload.length then
          .error (.notPlannable (.tooLarge payload.length))
        else .ok ⟨kind, payload, some target⟩

/-- `apply::write_whole_entry`. -/
def writeWholeEntry (position : Text) (bytes : Bytes) : Io Unit := writeWhole position bytes

/-- `apply::remove_entry`: already gone is already done. -/
def removeEntry (position : Text) : Io Unit := fun w t =>
  let spelled := components position
  match unlink spelled w t with
  | (.ok (), t') =>
    if spelled = [] then (.ok (), t')
    else calling (fun e => .applyFailed position (some e)) (openPath spelled.dropLast) w t'
  | (.error .notFound, t') => (.ok (), t')
  | (.error e, t') => (.error (.applyFailed position (some e)), t')

/-- What an operation does to the tree. -/
def perform (position : Text) : Option Entry → Io Unit
  | some entry => do
    let bytes ← Prog.orThrow entry.encode .notDigestible
    writeWholeEntry position bytes
  | none => removeEntry position

/-- `apply::apply`. -/
def apply [Canon] (delta : PlannedDelta) : Io AppliedDelta := do
  let (position, op) ← answering (operationOf delta)
  perform position op.entry
  let digest ← observe position
  let postcondition ← answering (fingerprint kind position digest)
  pure ⟨delta.reference, postcondition, digest, 0, none⟩

/-- `invert::invert`. -/
def invert (delta : PlannedDelta) (pre : ObjectSnapshot) : Io InvertOutcome := do
  let (position, _) ← answering (operationOf delta)
  let named := normalize pre.locator.toList
  if named ≠ position then Prog.throw (.locatorMismatch position named)
  else
    match ← readIfPresent position with
    | none =>
      -- a creation, and its inverse is a cancellation
      let payload ← Prog.orThrow (TimeOp.encode ⟨none, position⟩) .notDigestible
      pure (.inverted ⟨kind, payload, none⟩ [⟨absentDigest, String.ofList position⟩])
    | some bytes =>
      let reads : List ReadEntry := [⟨contentDigest bytes, String.ofList position⟩]
      let standing ← Prog.orThrow (Entry.decode bytes) (.unreadable position none)
      if !standing.recordsFiredness then pure (.undetermined reads)
      else
        let payload ← Prog.orThrow (TimeOp.encode ⟨some standing, position⟩) .notDigestible
        if maxForwardPayloadBytes < payload.length then pure (.none reads)
        else pure (.inverted ⟨kind, payload, none⟩ reads)

/-- `TimeAdapter::precondition`. -/
def precondition (snap : ObjectSnapshot) : Io Fingerprint := fun w t =>
  let scope := normalize snap.locator.toList
  if isAbsolute scope then
    match read (components scope) w t with
    | (.ok content, t') => (fingerprint kind scope (contentDigest content), t')
    | (.error e, t') => (.error (.unreadable scope (some e)), t')
  else (.error (.unreadable scope none), t)

end Methods

end Tracefold.Time
