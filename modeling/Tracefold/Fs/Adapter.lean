import Mathlib.Tactic.Common
import Tracefold.Adapter.Files
import Tracefold.Fs.Locator

/-! The fs adapter: one whole-file operation at a position of a tree of directories and files. -/

namespace Tracefold.Fs

open Library Library.FileTree Locator Locator.Lexical Adapter
open DagCbor (Value optional required ofBytes ofText ofArray optionValue)

section Delta

/-- One whole-file operation: what the file becomes, or nothing for a removal. -/
structure FsOp where
  content : Option Bytes
  locator : Text
  deriving DecidableEq, Repr

def maxOps : ℕ := 1

def maxInversePayloadBytes : ℕ := 1024 * 1024

def maxForwardPayloadBytes : ℕ := 1024 * 1024

/-- What serde writes of an operation. -/
def FsOp.value (op : FsOp) : Value :=
  .map [("content", optionValue .bytes op.content), ("locator", .text (String.ofList op.locator))]

/-- What serde reads as an operation. -/
def FsOp.ofValue : Value → Option FsOp
  | .map entries => do
    let content ← optional ofBytes entries "content"
    let locator ← required ofText entries "locator"
    return ⟨content, locator.toList⟩
  | _ => none

/-- `FsOp::position`. -/
def FsOp.position (op : FsOp) : Except Adapter.Error Text :=
  let normalised := normalize op.locator
  if isAbsolute normalised then .ok normalised else .error (.notAPosition op.locator normalised)

/-- `FsDelta::encode`. -/
def encode (ops : List FsOp) : Option Bytes := DagCbor.encode (.array (ops.map FsOp.value))

variable [Host]

/-- `FsDelta::decode`, and the one operation of what it accepts. -/
def decode (payload : Bytes) : Except Adapter.Error FsOp :=
  match (DagCbor.decode payload).bind (ofArray FsOp.ofValue) with
  | none => .error .payloadUnreadable
  | some ops =>
    if maxOps < ops.length then .error (.unimplemented ops.length)
    else
      match ops with
      | [] => .error .payloadUnreadable
      | op :: _ => .ok op

/-- `commutation::operation_of`: the position a delta acts on, and the operation it performs there. -/
def operationOf (delta : PlannedDelta) : Except Adapter.Error (Text × FsOp) :=
  if delta.substrate ≠ .fs then .error (.foreignDelta .fs delta.substrate)
  else do
    let op ← decode delta.payload
    let position ← op.position
    return (position, op)

end Delta

section Apply

variable [Host]

/-- `apply::write_whole_file`. -/
def writeWholeFile (position : Text) (content : Bytes) : Io Unit := writeWhole position content

/-- `apply::remove_whole_file`: a removal of what is already gone is not a failure. -/
def removeWholeFile (position : Text) : Io Unit := fun w t =>
  let spelled := components position
  let sync (t : Tree) :=
    if spelled = [] then (.error (.applyFailed position none), t)
    else calling (fun e => .applyFailed position (some e)) (openPath spelled.dropLast) w t
  match unlink spelled w t with
  | (.ok (), t') => sync t'
  | (.error .notFound, t') => sync t'
  | (.error e, t') => (.error (.applyFailed position (some e)), t')

/-- What an operation does to the tree. -/
def perform (position : Text) : Option Bytes → Io Unit
  | some content => writeWholeFile position content
  | none => removeWholeFile position

variable [Canon]

/-- `apply::apply`. -/
def apply (delta : PlannedDelta) : Io AppliedDelta := do
  let (position, op) ← answering (operationOf delta)
  perform position op.content
  let digest ← observe position
  let postcondition ← answering (fingerprint .fs position digest)
  pure ⟨delta.reference, postcondition, digest, 0, none⟩

end Apply

section Methods

variable [Host]

/-- `invert::invert`. -/
def invert (delta : PlannedDelta) (pre : ObjectSnapshot) : Io InvertOutcome := do
  let (position, _) ← answering (operationOf delta)
  let named := normalize pre.locator.toList
  if named ≠ position then Prog.throw (.locatorMismatch position named)
  else
    let old ← readIfPresent position
    let reads : List ReadEntry := [⟨contentDigest (old.getD []), String.ofList position⟩]
    let payload ← Prog.orThrow (encode [⟨old, position⟩]) .notDigestible
    if maxInversePayloadBytes < payload.length then pure (.none reads)
    else pure (.inverted ⟨.fs, payload, none⟩ reads)

/-- `plan::plan`. -/
def plan (intent : Intent) (_pre : ObjectSnapshot) : Except Adapter.Error PlannedDelta :=
  if intent.substrate ≠ .fs then .error (.notPlannable (.foreign intent.substrate))
  else
    let target := normalize intent.locator.toList
    if !isAbsolute target then
      .error (.notPlannable (.notFromRoot intent.locator.toList target))
    else
      match encode [⟨some intent.goal, target⟩] with
      | none => .error .notDigestible
      | some payload =>
        if maxForwardPayloadBytes < payload.length then
          .error (.notPlannable (.tooLarge payload.length))
        else .ok ⟨.fs, payload, some (contentDigest intent.goal)⟩

variable [Canon]

/-- `commutation::mint`: the delta of an operation as it is spelled at its position. -/
def mint (position : Text) (op : FsOp) : Except Adapter.Error DeltaRef :=
  match encode [⟨op.content, position⟩] with
  | none => .error .notDigestible
  | some payload => .ok (PlannedDelta.reference ⟨.fs, payload, none⟩)

/-- `commutation::commutation`. -/
def commutation (a b : PlannedDelta) : Except Adapter.Error Commutation := do
  let left ← operationOf a
  let right ← operationOf b
  if left.1 ≠ right.1 then return .commutes
  else return .conflicts (← mint right.1 right.2)

end Methods

end Tracefold.Fs
