import Mathlib.Tactic.Common
import Tracefold.Commit

/-! Undo, and the rebuilding of a committed row that another process left. -/

namespace Tracefold.Engine

open Library

variable [Canon]

inductive Unobservable where
  | noReceipt
  | noPostcondition
  | receiptUnreadable
  | launchAlreadyDecided
  | noArchive
  | worldUnreadable
  deriving DecidableEq, Repr

def Unobservable.reason : Unobservable → String
  | .noReceipt => "no archived commit receipt for the original"
  | .noPostcondition => "the commit receipt carries no postcondition"
  | .receiptUnreadable => "the archived commit receipt would not decode"
  | .launchAlreadyDecided => "the launch is already answered by another row"
  | .noArchive => "this deployment keeps no receipt archive"
  | .worldUnreadable => "the world could not be read when the undo probed it"

/-- What the caller of an undo holds against the world. -/
inductive UndoWitness where
  | attested (expected : Cid)
  | missing
  | unobservable (why : Unobservable)
  deriving DecidableEq, Repr

def UndoWitness.disposition : UndoWitness → Option UndoDisposition
  | .attested _ => some .attested
  | .unobservable why => some (.unobservable why.reason)
  | .missing => none

def observationSubstrate : String := "observation"

def isObservationSubstrate : SubstrateKind → Bool
  | .custom name => name = observationSubstrate
  | _ => false

/-- `Engine::undo_intent` over a row of the table and the inverse it escrowed. -/
def undoIntent (entry : Entry) (inverse : PlannedDelta) : Intent where
  substrate := entry.delta.substrate
  locator := entry.pre.locator
  goal := inverse.payload
  context := entry.transformation.context
  actor := entry.transformation.actor

/-- The committed row an undo starts from. -/
def undoable (original : TransformationId) : M Entry := do
  let e ← self
  match e.table[original]? with
  | none =>
    match e.shadow.state original with
    | some state => fail (.undo (.noBody state.name))
    | none => fail (.undo .notOurs)
  | some entry =>
    refuseIf (entry.state ≠ .committed) (.undo (.notCommitted entry.state.name))
    refuseIf (isObservationSubstrate entry.delta.substrate) .appendOnlyOrNotExecutable
    return entry

/-- The escrowed inverse an undo would apply. -/
def undoInverse (original : TransformationId) : M PlannedDelta := do
  let e ← self
  let row ← Prog.orThrow e.escrow[original]? (.err (.undo .noEscrow))
  match row.status with
  | .consumed _ => fail (.undo .alreadyUndone)
  | .pending => fail (.undo .inversePending)
  | _ =>
    let inverseCid ← Prog.orThrow row.inverseCid (.err (.undo .inverseUnavailable))
    blobGet inverseCid

/-- The world an undo finds is the one its witness attests. -/
def undoWitnessed (witness : UndoWitness) (fp0 : Fingerprint) : M Unit :=
  match witness with
  | .attested expected =>
    refuseIf (fp0.digest ≠ expected) (.undo (.worldMoved expected fp0.digest fp0.scope))
  | .missing => fail (.undo .witnessMissing)
  | .unobservable _ => pure ()

/-- The intent of an undo is drafted once. -/
def draftUndo (intentId : IntentId) (rngSeed : ℕ) (stamp : Timestamp) : M Unit := do
  let e ← self
  if intentId ∈ e.drafted then pure ()
  else
    recordThen (.draftCreated intentId rngSeed stamp) fun e =>
      { e with drafted := e.drafted.insert intentId rngSeed }

/-- The state an undo finds its own candidate in: of the table, or of the journal for an id this
process knows the intent resolved to. -/
def undoState (e : Engine) (intentId : IntentId) (id : TransformationId) : Option Lifecycle :=
  (e.table[id]?.map (·.state)) <|>
    if id ∈ e.resolvedAll intentId then e.journalState id else none

/-- A candidate of the table answered again keeps the witness it was planned with. -/
def sameWitness (id : TransformationId) (witness : UndoWitness) : M Unit := do
  let e ← self
  whenSome ((e.plannedRecord id).bind (·.1.undoWitness)) fun journalled =>
    refuseIf (witness.disposition ≠ some journalled) (.undo .witnessDiffers)

/-- What `undo` records. -/
def undoBody (intentId : IntentId) (transformation : Transformation) (inverse : PlannedDelta)
    (fp0 : Fingerprint) (pre : ObjectSnapshot) (inputGeneration : BoundaryStage)
    (witness : UndoWitness) : PlannedBody where
  intentId := intentId
  locator := pre.locator
  deltaCid := inverse.cid
  fp0 := .ofFingerprint fp0
  parents := transformation.parents
  inputGeneration := inputGeneration
  undoWitness := witness.disposition

/-- The `Planned` record of an undo and its row. -/
def planUndo (intentId : IntentId) (transformation : Transformation) (inverse : PlannedDelta)
    (fp0 : Fingerprint) (pre : ObjectSnapshot) (inputGeneration : BoundaryStage)
    (witness : UndoWitness) (stamp : Timestamp) : M Unit := do
  noteThen transformation.id
    (.planned (undoBody intentId transformation inverse fp0 pre inputGeneration witness)) stamp
    (remembered intentId transformation.id)
  blobPut inverse
  seat transformation.id (Entry.fresh intentId transformation inverse fp0 pre stamp)

def undo (original : TransformationId) (witness : UndoWitness) (rngSeed : ℕ) (stamp : Timestamp) :
    M (IntentId × TransformationId) := do
  let entry ← undoable original
  let inverse ← undoInverse original
  let substrate := entry.delta.substrate
  adapter substrate
  let pre ← queryOr "snapshot" fun w => w.snapshot substrate entry.pre.locator
  let fp0 ← queryOr "precondition" fun w => w.precondition substrate pre
  undoWitnessed witness fp0
  let intentId := Canon.intent (undoIntent entry inverse)
  draftUndo intentId rngSeed stamp
  let e ← self
  let inputGeneration := e.joinedInputGeneration substrate entry.transformation.actor
  let transformation ← Prog.orThrow
    (Transformation.new entry.transformation.subject none [original] intentId inverse.reference
      entry.transformation.context entry.transformation.actor stamp) (.err .transformation)
  match undoState e intentId transformation.id with
  | none =>
    planUndo intentId transformation inverse fp0 pre inputGeneration witness stamp
    return (intentId, transformation.id)
  | some .candidate =>
    if transformation.id ∈ e.table then
      sameWitness transformation.id witness
      return (intentId, transformation.id)
    else
      planUndo intentId transformation inverse fp0 pre inputGeneration witness stamp
      return (intentId, transformation.id)
  | some (.aborted _) =>
    planUndo intentId transformation inverse fp0 pre inputGeneration witness stamp
    return (intentId, transformation.id)
  | some state => fail (.undo (.alreadyPlanned state.name))

/-- The object a chain of undos is about: the provenance of its first transformation. -/
def rebuiltSubjectFrom (e : Engine) (sigma : Sigma) : ℕ → TransformationId → Option ObjectId
  | 0, _ => none
  | fuel + 1, id =>
    match (e.plannedRecord id).bind (·.1.parents.head?) with
    | some parent => rebuiltSubjectFrom e sigma fuel parent
    | none =>
      (sigma.stateOf id).bind (·.provenance) |>.bind (·.inputObjects.head?)

def rebuiltSubject (e : Engine) (sigma : Sigma) (id : TransformationId) : Option ObjectId :=
  rebuiltSubjectFrom e sigma (sigma.transformations.length + 1) id

/-- The promise of a rebuilt transformation: planned again for an intent of its own, none for an
undo. -/
def rebuiltTarget (substrate : SubstrateKind) (intent : Intent) (pre : ObjectSnapshot)
    (parents : List TransformationId) : M (Option Cid) := do
  if parents.isEmpty then
    let delta ← queryOr "plan" fun w => w.plan substrate intent pre
    return delta.promisedTarget
  else return none

/-- What `rehydrate_committed` seats: the row of the journal over a rebuilt transformation. -/
def Entry.ofRow (intentId : IntentId) (transformation : Transformation) (delta : PlannedDelta)
    (fp0 : Fingerprint) (pre : ObjectSnapshot) (row : StateRow) (provenance : Provenance)
    (createdAt : Timestamp) : Entry where
  intentId := intentId
  transformation := transformation
  state := row.state.getD .committed
  since := createdAt
  blockedBy := none
  delta := delta
  fp0 := fp0
  pre := pre
  verdict := row.verdict
  verdictDigest := row.verdictDigest
  enforced := row.enforced
  failPostureEngaged := row.failPostureEngaged
  canonicalCid := row.canonicalCid
  supersededBy := row.supersededBy
  applyStarted := row.applyStarted
  observationCid := row.observationCid
  rollback := row.rollback
  provenance := some provenance
  inverseCid := none
  appliedAt := none
  receipt := none

/-- A committed row seated again, with its escrow row and the edge to what superseded it. -/
def restored (id : TransformationId) (entry : Entry) (escrow : Option EscrowRow)
    (supersededBy : Option TransformationId) (e : Engine) : Engine :=
  { e with
    table := e.table.insert id entry
    escrow := match escrow with
      | some row => e.escrow.insert id row
      | none => e.escrow
    supersedes := match supersededBy with
      | some by_ => e.supersedes.insertIfNew id by_
      | none => e.supersedes }

/-- The rebuilding of a row the journal has `Committed` or `Superseded`. -/
def rehydrateRow (id : TransformationId) (intent : Intent) (row : StateRow) : M Unit := do
  let e ← self
  let sigma := reconstruct e.records
  let missing := fun what => Stop.err (.notFound what)
  let provenance ← Prog.orThrow row.provenance (missing "provenance for a committed transformation")
  let intentId ← Prog.orThrow row.intentId (missing "intent id")
  let deltaCid ← Prog.orThrow row.deltaCid (missing "planned delta reference")
  let delta ← blobGet deltaCid
  let fp0 ← Prog.orThrow (row.fp0.bind (·.intoFingerprint)) (missing "precondition fingerprint")
  let (planned, createdAt) ← Prog.orThrow (e.plannedRecord id) (missing "the Planned record")
  let subject ← Prog.orThrow (rebuiltSubject e sigma id)
    (missing "the subject snapshot in the provenance record")
  adapter delta.substrate
  let pre ← queryOr "snapshot" fun w => w.snapshot delta.substrate planned.locator
  let target ← rebuiltTarget delta.substrate intent pre planned.parents
  let transformation ← Prog.orThrow
    (Transformation.new (.object subject) target planned.parents intentId delta.reference
      intent.context intent.actor createdAt) (.err .transformation)
  refuseIf (transformation.id ≠ id) (.invalidState "Committed" "rehydrate")
  update (restored id (Entry.ofRow intentId transformation delta fp0 pre row provenance createdAt)
    (sigma.escrowOf id) row.supersededBy)

def rehydrateCommitted (id : TransformationId) (intent : Intent) : M Bool := do
  let e ← self
  if id ∈ e.table then return true
  else
    match (reconstruct e.records).stateOf id with
    | none => return false
    | some row =>
      if row.state = some .committed ∨ row.state = some .superseded then
        rehydrateRow id intent row
        return true
      else return false

end Tracefold.Engine
