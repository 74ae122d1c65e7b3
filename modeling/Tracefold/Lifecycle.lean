import Mathlib.Tactic.Common
import Tracefold.Engine

/-! The operations before a commit: submit, plan, verify, escalation, cancel, reap and
canonicalize. -/

namespace Tracefold.Engine

open Library

variable [Canon]

/-- `Engine::deadline_from`. -/
def deadlineFrom (e : Engine) (state : Lifecycle) (since : Timestamp) : Option Timestamp :=
  match state with
  | .candidate => some (saturatingAdd since e.config.verifyTtl)
  | .verifying => some (saturatingAdd since e.config.verifyTtl)
  | .escalated => some (saturatingAdd since e.config.escalationTtl)
  | _ => none

def shadowDeadline (e : Engine) (id : TransformationId) : Option Timestamp := do
  let state ← e.shadow.state id
  let since ← e.shadow.since[id]?
  e.deadlineFrom state since

/-- `Engine::deadline`: of the live row, or of the row the journal has. -/
def deadline (e : Engine) (id : TransformationId) : Option Timestamp :=
  (e.table[id]?.bind fun entry => e.deadlineFrom entry.state entry.since) <|> e.shadowDeadline id

def modifyEntry (id : TransformationId) (f : Entry → Entry) : M Unit := update (onEntry id f)

/-- `Engine::set_state`. -/
def Entry.at (dest : Lifecycle) (stamp : Timestamp) (entry : Entry) : Entry :=
  { entry with state := dest, since := stamp }

def seat (id : TransformationId) (entry : Entry) : M Unit :=
  update fun e => { e with table := e.table.insert id entry }

def abort (id : TransformationId) (reason : AbortReason) (rollback : Option Rollback)
    (stamp : Timestamp) : M Lifecycle := do
  noteThen id (.aborted reason rollback) stamp
    (onEntry id fun entry => Entry.at (.aborted reason) stamp { entry with rollback := rollback })
  return .aborted reason

def expireIfDue (id : TransformationId) (now : Timestamp) : M Bool := do
  let e ← self
  match e.deadline id with
  | none => return false
  | some due =>
    if now < due then return false
    else
      let _ ← abort id .expired none now
      return true

def submit (intent : Intent) (rngSeed : ℕ) (stamp : Timestamp) : M IntentId := do
  let intentId := Canon.intent intent
  let e ← self
  if intentId ∈ e.drafted then return intentId
  else
    recordThen (.draftCreated intentId rngSeed stamp) fun e =>
      { e with drafted := e.drafted.insert intentId rngSeed }
    return intentId

structure PlanShape where
  id : TransformationId
  transformation : Transformation
  delta : PlannedDelta
  fp0 : Fingerprint
  pre : ObjectSnapshot

/-- The half of `plan` that reads the world and writes nothing. -/
def planShape (intent : Intent) (stamp : Timestamp) : M PlanShape := do
  adapter intent.substrate
  let pre ← queryOr "snapshot" fun w => w.snapshot intent.substrate intent.locator
  let delta ← queryOr "plan" fun w => w.plan intent.substrate intent pre
  let fp0 ← queryOr "precondition" fun w => w.precondition intent.substrate pre
  let transformation ← Prog.orThrow
    (Transformation.new (.object pre.id) delta.promisedTarget [] (Canon.intent intent)
      delta.reference intent.context intent.actor stamp) (.err .transformation)
  return ⟨transformation.id, transformation, delta, fp0, pre⟩

/-- A row of the table as `plan` and `undo` first seat it. -/
def Entry.fresh (intentId : IntentId) (transformation : Transformation) (delta : PlannedDelta)
    (fp0 : Fingerprint) (pre : ObjectSnapshot) (stamp : Timestamp) : Entry where
  intentId := intentId
  transformation := transformation
  state := .candidate
  since := stamp
  blockedBy := none
  delta := delta
  fp0 := fp0
  pre := pre
  verdict := none
  verdictDigest := none
  enforced := true
  failPostureEngaged := false
  canonicalCid := none
  supersededBy := none
  applyStarted := none
  observationCid := none
  rollback := none
  provenance := none
  inverseCid := none
  appliedAt := none
  receipt := none

/-- A row of the table rebuilt over the row the journal has, if it has one. -/
def Entry.rehydrated (intentId : IntentId) (shape : PlanShape) (row : Option StateRow)
    (since : Timestamp) : Entry :=
  match row with
  | none => Entry.fresh intentId shape.transformation shape.delta shape.fp0 shape.pre since
  | some row =>
    { intentId := intentId
      transformation := shape.transformation
      state := row.state.getD .candidate
      since := since
      blockedBy := none
      delta := shape.delta
      fp0 := shape.fp0
      pre := shape.pre
      verdict := row.verdict
      verdictDigest := row.verdictDigest
      enforced := row.enforced
      failPostureEngaged := row.failPostureEngaged
      canonicalCid := row.canonicalCid
      supersededBy := row.supersededBy
      applyStarted := row.applyStarted
      observationCid := row.observationCid
      rollback := row.rollback
      provenance := row.provenance
      inverseCid := none
      appliedAt := none
      receipt := none }

def joinedInputGeneration (e : Engine) (substrate : SubstrateKind) (actor : Actor) :
    BoundaryStage :=
  match actor with
  | .agent _ _ => .llmOriginated
  | _ => (e.config.inputStages substrate).getD .unknown

def resolvedAll (e : Engine) (intentId : IntentId) : List TransformationId :=
  e.resolved[intentId]?.getD []

/-- `Engine::resolved`: the last id an intent resolved to. -/
def resolvedLast (e : Engine) (intentId : IntentId) : Option TransformationId :=
  (e.resolvedAll intentId).getLast?

/-- `Engine::remember_resolution`. -/
def remembered (intentId : IntentId) (id : TransformationId) (e : Engine) : Engine :=
  let seen := e.resolvedAll intentId
  { e with resolved := e.resolved.insert intentId (if id ∈ seen then seen else seen ++ [id]) }

/-- The state the journal gives a transformation. -/
def journalState (e : Engine) (id : TransformationId) : Option Lifecycle :=
  ((reconstruct e.records).stateOf id).bind (·.state)

/-- The first guard of `plan`: a row of the intent that has left `Candidate`. -/
def plannedAlready (e : Engine) (intentId : IntentId) : Option Entry :=
  (e.table.toList.map Prod.snd).find? fun entry => entry.intentId = intentId ∧ entry.state ≠ .candidate

/-- `plan` meets the last id the intent resolved to, without a row of the table. -/
def rehydrating (e : Engine) (intentId : IntentId) (id : TransformationId) : Bool :=
  e.resolvedLast intentId = some id ∧ id ∉ e.table

/-- The second guard of `plan`: the last id the intent resolved to, when it is another one and
has no row of the table, and the journal has it past `Candidate`. -/
def resolvedAlready (e : Engine) (intentId : IntentId) (id : TransformationId) :
    Option Lifecycle := do
  let recorded ← e.resolvedLast intentId
  if e.rehydrating intentId id ∨ recorded ∈ e.table then none
  else
    let state ← e.journalState recorded
    if state = .candidate then none else some state

/-- The road of `plan` that journals nothing. -/
def rehydrate (intentId : IntentId) (shape : PlanShape) (stamp : Timestamp) :
    M TransformationId := do
  blobPut shape.delta
  let e ← self
  seat shape.id (Entry.rehydrated intentId shape ((reconstruct e.records).stateOf shape.id)
    (e.shadow.since[shape.id]?.getD stamp))
  return shape.id

/-- What `plan` records. -/
def plannedBody (e : Engine) (intent : Intent) (shape : PlanShape) : PlannedBody where
  intentId := Canon.intent intent
  locator := intent.locator
  deltaCid := shape.delta.cid
  fp0 := .ofFingerprint shape.fp0
  parents := shape.transformation.parents
  inputGeneration := e.joinedInputGeneration intent.substrate intent.actor
  undoWitness := none

/-- The road of `plan` that journals a `Planned` record. -/
def planAnew (intent : Intent) (shape : PlanShape) (stamp : Timestamp) : M TransformationId := do
  let e ← self
  noteThen shape.id (.planned (plannedBody e intent shape)) stamp
    (remembered (Canon.intent intent) shape.id)
  blobPut shape.delta
  seat shape.id
    (Entry.fresh (Canon.intent intent) shape.transformation shape.delta shape.fp0 shape.pre stamp)
  return shape.id

def plan (intent : Intent) (stamp : Timestamp) : M TransformationId := do
  let intentId := Canon.intent intent
  let e ← self
  refuseIf (intentId ∉ e.drafted) (.notFound "draft")
  match e.plannedAlready intentId with
  | some existing => fail (.invalidState existing.state.name "plan")
  | none =>
    let shape ← planShape intent stamp
    let e ← self
    match e.resolvedAlready intentId shape.id with
    | some state => fail (.invalidState state.name "plan")
    | none =>
      if e.rehydrating intentId shape.id then rehydrate intentId shape stamp
      else planAnew intent shape stamp

/-- The last `Planned` record of a transformation, with its clock. -/
def plannedRecord (e : Engine) (id : TransformationId) : Option (PlannedBody × Timestamp) :=
  e.records.reverse.findSome? fun
    | .about t (.planned body) stamp => if t = id then some (body, stamp) else none
    | _ => none

def journalledInputGeneration (e : Engine) (id : TransformationId) : BoundaryStage :=
  ((e.plannedRecord id).map (·.1.inputGeneration)).getD .unknown

def journalledUndo (e : Engine) (id : TransformationId) : Option UndoAttestation := do
  let (body, _) ← e.plannedRecord id
  let undoes ← body.parents.head?
  let witness ← body.undoWitness
  return ⟨undoes, witness⟩

/-- The state of a row that is not out of the way of another on the same subject. -/
def inFlight (state : Lifecycle) (mode : EnforcementMode) : Bool :=
  match state with
  | .draft => false
  | .candidate => false
  | .denied => mode = .recordOnly
  | state => !state.isTerminal

def firstConflict (kind : SubstrateKind) (delta : PlannedDelta) (mode : EnforcementMode) :
    List (TransformationId × Entry) → M (Option TransformationId)
  | [] => return none
  | (otherId, other) :: rest => do
    if inFlight other.state mode then
      match ← queryOr "commutation" fun w => w.commutation kind other.delta delta with
      | .conflicts _ => return some otherId
      | .commutes => firstConflict kind delta mode rest
    else firstConflict kind delta mode rest

def conflictingPredecessor (id : TransformationId) (mode : EnforcementMode) :
    M (Option TransformationId) := do
  let e ← self
  match e.table[id]? with
  | none => return none
  | some this =>
    adapter this.delta.substrate
    firstConflict this.delta.substrate this.delta mode
      (e.table.toList.filter fun (otherId, other) =>
        otherId ≠ id ∧ other.transformation.subject = this.transformation.subject)

/-- `Engine::issue_verdict_receipt`; the receipt itself is held in memory only. -/
def issueVerdictReceipt (id : TransformationId) (verdict : Option VerdictSummary)
    (stamp : Timestamp) (key : KeyId) : M Unit := do
  let e ← self
  match e.table[id]? with
  | none => pure ()
  | some entry =>
    let payload : ReceiptPayload :=
      { keyId := key
        verdict := verdict
        enforced := entry.enforced
        confinement := some e.config.confinement
        catalogueHash := none
        readSet := none
        reversibility := none
        undo := none
        determinismBoundary :=
          attestedBoundary (e.journalledInputGeneration id) verdict.isSome
        receiptKind := .verdictReceipt
        canonicalCid := id
        inverseDelta := none
        transformation := id
        inclusionProof := none
        fingerprintScope := entry.fp0.scope
        failPostureEngaged := entry.failPostureEngaged
        preconditionFingerprint := entry.fp0.digest
        postconditionFingerprint := none
        payloadVersion := some 1
        engineVersion := some e.config.version }
    match Receipt.issue payload stamp key with
    | .error _ => fail (.witness "issue the verdict receipt")
    | .ok _ => update fun e => { e with verdicts := e.verdicts.count (verdict.map (·.kind)) }

def unreachableCollector (id : TransformationId) (stamp : Timestamp) (key : KeyId) :
    M Lifecycle := do
  let e ← self
  match e.config.posture with
  | .failClosed =>
    noteThen id (.aborted .verifierUnavailable none) stamp
      (onEntry id (Entry.at (.aborted .verifierUnavailable) stamp))
    return .aborted .verifierUnavailable
  | .failOpen =>
    noteThen id (.verdict .Admit none true) stamp (onEntry id fun entry =>
      Entry.at .admitted stamp
        { entry with
          verdict := none
          verdictDigest := none
          enforced := false
          failPostureEngaged := true })
    issueVerdictReceipt id none stamp key
    return .admitted

/-- The row of the table an operation is about. -/
def entryOf (id : TransformationId) : M Entry := do
  let e ← self
  Prog.orThrow e.table[id]? (.err (.notFound "transformation"))

/-- The part of `verify` after the row went to `Verifying`. -/
def gateRuling (id : TransformationId) (stamp : Timestamp) (key : KeyId) : M Lifecycle := do
  let entry ← entryOf id
  match ← query fun w => w.collect entry.transformation entry.pre with
  | .error _ => unreachableCollector id stamp key
  | .ok evidence =>
    adapter entry.delta.substrate
    let outcome ← queryOr "invert" fun w => w.invert entry.delta.substrate entry.delta entry.pre
    let answered ← query fun w => w.gate
      ⟨entry.transformation, entry.pre, entry.delta.payload, evidence, stamp,
        outcome.inverse.isSome⟩
    match answered with
    | .error _ =>
      noteThen id (.aborted .internalError none) stamp
        (onEntry id (Entry.at (.aborted .internalError) stamp))
      return .aborted .internalError
    | .ok verdict =>
      let digest ← Prog.orThrow verdict.proofDigest (.err .malformed)
      noteThen id (.verdict verdict.kind (some digest) false) stamp (onEntry id fun entry =>
        Entry.at (stateOfVerdict verdict.kind) stamp
          { entry with verdict := some verdict.kind, verdictDigest := some digest })
      issueVerdictReceipt id (some ⟨verdict.kind, digest⟩) stamp key
      return stateOfVerdict verdict.kind

/-- A row that waited for another: the other committed, or the wait is over. -/
def unblock (id : TransformationId) (blockedBy : Option TransformationId) : M Unit :=
  whenSome blockedBy fun blocker => do
    let e ← self
    refuseIf (e.table[blocker]?.map (·.state) = some .committed)
      (.invalidState "Candidate (blocked)"
        "verify after a conflicting commit; 43 §8 forces a re-plan")
    modifyEntry id fun entry => { entry with blockedBy := none }

def verify (id : TransformationId) (stamp : Timestamp) (key : KeyId)
    (mode : Option EnforcementMode) : M Lifecycle := do
  let e ← self
  let mode := mode.getD e.config.mode
  let _ ← expireIfDue id stamp
  let entry ← entryOf id
  refuseIf (entry.state ≠ .candidate) (.invalidState entry.state.name "verify")
  unblock id entry.blockedBy
  match ← conflictingPredecessor id mode with
  | some blocker =>
    modifyEntry id fun entry => { entry with blockedBy := some blocker }
    return .candidate
  | none =>
    noteThen id .verifyStarted stamp (onEntry id (Entry.at .verifying stamp))
    gateRuling id stamp key

/-- The Unicode `White_Space` property, which `str::trim` goes by. -/
def isWhiteSpace (c : Char) : Bool :=
  let n := c.toNat
  (9 ≤ n ∧ n ≤ 13) ∨ n = 0x20 ∨ n = 0x85 ∨ n = 0xA0 ∨ n = 0x1680 ∨ (0x2000 ≤ n ∧ n ≤ 0x200A) ∨
    n = 0x2028 ∨ n = 0x2029 ∨ n = 0x202F ∨ n = 0x205F ∨ n = 0x3000

def escalation (id : TransformationId) (ruling : HumanRuling) (stamp : Timestamp) (key : KeyId) :
    M Lifecycle := do
  let _ ← expireIfDue id stamp
  let entry ← entryOf id
  refuseIf (entry.state ≠ .escalated) (.invalidState entry.state.name "escalation")
  refuseIf (ruling.decision = .Escalate)
    (.invalidState "Escalated" "escalation(Escalate); 42 §3.13 admits Admit and Deny only")
  refuseIf (ruling.reason.toList.all isWhiteSpace) .malformed
  let proofDigest := Canon.ruling ruling
  noteThen id (.humanDecision ruling.decision ruling.reason ruling.actor (some proofDigest)) stamp
    (onEntry id fun entry =>
      Entry.at (stateOfVerdict ruling.decision) stamp
        { entry with verdict := some ruling.decision, verdictDigest := some proofDigest })
  issueVerdictReceipt id (some ⟨ruling.decision, proofDigest⟩) stamp key
  return stateOfVerdict ruling.decision

def cancel (id : TransformationId) (stamp : Timestamp) : M Lifecycle := do
  let _ ← expireIfDue id stamp
  let entry ← entryOf id
  match entry.state with
  | .aborted reason => return .aborted reason
  | .candidate | .verifying | .admitted | .canonicalized | .escalated =>
    abort id .ownerCancelled none stamp
  | state => fail (.invalidState state.name "cancel")

def reapEach (now : Timestamp) : List TransformationId → M (List TransformationId)
  | [] => return []
  | id :: rest => do
    let due ← expireIfDue id now
    let expired ← reapEach now rest
    return if due then id :: expired else expired

def reap (now : Timestamp) : M (List TransformationId) := do
  let e ← self
  let expired ← reapEach now (e.table.keys ++ e.shadow.rows.keys.filter (· ∉ e.table))
  return expired.insertionSort fun a b => (compare a b).isLE

def canonicalize (id : TransformationId) (stamp : Timestamp) (mode : Option EnforcementMode) :
    M Lifecycle := do
  let _ ← expireIfDue id stamp
  let entry ← entryOf id
  if entry.state = .canonicalized then return .canonicalized
  else
    let e ← self
    let recordOnly := mode.getD e.config.mode = .recordOnly
    refuseIf (¬ (entry.state = .admitted ∨ entry.state = .denied ∧ recordOnly))
      (.invalidState entry.state.name "canonicalize")
    let bytes ← queryOr "canonical form" fun w => w.canonicalForm entry.transformation
    refuseIf (Canon.isCanonical bytes = false) .notIdempotent
    let canonicalCid := entry.transformation.cid
    let enforced := if entry.state = .denied ∨ !entry.enforced then some false else none
    noteThen id (.canonicalized canonicalCid enforced) stamp (onEntry id fun entry =>
      Entry.at .canonicalized stamp
        { entry with
          canonicalCid := some canonicalCid
          enforced := if enforced = some false then false else entry.enforced })
    return .canonicalized

end Tracefold.Engine
