import Mathlib.Tactic.Common
import Tracefold.Lifecycle

/-! The commit critical section, from T-9 to the ledger leaf and the `Committed` record. -/

namespace Tracefold.Engine

open Library

variable [Canon]

/-- The verdict a commit receipt carries: a whole pair, or none under an engaged fail posture. -/
def receiptVerdict (verdict : Option VerdictKind) (digest : Option Cid)
    (failPostureEngaged : Bool) : Option (Option VerdictSummary) :=
  match verdict, digest with
  | some kind, some proofDigest => some (some ⟨kind, proofDigest⟩)
  | none, none => if failPostureEngaged then some none else none
  | _, _ => none

/-- What a commit receipt says that is not the same in every commit receipt. -/
structure CommitFacts where
  keyId : KeyId
  verdict : Option VerdictSummary
  enforced : Bool
  confinement : Option ConfinementContext
  readSet : ReadSet
  reversibility : Option Reversibility
  undo : Option UndoAttestation
  inputGeneration : BoundaryStage
  canonicalCid : Cid
  inverseDelta : Option Cid
  transformation : TransformationId
  fingerprintScope : String
  failPostureEngaged : Bool
  preconditionFingerprint : Cid
  postconditionFingerprint : Cid
  engineVersion : Option String
  deriving DecidableEq, Repr

/-- The payload of a commit receipt before it has an inclusion proof. -/
def CommitFacts.payload (f : CommitFacts) : ReceiptPayload where
  keyId := f.keyId
  verdict := f.verdict
  enforced := f.enforced
  confinement := f.confinement
  catalogueHash := none
  readSet := some f.readSet
  reversibility := f.reversibility
  undo := f.undo
  determinismBoundary := attestedBoundary f.inputGeneration f.verdict.isSome
  receiptKind := .commitReceipt
  canonicalCid := f.canonicalCid
  inverseDelta := f.inverseDelta
  transformation := f.transformation
  inclusionProof := none
  fingerprintScope := f.fingerprintScope
  failPostureEngaged := f.failPostureEngaged
  preconditionFingerprint := f.preconditionFingerprint
  postconditionFingerprint := some f.postconditionFingerprint
  payloadVersion := some 1
  engineVersion := f.engineVersion

def deriveProvenance (e : Engine) (entry : Entry) : Provenance where
  environment :=
    { hostId := none
      adapterKind := entry.delta.substrate
      correlationId := none
      engineVersion := e.config.version
      adapterVersion := (e.config.adapters entry.delta.substrate).getD ""
      confinement := some e.config.confinement }
  inputObjects := [entry.pre.id]
  intentDigest :=
    if entry.transformation.parents.isEmpty then some entry.transformation.intentId else none
  transformation := entry.transformation.id

/-- T-9: these two records are appended to the journal alone, not through `journal_append`. -/
def startCommitting (id : TransformationId) (entry : Entry) (stamp : Timestamp) : M Unit := do
  appendThen (.about id .committingStarted stamp) (onEntry id (Entry.at .committing stamp))
  let e ← self
  let provenance := deriveProvenance e entry
  appendThen (.about id (.provenanceDerived provenance) stamp)
    (onEntry id fun entry => { entry with provenance := some provenance })

/-- A reading of an object's fingerprint. -/
def measure (kind : SubstrateKind) (locator : String) : M Fingerprint := do
  let snap ← queryOr "snapshot" fun w => w.snapshot kind locator
  queryOr "precondition" fun w => w.precondition kind snap

/-- The compare of the compare-and-swap: `none` to go on, or the state of the aborted row. -/
def casGuard (id : TransformationId) (entry : Entry) (stamp : Timestamp) :
    M (Option Lifecycle) := do
  let fp1 ← measure entry.delta.substrate entry.pre.locator
  match entry.fp0.casEq fp1 with
  | some true => return none
  | some false => return some (← abort id .preconditionChanged none stamp)
  | none => return some (← abort id .internalError none stamp)

/-- An escrowed inverse, and whether it still waits for its observation. -/
structure Escrowed where
  inverse : PlannedDelta
  pending : Bool

def insertEscrow (id : TransformationId) (row : EscrowRow) : M Unit :=
  update fun e => { e with escrow := e.escrow.insert id row }

/-- What T-10b records of an inversion. -/
def escrowBody (outcome : InvertOutcome) (pending : Bool) : EscrowBody :=
  match outcome.inverse with
  | some inverse => ⟨some inverse.cid, pending, outcome.reads, true, false⟩
  | none => ⟨none, false, outcome.reads, true, outcome.verdict = .unknown⟩

/-- The escrow row of an inversion. -/
def escrowRow (id : TransformationId) (outcome : InvertOutcome) (pending : Bool) : EscrowRow :=
  match outcome.inverse with
  | some inverse => ⟨id, some inverse.cid, if pending then .pending else .available⟩
  | none => ⟨id, none, if outcome.verdict = .unknown then .undetermined else .unavailable⟩

/-- T-10b. -/
def escrowInverse (id : TransformationId) (entry : Entry) (outcome : InvertOutcome)
    (stamp : Timestamp) : M (Option Escrowed) := do
  match outcome.inverse with
  | some inverse =>
    let pending ← needs inverse
    noteThen id (.inverseEscrowed (escrowBody outcome pending)) stamp fun e => e
    blobPut inverse
    insertEscrow id (escrowRow id outcome pending)
    modifyEntry id fun entry => { entry with inverseCid := some inverse.cid }
    return some ⟨inverse, pending⟩
  | none =>
    noteThen id (.inverseEscrowed (escrowBody outcome false)) stamp fun e => e
    insertEscrow id (escrowRow id outcome false)
    return none
where
  needs (inverse : PlannedDelta) : M Bool := do
    let e ← self
    if e.config.completions entry.delta.substrate then
      queryOr "needs_completion" fun w => w.needsCompletion entry.delta.substrate inverse
    else return false

/-- The escrowed body is readable before anything is applied. -/
def requireBody (escrowed : Option Escrowed) : M Unit :=
  whenSome escrowed fun held => do
    let s ← Prog.get
    refuseIf (blobOf s.disk held.inverse.cid = none) .malformed

/-- `Engine::apply_once`, in the history under the transformation it is made for. -/
def applyOnce (id : TransformationId) (kind : SubstrateKind) (delta : PlannedDelta) :
    M (Except String AppliedDelta) := do
  let w ← Prog.ask
  let s ← Prog.get
  match (w s.history).fault with
  | .crash =>
    Prog.modify fun s => { s with history := s.history ++ [.crashed] }
    Prog.throw .crash
  | _ =>
    let answer := (w s.history).apply kind delta
    Prog.modify fun s => { s with history := s.history ++ [.apply id delta answer] }
    return answer

/-- `ApplyStarted`, then the apply it announces. -/
def announceApply (id : TransformationId) (kind : SubstrateKind) (delta : PlannedDelta)
    (stamp : Timestamp) : M (Except String AppliedDelta) := do
  noteThen id (.applyStarted delta.cid) stamp
    (onEntry id fun entry => { entry with applyStarted := some delta.cid })
  applyOnce id kind delta

/-- `Engine::read_world`: an unreadable world is `none`. -/
def readWorld (kind : SubstrateKind) (locator : String) : M (Option Fingerprint) := do
  match ← query fun w => w.snapshot kind locator with
  | .error _ => return none
  | .ok guard =>
    match ← query fun w => w.precondition kind guard with
    | .error _ => return none
    | .ok fp => return some fp

inductive CompensationVerdict where
  | unreadable
  | nothingToTakeBack
  | takeBackFrom (left : Fingerprint)

def worldTheFailedApplyLeft (entry : Entry) : M CompensationVerdict := do
  match ← readWorld entry.delta.substrate entry.pre.locator with
  | none => return .unreadable
  | some fp =>
    match entry.fp0.casEq fp with
    | some true => return .nothingToTakeBack
    | some false => return .takeBackFrom fp
    | none => return .unreadable

def worldIsStillAt (entry : Entry) (expected : Fingerprint) : M (Option Bool) := do
  match ← readWorld entry.delta.substrate entry.pre.locator with
  | none => return none
  | some fp => return expected.casEq fp

def rollbackLanded (entry : Entry) : M Rollback := do
  match ← readWorld entry.delta.substrate entry.pre.locator with
  | none => return .failed
  | some fp =>
    match entry.fp0.casEq fp with
    | some true => return .succeeded
    | some false => return .diverged
    | none => return .failed

/-- No compensation was attempted, and why. -/
def notAttempted (id : TransformationId) (why : NotAttemptedBecause) : M Rollback := do
  update fun e => { e with notAttemptedBecause := e.notAttemptedBecause.insert id why }
  return .notAttempted

/-- T-10c after a failed apply: the escrowed inverse, over the world the failed apply left and
over no other. -/
def compensate (id : TransformationId) (entry : Entry) (escrowed : Option Escrowed)
    (stamp : Timestamp) : M Rollback := do
  match escrowed with
  | none => notAttempted id .noInverseWasEscrowed
  | some ⟨_, true⟩ => notAttempted id .escrowStillPartial
  | some ⟨inverse, false⟩ =>
    match ← worldTheFailedApplyLeft entry with
    | .unreadable => notAttempted id .worldCouldNotBeRead
    | .nothingToTakeBack => notAttempted id .worldNeverMoved
    | .takeBackFrom left =>
      match ← worldIsStillAt entry left with
      | none => notAttempted id .worldCouldNotBeRead
      | some false => notAttempted id .worldMovedBeneath
      | some true =>
        match ← announceApply id entry.delta.substrate inverse stamp with
        | .ok _ => rollbackLanded entry
        | .error _ => return .failed

def recordObservation (id : TransformationId) (bytes : Bytes) (stamp : Timestamp) : M Unit := do
  noteThen id (.applyObserved (Canon.observation bytes)) stamp fun e => e
  observationPut bytes
  modifyEntry id fun entry => { entry with observationCid := some (Canon.observation bytes) }

/-- The inverse a completion makes of a partial one and its observation. -/
def completedInverse (partialInverse : Option PlannedDelta) (observation : Option Bytes) :
    M (Option PlannedDelta) := do
  match partialInverse, observation with
  | some inverse, some bytes =>
    let e ← self
    if e.config.completions inverse.substrate then
      match ← query fun w => w.completeInverse inverse bytes with
      | .ok full => return full
      | .error _ => return none
    else return none
  | _, _ => return none

def settlePendingEscrow (id : TransformationId) (partialInverse : Option PlannedDelta)
    (observation : Option Bytes) (stamp : Timestamp) : M (Option Cid) := do
  match ← completedInverse partialInverse observation with
  | some full =>
    noteThen id (.inverseCompleted (some full.cid)) stamp fun e => e
    blobPut full
    insertEscrow id ⟨id, some full.cid, .available⟩
    modifyEntry id fun entry => { entry with inverseCid := some full.cid }
    return some full.cid
  | none =>
    noteThen id (.inverseCompleted none) stamp fun e => e
    insertEscrow id ⟨id, none, .unavailable⟩
    modifyEntry id fun entry => { entry with inverseCid := none }
    return none

/-- The inverse a receipt names: of a pending escrow, what it settles to. -/
def finalInverse (id : TransformationId) (escrowed : Option Escrowed) (applied : AppliedDelta)
    (stamp : Timestamp) : M (Option Cid) := do
  match escrowed with
  | none => return none
  | some ⟨inverse, false⟩ => return some inverse.cid
  | some ⟨inverse, true⟩ =>
    match applied.observation with
    | none => settlePendingEscrow id (some inverse) none stamp
    | some bytes =>
      if bytes.length ≤ maxObservationBytes then
        recordObservation id bytes stamp
        settlePendingEscrow id (some inverse) (some bytes) stamp
      else settlePendingEscrow id (some inverse) none stamp

/-- The original that a committed undo supersedes. -/
def supersededOriginal (e : Engine) (id : TransformationId) : Option TransformationId := do
  let entry ← e.table[id]?
  entry.transformation.parents.find? fun parent =>
    match e.escrow[parent]?, e.table[parent]? with
    | some row, some original =>
      row.inverseCid = some entry.delta.cid ∧ row.status = .available ∧
        original.state = .committed ∧
        original.transformation.subject = entry.transformation.subject ∧
        parent ∉ e.supersedes
    | _, _ => false

def supersedeAfterCommit (id : TransformationId) (stamp : Timestamp) :
    M (Option TransformationId) := do
  let e ← self
  match supersededOriginal e id with
  | none => return none
  | some original =>
    noteThen original (.superseded id) stamp fun e =>
      onEntry original (fun entry => Entry.at .superseded stamp { entry with supersededBy := some id })
        { e with
          supersedes := e.supersedes.insertIfNew original id
          escrow := e.escrow.modify original fun row => { row with status := .consumed id } }
    return some original

/-- A receipt issued over a payload, for an operation that cannot do without it. -/
def issueOr (action : String) (payload : ReceiptPayload) (stamp : Timestamp) (key : KeyId) :
    M Receipt :=
  match Receipt.issue payload stamp key with
  | .ok receipt => pure receipt
  | .error _ => fail (.witness action)

/-- What the live commit attests. -/
def liveFacts (e : Engine) (id : TransformationId) (entry live : Entry) (canonicalCid : Cid)
    (verdict : Option VerdictSummary) (outcome : InvertOutcome) (inverse : Option Cid)
    (applied : AppliedDelta) (key : KeyId) : CommitFacts where
  keyId := key
  verdict := verdict
  enforced := live.enforced
  confinement := some e.config.confinement
  readSet := .fromReads outcome.reads
  reversibility := some outcome.verdict
  undo := e.journalledUndo id
  inputGeneration := e.journalledInputGeneration id
  canonicalCid := canonicalCid
  inverseDelta := inverse
  transformation := id
  fingerprintScope := entry.fp0.scope
  failPostureEngaged := live.failPostureEngaged
  preconditionFingerprint := entry.fp0.digest
  postconditionFingerprint := applied.postcondition.digest
  engineVersion := some e.config.version

/-- The `Committed` record over a leaf, and the index of it. -/
def recordCommitted (id : TransformationId) (leaf : LedgerEntry) (stamp : Timestamp) : M Unit :=
  noteThen id (.committed leaf.index) stamp fun e =>
    { e with committed := e.committed.insert id leaf.index }

/-- T-11: the leaf, the receipt filed, the `Committed` record, the head, and the supersede edge. -/
def closeCommit (id : TransformationId) (facts : CommitFacts) (stamp : Timestamp) (key : KeyId) :
    M Lifecycle := do
  let leaf ← ledgerAppend id facts.payload.ledgerDigest stamp
  let e ← self
  let proof ← Prog.orThrow (proveInclusion e.ledger leaf.index) (.err (.ledger "prove inclusion"))
  let receipt ←
    issueOr "issue the receipt" { facts.payload with inclusionProof := some proof } stamp key
  fileReceipt id receipt
  recordCommitted id leaf stamp
  recordHead key
  modifyEntry id fun entry =>
    Entry.at .committed stamp { entry with appliedAt := some stamp, receipt := some receipt }
  let _ ← supersedeAfterCommit id stamp
  return .committed

/-- After an apply that answered: the escrow settles, and a promise made has to have been kept. -/
def settleApplied (id : TransformationId) (entry : Entry) (canonicalCid : Cid)
    (verdict : Option VerdictSummary) (outcome : InvertOutcome) (escrowed : Option Escrowed)
    (applied : AppliedDelta) (stamp : Timestamp) (key : KeyId) : M Lifecycle := do
  let inverse ← finalInverse id escrowed applied stamp
  let live ← entryOf id
  if live.transformation.target.any fun promised => promised ≠ applied.resultingDigest then
    let rollback ← notAttempted id .promisedPostStateWasWrong
    abort id .postconditionMismatch (some rollback) stamp
  else
    let e ← self
    closeCommit id
      (liveFacts e id entry live canonicalCid verdict outcome inverse applied key) stamp key

/-- From the escrow to the apply, over a precondition read twice. -/
def commitEscrow (id : TransformationId) (entry : Entry) (canonicalCid : Cid)
    (verdict : Option VerdictSummary) (stamp : Timestamp) (key : KeyId) : M Lifecycle := do
  let outcome ← queryOr "invert" fun w => w.invert entry.delta.substrate entry.delta entry.pre
  let escrowed ← escrowInverse id entry outcome stamp
  requireBody escrowed
  match ← casGuard id entry stamp with
  | some state => return state
  | none =>
    match ← announceApply id entry.delta.substrate entry.delta stamp with
    | .error _ =>
      let rollback ← compensate id entry escrowed stamp
      abort id .applyFailed (some rollback) stamp
    | .ok applied =>
      settleApplied id entry canonicalCid verdict outcome escrowed applied stamp key

/-- The commit of a row that is `Canonicalized`. -/
def commitCanonicalized (id : TransformationId) (entry : Entry) (stamp : Timestamp) (key : KeyId) :
    M Lifecycle := do
  let canonicalCid ←
    Prog.orThrow entry.canonicalCid (.err (.invalidState entry.state.name "commit"))
  let verdict ← Prog.orThrow
    (receiptVerdict entry.verdict entry.verdictDigest entry.failPostureEngaged)
    (.err .unrepresentable)
  adapter entry.delta.substrate
  startCommitting id entry stamp
  match ← casGuard id entry stamp with
  | some state => return state
  | none => commitEscrow id entry canonicalCid verdict stamp key

def commit (id : TransformationId) (stamp : Timestamp) (key : KeyId) : M Lifecycle := do
  let _ ← expireIfDue id stamp
  let entry ← entryOf id
  match entry.state with
  | .committed => return .committed
  | .committing => return .committing
  | .canonicalized => commitCanonicalized id entry stamp key
  | state => fail (.invalidState state.name "commit")

end Tracefold.Engine
