import Mathlib.Tactic.Common
import Tracefold.Undo

/-! Recovery: the rows a crash left in `Committing`, and the receipt of a commit issued again. -/

namespace Tracefold.Engine

open Library

variable [Canon]

inductive RecoveryPath where
  | terminal
  | nothingWasApplied
  | applyWasAnnounced
  | ledgerHeldTheCommit
  | closedFromFiledReceipt
  | closedFromLedgerLeaf
  | notResumed
  deriving DecidableEq, Repr

inductive Refusal where
  | ledgerMovedOn
  | recoveryKeyMismatch
  | recoveryRebuildDisagrees
  | journalDeparted
  | rolledBack
  deriving DecidableEq, Repr

structure Recovered where
  transformation : TransformationId
  path : RecoveryPath
  state : Lifecycle
  ledgerSeq : Option ℕ
  refusal : Option Refusal
  deriving DecidableEq, Repr

def Recovered.closed (id : TransformationId) (path : RecoveryPath) (state : Lifecycle)
    (ledgerSeq : Option ℕ) : Recovered :=
  ⟨id, path, state, ledgerSeq, none⟩

/-- The reversibility a recorded escrow status stands for. No writer of the source records
`Expired`, where the source panics. -/
def rebuiltReversibility : InverseStatus → Reversibility
  | .unavailable => .false
  | .undetermined => .unknown
  | _ => .true

/-- The reads of a transformation's escrow, from the first record of it in the journal. -/
def recordedReads (e : Engine) (id : TransformationId) : Option (List ReadEntry × Bool) :=
  e.records.findSome? fun
    | .about t (.inverseEscrowed body) _ =>
      if t = id then some (body.reads, body.readsAttested) else none
    | _ => none

def rebuiltReadSet (e : Engine) (id : TransformationId) : ReadSet :=
  match recordedReads e id with
  | some (reads, attested) =>
    if attested || !reads.isEmpty then .fromReads reads else .readsNotJournalled
  | none => .noEscrowRecord

/-- What a rebuilt receipt attests: the row the journal folds to, and a postcondition read now. -/
def rebuiltFacts (e : Engine) (row : StateRow) (canonicalCid : Cid) (fp0 : FingerprintRecord)
    (verdict : Option VerdictSummary) (inverse : Option Cid) (status : Option InverseStatus)
    (postcondition : Fingerprint) (keyId : KeyId) : CommitFacts where
  keyId := keyId
  verdict := verdict
  enforced := row.enforced
  confinement := row.provenance.bind (·.environment.confinement)
  readSet := rebuiltReadSet e row.transformation
  reversibility := status.map rebuiltReversibility
  undo := e.journalledUndo row.transformation
  inputGeneration := e.journalledInputGeneration row.transformation
  canonicalCid := canonicalCid
  inverseDelta := inverse
  transformation := row.transformation
  fingerprintScope := fp0.scope
  failPostureEngaged := row.failPostureEngaged
  preconditionFingerprint := fp0.digest
  postconditionFingerprint := postcondition.digest
  engineVersion := row.provenance.map (·.environment.engineVersion)

/-- A row closed by a leaf the ledger already holds: the `Committed` record and the head. -/
def closeOnLeaf (id : TransformationId) (leaf : LedgerEntry) (stamp : Timestamp) (key : KeyId) :
    M Unit := do
  recordCommitted id leaf stamp
  update fun e => { e with resumedRows := e.resumedRows + 1 }
  recordHead key

/-- Nothing can be rebuilt, or nothing was applied: the row is aborted. -/
def giveUp (id : TransformationId) (stamp : Timestamp) : M Recovered := do
  let state ← abort id .internalError none stamp
  return .closed id .nothingWasApplied state none

/-- The material a rebuilt receipt needs of the row. -/
structure Material where
  deltaCid : Cid
  canonicalCid : Cid
  fp0 : FingerprintRecord

def material (row : StateRow) : Option Material := do
  let deltaCid ← row.deltaCid
  let canonicalCid ← row.canonicalCid
  let fp0 ← row.fp0
  return ⟨deltaCid, canonicalCid, fp0⟩

/-- The inverse a recovered row is closed with: a pending escrow settles first. -/
def resumedInverse (row : StateRow) (escrowRow : Option EscrowRow) (stamp : Timestamp) :
    M (Option Cid) := do
  match escrowRow with
  | none => return none
  | some held =>
    if held.status = .pending then
      let s ← Prog.get
      settlePendingEscrow row.transformation (held.inverseCid.bind (blobOf s.disk))
        (row.observationCid.bind (observationOf s.disk)) stamp
    else return held.inverseCid

/-- The tail of a resumed row: the receipt, unless one is filed, and the `Committed` record. -/
def closeResumed (id : TransformationId) (facts : CommitFacts) (leaf : LedgerEntry)
    (filed : Option KeyId) (stamp : Timestamp) (key : KeyId) : M Unit := do
  let e ← self
  let proof ← Prog.orThrow (proveInclusion e.ledger leaf.index) (.err (.ledger "prove inclusion"))
  if filed.isNone then
    let issued ←
      issueOr "re-issue the receipt" { facts.payload with inclusionProof := some proof } stamp key
    fileReceipt id issued
    closeOnLeaf id leaf stamp key
  else closeOnLeaf id leaf stamp key

/-- A row whose leaf the ledger holds, read again: closed when the rebuilt receipt is the one the
leaf was appended for. -/
def resumeHeld (row : StateRow) (escrowRow : Option EscrowRow) (m : Material)
    (verdict : Option VerdictSummary) (delta : PlannedDelta) (inverse : Option Cid)
    (leaf : LedgerEntry) (stamp : Timestamp) (key : KeyId) : M Recovered := do
  let id := row.transformation
  let filed ← filedKeyId id
  let e ← self
  match e.plannedRecord id with
  | none => giveUp id stamp
  | some (planned, _) =>
    match ← readWorld delta.substrate planned.locator with
    | none =>
      closeOnLeaf id leaf stamp key
      modifyEntry id (Entry.at .committed stamp)
      return .closed id .closedFromLedgerLeaf .committed (some leaf.index)
    | some postcondition =>
      let e ← self
      let facts := rebuiltFacts e row m.canonicalCid m.fp0 verdict inverse
        (escrowRow.map (·.status)) postcondition (filed.getD key)
      if leaf.receiptDigest = facts.payload.ledgerDigest then
        closeResumed id facts leaf filed stamp key
        return .closed id .ledgerHeldTheCommit .committed (some leaf.index)
      else
        let refusal := if filed.isNone ∧ e.headKeyId.any (· ≠ key)
          then .recoveryKeyMismatch else .recoveryRebuildDisagrees
        return ⟨id, .notResumed, .committing, some leaf.index, some refusal⟩

/-- A row whose apply was announced and whose leaf is not there: applied again. -/
def resumeAnnounced (row : StateRow) (escrowRow : Option EscrowRow) (m : Material)
    (verdict : Option VerdictSummary) (delta : PlannedDelta) (inverse : Option Cid)
    (stamp : Timestamp) (key : KeyId) : M Recovered := do
  let id := row.transformation
  let filed ← filedKeyId id
  noteThen id (.applyStarted m.deltaCid) stamp fun e => e
  match ← applyOnce id delta.substrate delta with
  | .error _ =>
    let rollback ← notAttempted id .recoveredWithoutRebuilding
    let state ← abort id .applyFailed (some rollback) stamp
    return .closed id .applyWasAnnounced state none
  | .ok applied =>
    let e ← self
    let facts := rebuiltFacts e row m.canonicalCid m.fp0 verdict inverse
      (escrowRow.map (·.status)) applied.postcondition (filed.getD key)
    let leaf ← ledgerAppend id facts.payload.ledgerDigest stamp
    closeResumed id facts leaf filed stamp key
    return .closed id .applyWasAnnounced .committed (some leaf.index)

/-- A row rebuilt from the journal. -/
def resumeRebuilt (row : StateRow) (escrowRow : Option EscrowRow) (held : Option LedgerEntry)
    (stamp : Timestamp) (key : KeyId) : M Recovered := do
  match material row with
  | none => giveUp row.transformation stamp
  | some m =>
    let verdict ← Prog.orThrow
      (receiptVerdict row.verdict row.verdictDigest row.failPostureEngaged) (.err .unrepresentable)
    let delta ← blobGet m.deltaCid
    adapter delta.substrate
    let inverse ← resumedInverse row escrowRow stamp
    match held with
    | some leaf => resumeHeld row escrowRow m verdict delta inverse leaf stamp key
    | none => resumeAnnounced row escrowRow m verdict delta inverse stamp key

/-- The receipt filed for a row is the one its leaf was appended for. -/
def filedAgrees (id : TransformationId) (leaf : LedgerEntry) : Option Receipt → Bool
  | some receipt =>
    receipt.payload.transformation = id ∧ receipt.payload.ledgerDigest = leaf.receiptDigest
  | none => false

/-- One row of `Committing`. -/
def resume (row : StateRow) (escrowRow : Option EscrowRow) (stamp : Timestamp) (key : KeyId) :
    M Recovered := do
  let id := row.transformation
  let e ← self
  match leafOf e.ledger id with
  | none =>
    if row.applyStarted.isNone then giveUp id stamp
    else resumeRebuilt row escrowRow none stamp key
  | some leaf =>
    if leaf.index + 1 < e.ledger.length then
      return ⟨id, .notResumed, row.state.getD .committing, some leaf.index, some .ledgerMovedOn⟩
    else
      let filed ← filedReceipt id
      if filedAgrees id leaf filed then
        closeOnLeaf id leaf stamp key
        modifyEntry id (Entry.at .committed stamp)
        return .closed id .closedFromFiledReceipt .committed (some leaf.index)
      else resumeRebuilt row escrowRow (some leaf) stamp key

/-- The rows of Σ in order: a `Committed` one is terminal, a `Committing` one is resumed. -/
def recoverRows (sigma : Sigma) (stamp : Timestamp) (key : KeyId) :
    List StateRow → M (List Recovered)
  | [] => return []
  | row :: rest => do
    match row.state with
    | some .committed =>
      let seq := (sigma.ledger.find? fun c => c.transformation = row.transformation).map (·.ledgerSeq)
      whenSome seq fun seq =>
        update fun e => { e with committed := e.committed.insert row.transformation seq }
      let out ← recoverRows sigma stamp key rest
      return .closed row.transformation .terminal .committed seq :: out
    | some .committing =>
      let recovered ← resume row (sigma.escrowOf row.transformation) stamp key
      let out ← recoverRows sigma stamp key rest
      return recovered :: out
    | _ => recoverRows sigma stamp key rest

def recover (stamp : Timestamp) (key : KeyId) : M (List Recovered) := do
  let e ← self
  let sigma := reconstruct e.records
  if e.journalDeparture || e.rolledBack then
    let why := if e.journalDeparture then Refusal.journalDeparted else .rolledBack
    return (sigma.transformations.filter fun row =>
        row.state = some .committed ∨ row.state = some .committing).map fun row =>
      ⟨row.transformation, .notResumed, row.state.getD .committing, none, some why⟩
  else recoverRows sigma stamp key sigma.transformations

inductive Reissued where
  | filed (receipt : Receipt)
  | worldMoved
  | notCommitted
  | noLeaf
  | noMaterial
  | keyMismatch
  deriving DecidableEq, Repr

/-- The receipt of a committed row whose leaf and material are there. -/
def reissueRebuilt (row : StateRow) (escrowRow : Option EscrowRow) (m : Material)
    (verdict : Option VerdictSummary) (planned : PlannedBody) (leaf : LedgerEntry)
    (stamp : Timestamp) (key : KeyId) : M Reissued := do
  let id := row.transformation
  let delta ← blobGet m.deltaCid
  adapter delta.substrate
  let observed ← measure delta.substrate planned.locator
  let e ← self
  let facts := rebuiltFacts e row m.canonicalCid m.fp0 verdict (escrowRow.bind (·.inverseCid))
    (escrowRow.map (·.status)) observed key
  if facts.payload.ledgerDigest ≠ leaf.receiptDigest then
    return if e.headKeyId.any (· ≠ key) then .keyMismatch else .worldMoved
  else
    let proof ← Prog.orThrow (proveInclusion e.ledger leaf.index)
      (.err (.ledger "prove inclusion"))
    let receipt ← issueOr "re-issue the receipt of a terminal commit"
      { facts.payload with inclusionProof := some proof } stamp key
    fileReceipt id receipt
    modifyEntry id fun entry => { entry with receipt := some receipt }
    return .filed receipt

def reissueReceipt (id : TransformationId) (stamp : Timestamp) (key : KeyId) : M Reissued := do
  let e ← self
  let sigma := reconstruct e.records
  match sigma.stateOf id with
  | none => return .notCommitted
  | some row =>
    if row.state ≠ some .committed ∧ row.state ≠ some .superseded then return .notCommitted
    else
      match leafOf e.ledger id with
      | none => return .noLeaf
      | some leaf =>
        match material row, e.plannedRecord id,
          receiptVerdict row.verdict row.verdictDigest row.failPostureEngaged with
        | some m, some (planned, _), some verdict =>
          reissueRebuilt row (sigma.escrowOf id) m verdict planned leaf stamp key
        | _, _, _ => return .noMaterial

end Tracefold.Engine
