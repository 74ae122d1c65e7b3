import Mathlib.Data.List.Sort
import Mathlib.Tactic.Common
import Tracefold.Core

/-! The engine journal's records, the shadow folded over them, and Σ. -/

namespace Tracefold

open Std

inductive Lifecycle where
  | draft
  | candidate
  | verifying
  | admitted
  | denied
  | escalated
  | canonicalized
  | committing
  | committed
  | aborted (reason : AbortReason)
  | superseded
  deriving DecidableEq, Repr

def Lifecycle.name : Lifecycle → String
  | .draft => "Draft"
  | .candidate => "Candidate"
  | .verifying => "Verifying"
  | .admitted => "Admitted"
  | .denied => "Denied"
  | .escalated => "Escalated"
  | .canonicalized => "Canonicalized"
  | .committing => "Committing"
  | .committed => "Committed"
  | .aborted _ => "Aborted"
  | .superseded => "Superseded"

def Lifecycle.isTerminal : Lifecycle → Bool
  | .aborted _ => true
  | .committed => true
  | .superseded => true
  | _ => false

def stateOfVerdict : VerdictKind → Lifecycle
  | .Admit => .admitted
  | .Deny => .denied
  | .Escalate => .escalated

/-- The body of a `Planned` record. -/
structure PlannedBody where
  intentId : IntentId
  locator : String
  deltaCid : Cid
  fp0 : FingerprintRecord
  parents : List TransformationId
  inputGeneration : BoundaryStage
  undoWitness : Option UndoDisposition
  deriving DecidableEq, Repr

/-- The body of an `InverseEscrowed` record. -/
structure EscrowBody where
  inverseCid : Option Cid
  pending : Bool
  reads : List ReadEntry
  readsAttested : Bool
  undetermined : Bool
  deriving DecidableEq, Repr

/-- What a record says about one transformation. -/
inductive Note where
  | planned (body : PlannedBody)
  | verifyStarted
  | verdict (kind : VerdictKind) (verdictDigest : Option Cid) (failPostureEngaged : Bool)
  | humanDecision (kind : VerdictKind) (reason : String) (actor : Actor)
      (verdictDigest : Option Cid)
  | canonicalized (canonicalCid : Cid) (enforced : Option Bool)
  | committingStarted
  | provenanceDerived (provenance : Provenance)
  | inverseEscrowed (body : EscrowBody)
  | applyStarted (deltaCid : Cid)
  | applyObserved (observationCid : Cid)
  | inverseCompleted (inverseCid : Option Cid)
  | committed (ledgerSeq : ℕ)
  | aborted (reason : AbortReason) (rollback : Option Rollback)
  | superseded (by_ : TransformationId)
  deriving DecidableEq, Repr

/-- `EngineJournalRecord`: only a draft names no transformation. -/
inductive Record where
  | draftCreated (intentId : IntentId) (rngSeed : ℕ) (stamp : Timestamp)
  | about (transformation : TransformationId) (note : Note) (stamp : Timestamp)
  deriving DecidableEq, Repr

inductive InverseStatus where
  | available
  | consumed (by_ : TransformationId)
  | expired
  | unavailable
  | pending
  | bodyMissing
  | undetermined
  deriving DecidableEq, Repr

structure StateRow where
  transformation : TransformationId
  intentId : Option IntentId
  deltaCid : Option Cid
  fp0 : Option FingerprintRecord
  state : Option Lifecycle
  verdict : Option VerdictKind
  verdictDigest : Option Cid
  enforced : Bool
  failPostureEngaged : Bool
  canonicalCid : Option Cid
  applyStarted : Option Cid
  observationCid : Option Cid
  rollback : Option Rollback
  provenance : Option Provenance
  supersededBy : Option TransformationId
  deriving DecidableEq, Repr

/-- `StateRow::about`. -/
def StateRow.new (id : TransformationId) : StateRow where
  transformation := id
  intentId := none
  deltaCid := none
  fp0 := none
  state := none
  verdict := none
  verdictDigest := none
  enforced := true
  failPostureEngaged := false
  canonicalCid := none
  applyStarted := none
  observationCid := none
  rollback := none
  provenance := none
  supersededBy := none

/-- `retained_until` is left out: every writer of the source leaves it empty. -/
structure EscrowRow where
  transformation : TransformationId
  inverseCid : Option Cid
  status : InverseStatus
  deriving DecidableEq, Repr

structure DraftRow where
  intentId : IntentId
  rngSeed : ℕ
  deriving DecidableEq, Repr

structure CommittedRow where
  transformation : TransformationId
  ledgerSeq : ℕ
  deriving DecidableEq, Repr

/-- What a note does to the row it names. -/
def StateRow.absorb (row : StateRow) : Note → StateRow
  | .planned body =>
    { row with
      intentId := some body.intentId
      deltaCid := some body.deltaCid
      fp0 := some body.fp0
      state := some .candidate }
  | .verifyStarted => { row with state := some .verifying }
  | .verdict kind verdictDigest failPostureEngaged =>
    if failPostureEngaged then
      { row with
        failPostureEngaged := failPostureEngaged
        verdictDigest := verdictDigest
        verdict := none
        enforced := false
        state := some .admitted }
    else
      { row with
        failPostureEngaged := failPostureEngaged
        verdictDigest := verdictDigest
        verdict := some kind
        state := some (stateOfVerdict kind) }
  | .humanDecision kind _ _ verdictDigest =>
    { row with
      verdict := some kind
      verdictDigest := verdictDigest <|> row.verdictDigest
      state := some (stateOfVerdict kind) }
  | .canonicalized canonicalCid enforced =>
    { row with
      canonicalCid := some canonicalCid
      enforced := if enforced = some false then false else row.enforced
      state := some .canonicalized }
  | .committingStarted => { row with state := some .committing }
  | .provenanceDerived provenance => { row with provenance := some provenance }
  | .inverseEscrowed _ => row
  | .applyStarted deltaCid => { row with applyStarted := some deltaCid }
  | .applyObserved observationCid => { row with observationCid := some observationCid }
  | .inverseCompleted _ => row
  | .committed _ => { row with state := some .committed }
  | .aborted reason rollback => { row with state := some (.aborted reason), rollback := rollback }
  | .superseded by_ => { row with state := some .superseded, supersededBy := some by_ }

def EscrowBody.status (body : EscrowBody) : InverseStatus :=
  match body.inverseCid, body.pending, body.undetermined with
  | some _, false, _ => .available
  | some _, true, _ => .pending
  | none, _, true => .undetermined
  | none, _, false => .unavailable

/-- What a note does to the escrow row of the transformation it names. -/
def EscrowRow.absorb (held : Option EscrowRow) (id : TransformationId) : Note → Option EscrowRow
  | .inverseEscrowed body => some ⟨id, body.inverseCid, body.status⟩
  | .inverseCompleted inverseCid =>
    some ⟨id, inverseCid, if inverseCid.isSome then .available else .unavailable⟩
  | .superseded by_ => held.map fun row => { row with status := .consumed by_ }
  | _ => held

/-- What a note does to the leaf index its transformation was committed at. -/
def committedSeq (held : Option ℕ) : Note → Option ℕ
  | .committed ledgerSeq => some ledgerSeq
  | _ => held

structure SigmaShadow where
  drafts : BTreeMap IntentId ℕ
  rows : BTreeMap TransformationId StateRow
  escrow : BTreeMap TransformationId EscrowRow
  ledger : BTreeMap TransformationId ℕ
  since : BTreeMap TransformationId Timestamp

namespace SigmaShadow

def empty : SigmaShadow := ⟨∅, ∅, ∅, ∅, ∅⟩

/-- The row a note is absorbed into: the one held, or a fresh one. -/
def rowOr (s : SigmaShadow) (id : TransformationId) : StateRow := s.rows[id]?.getD (.new id)

def state (s : SigmaShadow) (id : TransformationId) : Option Lifecycle :=
  s.rows[id]?.bind (·.state)

def fold (s : SigmaShadow) : Record → SigmaShadow
  | .draftCreated intentId rngSeed _ => { s with drafts := s.drafts.insert intentId rngSeed }
  | .about id note stamp =>
    let row := (s.rowOr id).absorb note
    { drafts := s.drafts
      rows := s.rows.insert id row
      escrow := s.escrow.alter id fun held => EscrowRow.absorb held id note
      ledger := s.ledger.alter id fun held => committedSeq held note
      since := if row.state ≠ s.state id then s.since.insert id stamp else s.since }

def ofRecords (records : List Record) : SigmaShadow := records.foldl fold empty

end SigmaShadow

/-- Σ: what the journal and the table are compared by. -/
structure Sigma where
  drafts : List DraftRow
  transformations : List StateRow
  escrow : List EscrowRow
  ledger : List CommittedRow
  deriving DecidableEq, Repr

namespace Sigma

/-- `sort_by_key` over each list: by id, and the ledger by leaf index and id. -/
def new (drafts : List DraftRow) (transformations : List StateRow) (escrow : List EscrowRow)
    (ledger : List CommittedRow) : Sigma where
  drafts := drafts.insertionSort fun a b => (compare a.intentId b.intentId).isLE
  transformations :=
    transformations.insertionSort fun a b => (compare a.transformation b.transformation).isLE
  escrow := escrow.insertionSort fun a b => (compare a.transformation b.transformation).isLE
  ledger := ledger.insertionSort fun a b =>
    ((compare a.ledgerSeq b.ledgerSeq).then (compare a.transformation b.transformation)).isLE

def stateOf (sigma : Sigma) (id : TransformationId) : Option StateRow :=
  sigma.transformations.find? fun row => row.transformation = id

def escrowOf (sigma : Sigma) (id : TransformationId) : Option EscrowRow :=
  sigma.escrow.find? fun row => row.transformation = id

end Sigma

def SigmaShadow.sigma (s : SigmaShadow) : Sigma :=
  .new (s.drafts.toList.map fun (intentId, rngSeed) => ⟨intentId, rngSeed⟩)
    (s.rows.toList.map Prod.snd) (s.escrow.toList.map Prod.snd)
    (s.ledger.toList.map fun (transformation, ledgerSeq) => ⟨transformation, ledgerSeq⟩)

def reconstruct (records : List Record) : Sigma := (SigmaShadow.ofRecords records).sigma

end Tracefold
