import Mathlib.Tactic.Common
import Tracefold.Recover

/-! Processes over the files of a project: opening, catching up, the questions an engine answers,
and runs of operations with crashes and restarts. -/

namespace Tracefold

open Library

variable [Canon]

/-- The row of Σ a row of the table stands for. -/
def Entry.stateRow (id : TransformationId) (entry : Entry) : StateRow where
  transformation := id
  intentId := some entry.intentId
  deltaCid := some entry.delta.cid
  fp0 := some (.ofFingerprint entry.fp0)
  state := some entry.state
  verdict := entry.verdict
  verdictDigest := entry.verdictDigest
  enforced := entry.enforced
  failPostureEngaged := entry.failPostureEngaged
  canonicalCid := entry.canonicalCid
  applyStarted := entry.applyStarted
  observationCid := entry.observationCid
  rollback := entry.rollback
  provenance := entry.provenance
  supersededBy := entry.supersededBy

namespace Engine

/-- `tally_from_the_journal`. -/
def tallyFromTheJournal (records : List Record) : VerdictTally :=
  records.foldl (fun tally record =>
    match record with
    | .about _ (.verdict kind (some _) _) _ => tally.count (some kind)
    | .about _ (.verdict _ none _) _ => tally.count none
    | .about _ (.humanDecision kind _ _ _) _ => tally.count (some kind)
    | _ => tally) .empty

/-- The ids each intent resolved to, in the order they were first planned in. -/
def resolutionsOf (records : List Record) : BTreeMap IntentId (List TransformationId) :=
  records.foldl (fun resolved record =>
    match record with
    | .about id (.planned body) _ =>
      let seen := resolved[body.intentId]?.getD []
      resolved.insert body.intentId (if id ∈ seen then seen else seen ++ [id])
    | _ => resolved) ∅

/-- The drafts of a journal, a later seed of one intent over an earlier. -/
def draftsOf (records : List Record) : BTreeMap IntentId ℕ :=
  records.foldl (fun drafted record =>
    match record with
    | .draftCreated intentId rngSeed _ => drafted.insert intentId rngSeed
    | _ => drafted) ∅

/-- `Engine::open_through` on the files of a project: an empty table, and every index rebuilt. -/
def openThrough (config : Config) (disk : Disk) : Engine :=
  let shadow := SigmaShadow.ofRecords disk.journal
  let reading := if config.keepsHead then disk.head else none
  let e : Engine :=
    { config := config
      records := disk.journal
      ledger := disk.ledger
      verdicts := tallyFromTheJournal disk.journal
      drafted := draftsOf disk.journal
      table := ∅
      notAttemptedBecause := ∅
      resolved := resolutionsOf disk.journal
      escrow := ∅
      supersedes := ∅
      committed := shadow.ledger
      shadow := shadow
      journalDeparture := false
      headFloor := reading.map (·.floor)
      headKeyId := reading.map (·.keyId)
      rolledBack := false
      resumedRows := 0 }
  { e with rolledBack := e.headFloor.any fun floor => rollbackOf floor e }

/-- The records that reached the journal after this process last read it. -/
def arrived (disk : Disk) (e : Engine) : List Record := disk.journal.drop e.records.length

/-- The rows of the table another process wrote about. -/
def evicted (disk : Disk) (e : Engine) : List TransformationId :=
  (e.arrived disk).filterMap fun
    | .about id _ _ => if id ∈ e.table then some id else none
    | .draftCreated _ _ _ => none

/-- `Engine::catch_up`, under the project lock. -/
def catchUp (disk : Disk) (e : Engine) : Engine :=
  let shadow := (e.arrived disk).foldl SigmaShadow.fold e.shadow
  let gone := e.evicted disk
  let e : Engine :=
    { e with
      records := e.records ++ e.arrived disk
      ledger := disk.ledger
      table := gone.foldl (fun table id => table.erase id) e.table
      escrow := gone.foldl (fun escrow id => escrow.erase id) e.escrow
      committed := shadow.ledger
      shadow := shadow
      journalDeparture := !e.records.isPrefixOf disk.journal }
  match e.headFloor with
  | some floor => { e with rolledBack := rollbackOf floor e }
  | none => e

/-- `Engine::state`. -/
def state (e : Engine) (id : TransformationId) : Option Lifecycle :=
  (e.table[id]?.map (·.state)) <|> e.shadow.state id

/-- `Engine::intent_of`. -/
def intentOf (e : Engine) (id : TransformationId) : Option IntentId :=
  (e.table[id]?.map (·.intentId)) <|> e.shadow.rows[id]?.bind (·.intentId)

/-- `Engine::planned_delta`: a row of the table has the body, and the blobs may. -/
def plannedDelta (disk : Disk) (e : Engine) (id : TransformationId) : Option PlannedDelta :=
  (e.table[id]?.map (·.delta)) <|> (e.shadow.rows[id]?.bind (·.deltaCid)).bind (blobOf disk)

/-- `Engine::verdict`. -/
def verdict (e : Engine) (id : TransformationId) : Option VerdictKind :=
  match e.table[id]? with
  | some entry => entry.verdict
  | none => e.shadow.rows[id]?.bind (·.verdict)

/-- `Engine::enforced`. -/
def enforced (e : Engine) (id : TransformationId) : Option Bool :=
  (e.table[id]?.map (·.enforced)) <|> e.shadow.rows[id]?.map (·.enforced)

/-- `Engine::fail_posture_engaged`. -/
def failPostureEngaged (e : Engine) (id : TransformationId) : Option Bool :=
  (e.table[id]?.map (·.failPostureEngaged)) <|> e.shadow.rows[id]?.map (·.failPostureEngaged)

/-- `Engine::canonical_cid`. -/
def canonicalCid (e : Engine) (id : TransformationId) : Option Cid :=
  match e.table[id]? with
  | some entry => entry.canonicalCid
  | none => e.shadow.rows[id]?.bind (·.canonicalCid)

/-- `Engine::rollback`. -/
def rollback (e : Engine) (id : TransformationId) : Option Rollback :=
  match e.table[id]? with
  | some entry => entry.rollback
  | none => e.shadow.rows[id]?.bind (·.rollback)

/-- `Engine::escrowed_inverse`: of the escrow of this process, or of the journal. -/
def escrowedInverse (e : Engine) (id : TransformationId) : Option Cid :=
  (e.escrow[id]? <|> e.shadow.escrow[id]?).bind (·.inverseCid)

/-- `Engine::superseded_by`. -/
def supersededBy (e : Engine) (id : TransformationId) : Option TransformationId :=
  e.supersedes[id]? <|> e.shadow.rows[id]?.bind (·.supersededBy)

/-- `Engine::inverse_status`: an available inverse whose body is gone is said to be so. -/
def inverseStatus (disk : Disk) (e : Engine) (id : TransformationId) : Option InverseStatus := do
  let row ← e.escrow[id]? <|> e.shadow.escrow[id]?
  match row.status, row.inverseCid with
  | .available, some cid => if blobOf disk cid = none then some .bodyMissing else some .available
  | status, _ => some status

/-- `Engine::escrow_view`: the escrow rows of this process over those of the journal. -/
def escrowView (e : Engine) : List EscrowRow :=
  (e.escrow.toList.foldl (fun merged (id, row) => merged.insert id row)
    e.shadow.escrow).toList.map Prod.snd

/-- `Engine::sigma`. -/
def sigma (e : Engine) : Sigma :=
  .new (e.drafted.toList.map fun (intentId, rngSeed) => ⟨intentId, rngSeed⟩)
    (e.table.toList.map fun (id, entry) => entry.stateRow id)
    e.escrowView
    (e.committed.toList.map fun (transformation, ledgerSeq) => ⟨transformation, ledgerSeq⟩)

/-- `Engine::ledger_agrees`. -/
def ledgerAgrees (e : Engine) : Bool :=
  !e.journalDeparture && !e.rolledBack && e.committed.size = e.ledger.length &&
    (e.committed.toList.all fun (id, seq) =>
      e.ledger[seq]?.any fun entry => entry.transformation = id) &&
    rootAt e.ledger e.committed.size = mth (e.ledger.map (·.leafCid))

/-- An operation of the engine, with its arguments. -/
inductive Op where
  | submit (intent : Intent) (rngSeed : ℕ) (stamp : Timestamp)
  | plan (intent : Intent) (stamp : Timestamp)
  | verify (id : TransformationId) (stamp : Timestamp) (key : KeyId) (mode : Option EnforcementMode)
  | escalation (id : TransformationId) (ruling : HumanRuling) (stamp : Timestamp) (key : KeyId)
  | canonicalize (id : TransformationId) (stamp : Timestamp) (mode : Option EnforcementMode)
  | commit (id : TransformationId) (stamp : Timestamp) (key : KeyId)
  | undo (original : TransformationId) (witness : UndoWitness) (rngSeed : ℕ) (stamp : Timestamp)
  | cancel (id : TransformationId) (stamp : Timestamp)
  | reap (now : Timestamp)
  | recover (stamp : Timestamp) (key : KeyId)
  | reissueReceipt (id : TransformationId) (stamp : Timestamp) (key : KeyId)
  | rehydrateCommitted (id : TransformationId) (intent : Intent)

/-- A program whose answer is of no interest. -/
def discard (x : M α) : M Unit := do
  let _ ← x
  return ()

def Op.exec : Op → M Unit
  | .submit intent rngSeed stamp => discard (Engine.submit intent rngSeed stamp)
  | .plan intent stamp => discard (Engine.plan intent stamp)
  | .verify id stamp key mode => discard (Engine.verify id stamp key mode)
  | .escalation id ruling stamp key => discard (Engine.escalation id ruling stamp key)
  | .canonicalize id stamp mode => discard (Engine.canonicalize id stamp mode)
  | .commit id stamp key => discard (Engine.commit id stamp key)
  | .undo original witness rngSeed stamp => discard (Engine.undo original witness rngSeed stamp)
  | .cancel id stamp => discard (Engine.cancel id stamp)
  | .reap now => discard (Engine.reap now)
  | .recover stamp key => discard (Engine.recover stamp key)
  | .reissueReceipt id stamp key => discard (Engine.reissueReceipt id stamp key)
  | .rehydrateCommitted id intent => discard (Engine.rehydrateCommitted id intent)

end Engine

open Engine

/-- A project and the processes that run over its files. -/
structure Project where
  history : List Event
  disk : Disk
  process : ℕ → Option Engine

def Project.empty : Project := ⟨[], .empty, fun _ => none⟩

/-- A process is started over the files, or calls an operation, or catches up with the files and
then calls an operation under the project lock. -/
inductive Action where
  | start (pid : ℕ) (config : Config)
  | call (pid : ℕ) (op : Op)
  | locked (pid : ℕ) (op : Op)

namespace Project

def set (p : Project) (pid : ℕ) (e : Option Engine) : Project :=
  { p with process := fun q => if q = pid then e else p.process q }

/-- The project after an operation of one process: a crash loses that process's memory. -/
def exec (w : World) (p : Project) (pid : ℕ) (op : Op) (e : Engine) : Project :=
  match op.exec w ⟨p.history, p.disk, e⟩ with
  | (.error .crash, s) => (Project.mk s.history s.disk p.process).set pid none
  | (_, s) => (Project.mk s.history s.disk p.process).set pid (some s.engine)

def step (w : World) (p : Project) : Action → Project
  | .start pid config => p.set pid (some (Engine.openThrough config p.disk))
  | .call pid op =>
    match p.process pid with
    | some e => p.exec w pid op e
    | none => p
  | .locked pid op =>
    match p.process pid with
    | some e => p.exec w pid op (e.catchUp p.disk)
    | none => p

def run (w : World) (p : Project) (actions : List Action) : Project :=
  actions.foldl (step w) p

end Project

/-- An action of the one process of a project that no other process runs over. -/
def Action.Solo : Action → Prop
  | .start pid _ => pid = 0
  | .call pid _ => pid = 0
  | .locked _ _ => False

/-- An action of a process that keeps the locking discipline. -/
def Action.Locked : Action → Prop
  | .start _ _ => True
  | .call _ _ => False
  | .locked _ _ => True

end Tracefold
