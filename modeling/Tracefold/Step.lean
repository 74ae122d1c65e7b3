import Mathlib.Tactic.Common
import Tracefold.Notes

/-! The engine as a transition system: every move an operation makes between two points where it
can stop, with what the operation has checked by then. -/

namespace Tracefold

open Library Engine

/-- Two rows of the table with the same body: nothing a verdict or a plan set differs. -/
structure Entry.Same (a b : Entry) : Prop where
  intentId : a.intentId = b.intentId
  transformation : a.transformation = b.transformation
  delta : a.delta = b.delta
  fp0 : a.fp0 = b.fp0
  pre : a.pre = b.pre
  verdict : a.verdict = b.verdict
  verdictDigest : a.verdictDigest = b.verdictDigest
  enforced : a.enforced = b.enforced
  failPostureEngaged : a.failPostureEngaged = b.failPostureEngaged
  canonicalCid : a.canonicalCid = b.canonicalCid

theorem Entry.Same.refl (a : Entry) : a.Same a := by
  constructor <;> rfl

theorem Entry.Same.trans {a b c : Entry} (hab : a.Same b) (hbc : b.Same c) : a.Same c where
  intentId := hab.intentId.trans hbc.intentId
  transformation := hab.transformation.trans hbc.transformation
  delta := hab.delta.trans hbc.delta
  fp0 := hab.fp0.trans hbc.fp0
  pre := hab.pre.trans hbc.pre
  verdict := hab.verdict.trans hbc.verdict
  verdictDigest := hab.verdictDigest.trans hbc.verdictDigest
  enforced := hab.enforced.trans hbc.enforced
  failPostureEngaged := hab.failPostureEngaged.trans hbc.failPostureEngaged
  canonicalCid := hab.canonicalCid.trans hbc.canonicalCid

namespace Sys

def push (s : Sys) (event : Event) : Sys := { s with history := s.history ++ [event] }

def withEngine (s : Sys) (f : Engine → Engine) : Sys := { s with engine := f s.engine }

/-- A record appended to the journal alone. -/
def append (s : Sys) (record : Record) : Sys :=
  { history := s.history ++ [.journal record]
    disk := { s.disk with journal := s.disk.journal ++ [record] }
    engine := { s.engine with records := s.engine.records ++ [record] } }

/-- A record appended, and the shadow folded over it. -/
def record (s : Sys) (record : Record) : Sys :=
  (s.append record).withEngine fun e => { e with shadow := e.shadow.fold record }

abbrev note (s : Sys) (id : TransformationId) (note : Note) (stamp : Timestamp) : Sys :=
  s.record (.about id note stamp)

/-- The row of the table changed, if there is one. -/
def live (s : Sys) (id : TransformationId) (f : Entry → Entry) : Sys :=
  s.withEngine fun e => { e with table := e.table.modify id f }

def put (s : Sys) (event : Event) (f : Disk → Disk) : Sys :=
  { s.push event with disk := f s.disk }

/-- A leaf appended to the ledger. -/
def leafed (s : Sys) (leaf : LedgerEntry) : Sys :=
  { history := s.history ++ [.leaf leaf]
    disk := { s.disk with ledger := s.disk.ledger ++ [leaf] }
    engine := { s.engine with ledger := s.engine.ledger ++ [leaf] } }

end Sys

/-- What a run may be held to: which ids `plan` and `undo` plan, which rows a recovery applies
again, which rows a commit starts on, on which rows a head may be recorded, which denied rows a
canonicalization takes, and which rows are ruled on. -/
structure Policy where
  plans : Engine → TransformationId → Prop
  undos : TransformationId → List Note → Prop
  reapplies : TransformationId → List Note → Prop
  commits : Engine → TransformationId → Prop
  heads : TransformationId → Prop := fun _ => True
  carries : Engine → TransformationId → Prop := fun _ _ => True
  rules : TransformationId → Prop := fun _ => True

/-- A run held to nothing. -/
def Policy.any : Policy where
  plans _ _ := True
  undos _ _ := True
  reapplies _ _ := True
  commits _ _ := True

variable [Canon]

/-- The transformation has the id it hashes to, over this delta. -/
structure Transformation.Names (t : Transformation) (id : TransformationId) (intentId : IntentId)
    (delta : PlannedDelta) : Prop where
  id_eq : t.id = id
  cid_eq : t.cid = id
  intent_eq : t.intentId = intentId
  delta_eq : t.delta = delta.reference

/-- What `plan_shape` reads and mints. -/
structure Engine.PlanShape.Sound (w : World) (intent : Intent) (shape : PlanShape) : Prop where
  names : shape.transformation.Names shape.id (Canon.intent intent) shape.delta
  target_eq : shape.transformation.target = shape.delta.promisedTarget
  parents_eq : shape.transformation.parents = []
  context_eq : shape.transformation.context = intent.context
  actor_eq : shape.transformation.actor = intent.actor
  subject_eq : shape.transformation.subject = .object shape.pre.id
  pre_read : ∃ h, (w h).snapshot intent.substrate intent.locator = .ok shape.pre

/-- The transformation an undo mints. -/
structure Mints (entry : Entry) (original : TransformationId) (inverse : PlannedDelta)
    (t : Transformation) : Prop where
  names : t.Names t.id (Canon.intent (undoIntent entry inverse)) inverse
  parents_eq : t.parents = [original]
  target_eq : t.target = none
  subject_eq : t.subject = entry.transformation.subject
  context_eq : t.context = entry.transformation.context
  actor_eq : t.actor = entry.transformation.actor

/-- The commit of a row is under way: the row captured at its start is still the live one. -/
structure InCommit (s : Sys) (id : TransformationId) (entry : Entry) : Prop where
  live : ∃ now, s.engine.table[id]? = some now ∧ now.state = .committing ∧ entry.Same now
  state : stateOf? (s.engine.notes id) = some .committing
  noLeaf : ∀ leaf, .leaf leaf ∈ attemptEvents id s.history → leaf.transformation ≠ id

/-- The row the journal now gives a transformation. -/
abbrev Engine.row (e : Engine) (id : TransformationId) : StateRow := rowOf id (e.notes id)

/-- The recovery of a row is under way: the row read at its start is the one the journal still
gives, but for an apply announced since. -/
structure InResume (s : Sys) (row : StateRow) : Prop where
  state : stateOf? (s.engine.notes row.transformation) = some .committing
  row_eq : s.engine.row row.transformation =
    { row with applyStarted := (s.engine.row row.transformation).applyStarted }

/-- Every row in flight on the same subject was found to commute with this one. -/
def Unopposed (w : World) (e : Engine) (id : TransformationId) (entry : Entry) : Prop :=
  ∀ other row, e.table[other]? = some row → other ≠ id →
    row.transformation.subject = entry.transformation.subject →
    inFlight row.state .enforce = true →
    ∃ h, (w h).commutation entry.delta.substrate row.delta entry.delta = .ok .commutes

/-- Why an operation may abort a row. -/
inductive MayAbort (s : Sys) (id : TransformationId) : Prop where
  | due (entry : Entry) (h : s.engine.table[id]? = some entry)
      (hs : entry.state = .candidate ∨ entry.state = .verifying ∨ entry.state = .escalated)
  | dueShadow (hs : s.engine.shadow.state id = some .candidate ∨
      s.engine.shadow.state id = some .verifying ∨ s.engine.shadow.state id = some .escalated)
  | verifying (entry : Entry) (h : s.engine.table[id]? = some entry) (hs : entry.state = .verifying)
  | owner (entry : Entry) (h : s.engine.table[id]? = some entry)
      (hs : entry.state = .candidate ∨ entry.state = .verifying ∨ entry.state = .admitted ∨
        entry.state = .canonicalized ∨ entry.state = .escalated)
  | commit (entry : Entry) (h : InCommit s id entry)
  | leafless (row : StateRow) (h : InResume s row) (hid : row.transformation = id)
      (hleaf : leafOf s.engine.ledger id = none)
  | immaterial (row : StateRow) (h : InResume s row) (hid : row.transformation = id)
      (hm : material (s.engine.row id) = none ∨ s.engine.plannedRecord id = none)

/-- A change of the live row that Σ does not see. -/
structure Entry.Idle (f : Entry → Entry) : Prop where
  same : ∀ e : Entry, e.Same (f e)
  row : ∀ (id : TransformationId) (e : Entry), (f e).stateRow id = e.stateRow id
  since : ∀ e : Entry, (f e).since = e.since

/-- The receipt of the leaf of a transformation. -/
def IssuedFor (ledger : List LedgerEntry) (id : TransformationId) (receipt : Receipt) : Prop :=
  ∃ leaf, leafOf ledger id = some leaf ∧ receipt.payload.ledgerDigest = leaf.receiptDigest

/-- A change of the live row puts no receipt there but that of the leaf. -/
def Entry.Receipts (ledger : List LedgerEntry) (id : TransformationId) (f : Entry → Entry) : Prop :=
  ∀ e receipt, (f e).receipt = some receipt →
    e.receipt = some receipt ∨ IssuedFor ledger id receipt

/-- What the payload of a live commit is made of, over the commit under way. -/
structure LiveLeaf (s : Sys) (id : TransformationId) (entry : Entry) (outcome : InvertOutcome)
    (applied : AppliedDelta) (facts : CommitFacts) : Prop where
  commit : InCommit s id entry
  noLeaf : leafOf s.engine.ledger id = none
  applied_last : lastApply id s.history = some (entry.delta, .ok applied)
  promise_kept : ∀ promised, entry.transformation.target = some promised →
    promised = applied.resultingDigest
  facts_eq : ∃ (live : Entry) (canonicalCid : Cid) (verdict : Option VerdictSummary)
      (inverse : Option Cid) (key : KeyId),
    facts = liveFacts s.engine id entry live canonicalCid verdict outcome inverse applied key ∧
    s.engine.table[id]? = some live ∧ entry.canonicalCid = some canonicalCid ∧
    receiptVerdict entry.verdict entry.verdictDigest entry.failPostureEngaged = some verdict ∧
    inverse = (escrowOf? id (s.engine.notes id)).bind (·.inverseCid)
  provenance : (s.engine.row id).provenance = some (deriveProvenance s.engine entry)
  escrowed : ∃ pending, .inverseEscrowed (escrowBody outcome pending) ∈ attempt (s.engine.notes id)
  settled : escrowOf? id (s.engine.notes id) = some (escrowRow id outcome false) ∨
    ∃ inverse, outcome.inverse.isSome ∧ .inverseCompleted inverse ∈ attempt (s.engine.notes id) ∧
      escrowOf? id (s.engine.notes id) =
        some ⟨id, inverse, if inverse.isSome then .available else .unavailable⟩

/-- The inverse and the status a recovered commit attests: what the journal escrows, but for a
pending escrow, which settles after its status was read. -/
def Resettled (s : Sys) (id : TransformationId) (inverse : Option Cid)
    (status : Option InverseStatus) : Prop :=
  inverse = (escrowOf? id (s.engine.notes id)).bind (·.inverseCid) ∧
    (status = (escrowOf? id (s.engine.notes id)).map (·.status) ∧ status ≠ some .pending ∨
      status = some .pending ∧ escrowOf? id (s.engine.notes id) =
        some ⟨id, inverse, if inverse.isSome then .available else .unavailable⟩)

/-- What the payload of a recovered commit is made of, over the recovery under way. -/
structure RebuiltLeaf (s : Sys) (row : StateRow) (delta : PlannedDelta) (applied : AppliedDelta)
    (facts : CommitFacts) : Prop where
  resume : InResume s row
  noLeaf : leafOf s.engine.ledger row.transformation = none
  applied_last : lastApply row.transformation s.history = some (delta, .ok applied)
  facts_eq : ∃ (m : Material) (verdict : Option VerdictSummary) (inverse : Option Cid)
      (status : Option InverseStatus) (key : KeyId),
    facts = rebuiltFacts s.engine row m.canonicalCid m.fp0 verdict inverse status
      applied.postcondition key ∧
    material row = some m ∧ delta.cid = m.deltaCid ∧
    receiptVerdict row.verdict row.verdictDigest row.failPostureEngaged = some verdict ∧
    Resettled s row.transformation inverse status

/-- The moves of the engine on one transformation, between two points where it can stop. -/
inductive Step (pol : Policy) (w : World) (id : TransformationId) : Sys → Sys → Prop where
  | asked (s : Sys) : Step pol w id s (s.push .asked)
  | failed (s : Sys) : Step pol w id s (s.push .failed)
  | crashed (s : Sys) : Step pol w id s (s.push .crashed)
  | blob (s : Sys) (d : PlannedDelta)
      (hsize : Canon.blobBytes d.substrate d.payload ≤ maxBlobBytes) :
      Step pol w id s (s.put (.blob d.cid) fun disk =>
        { disk with blobs := disk.blobs.insert d.cid (d.substrate, d.payload) })
  | observation (s : Sys) (bytes : Bytes) :
      Step pol w id s (s.put (.observation (Canon.observation bytes)) fun disk =>
        { disk with observations := disk.observations.insert (Canon.observation bytes) bytes })
  | filed (s : Sys) (receipt : Receipt) (leaf : LedgerEntry)
      (hleaf : leafOf s.engine.ledger id = some leaf)
      (hdigest : receipt.payload.ledgerDigest = leaf.receiptDigest)
      (hid : receipt.payload.transformation = id) :
      Step pol w id s (s.put (.receipt id receipt) fun disk =>
        { disk with receipts := disk.receipts.insert id receipt })
  | headed (s : Sys) (floor : HeadFloor) (key : KeyId)
      (hfloor : floor.treeSize = s.engine.ledger.length ∧
        rootAt s.engine.ledger s.engine.ledger.length = some floor.rootHash ∧
        floor.journalLen = s.engine.records.length ∧
        floor.journalHead = Canon.chainHead s.engine.records)
      (hkeeps : s.engine.config.keepsHead = true)
      (hgrew : ∀ old, s.engine.headFloor = some old → old.treeSize < floor.treeSize)
      (hleaf : (leafOf s.engine.ledger id).isSome) (hpol : pol.heads id) :
      Step pol w id s ((s.put (.head floor) fun disk =>
        { disk with head := some ⟨floor, key⟩ }).withEngine fun e =>
          { e with headFloor := some floor })
  | drafted (s : Sys) (intentId : IntentId) (rngSeed : ℕ) (stamp : Timestamp)
      (hnew : intentId ∉ s.engine.drafted) :
      Step pol w id s ((s.record (.draftCreated intentId rngSeed stamp)).withEngine fun e =>
        { e with drafted := e.drafted.insert intentId rngSeed })
  | planned (s : Sys) (intent : Intent) (shape : PlanShape) (stamp : Timestamp)
      (hid : shape.id = id) (hsound : shape.Sound w intent)
      (hdraft : Canon.intent intent ∈ s.engine.drafted)
      (halready : s.engine.plannedAlready (Canon.intent intent) = none)
      (hresolved : s.engine.resolvedAlready (Canon.intent intent) id = none)
      (hanew : s.engine.rehydrating (Canon.intent intent) id = false)
      (hpol : pol.plans s.engine id) :
      Step pol w id s
        ((s.note id (.planned (plannedBody s.engine intent shape)) stamp).withEngine
          (remembered (Canon.intent intent) id))
  | undone (s : Sys) (original : TransformationId) (entry : Entry) (inverse : PlannedDelta)
      (fp0 : Fingerprint) (pre : ObjectSnapshot) (t : Transformation)
      (inputGeneration : BoundaryStage) (witness : UndoWitness) (stamp : Timestamp)
      (horiginal : s.engine.table[original]? = some entry) (hcommitted : entry.state = .committed)
      (hescrow : ∃ row, s.engine.escrow[original]? = some row ∧
        row.inverseCid = some inverse.cid ∧ row.status ≠ .pending ∧
        ∀ by_, row.status ≠ .consumed by_)
      (hid : t.id = id) (hmints : Mints entry original inverse t)
      (hpre : ∃ h, (w h).snapshot entry.delta.substrate entry.pre.locator = .ok pre)
      (hstate : undoState s.engine (Canon.intent (undoIntent entry inverse)) id = none ∨
        undoState s.engine (Canon.intent (undoIntent entry inverse)) id = some .candidate ∧
          id ∉ s.engine.table ∨
        ∃ reason, undoState s.engine (Canon.intent (undoIntent entry inverse)) id =
          some (.aborted reason))
      (hpol : pol.undos id (s.engine.notes id)) :
      Step pol w id s
        ((s.note id (.planned (undoBody (Canon.intent (undoIntent entry inverse)) t inverse fp0 pre
          inputGeneration witness)) stamp).withEngine
          (remembered (Canon.intent (undoIntent entry inverse)) id))
  | seated (s : Sys) (body : PlannedBody) (stamp : Timestamp) (t : Transformation)
      (delta : PlannedDelta) (fp0 : Fingerprint) (pre : ObjectSnapshot)
      (hlast : s.engine.records.getLast? = some (.about id (.planned body) stamp))
      (hnames : t.Names id body.intentId delta) (hdelta : body.deltaCid = delta.cid)
      (hfp0 : body.fp0 = .ofFingerprint fp0) (hparents : body.parents = t.parents)
      (hpre : ∃ intent h, body.intentId = Canon.intent intent ∧
        (w h).snapshot intent.substrate intent.locator = .ok pre ∧
        (body.locator = intent.locator ∨ body.locator = pre.locator))
      (hblob : blobOf s.disk delta.cid = some { delta with promisedTarget := none }) :
      Step pol w id s (s.withEngine fun e =>
        { e with table := e.table.insert id (Entry.fresh body.intentId t delta fp0 pre stamp) })
  | rehydrated (s : Sys) (intent : Intent) (shape : PlanShape) (stamp : Timestamp)
      (hid : shape.id = id) (hsound : shape.Sound w intent)
      (halready : s.engine.plannedAlready (Canon.intent intent) = none)
      (hre : s.engine.rehydrating (Canon.intent intent) id = true)
      (hblob : blobOf s.disk shape.delta.cid = some { shape.delta with promisedTarget := none }) :
      Step pol w id s (s.withEngine fun e =>
        { e with table := e.table.insert id (Entry.rehydrated (Canon.intent intent) shape
          ((reconstruct e.records).stateOf id) (e.shadow.since[id]?.getD stamp)) })
  | restored (s : Sys) (row : StateRow) (planned : PlannedBody) (createdAt : Timestamp)
      (t : Transformation) (delta : PlannedDelta) (fp0 : Fingerprint) (pre : ObjectSnapshot)
      (intentId : IntentId) (provenance : Provenance)
      (habsent : id ∉ s.engine.table) (hrow : rowOf? id (s.engine.notes id) = some row)
      (hstate : row.state = some .committed ∨ row.state = some .superseded)
      (hprovenance : row.provenance = some provenance) (hintent : row.intentId = some intentId)
      (hdelta : row.deltaCid = some delta.cid) (hfp0 : row.fp0 = some (.ofFingerprint fp0))
      (hplanned : s.engine.plannedRecord id = some (planned, createdAt))
      (hpre : ∃ h, (w h).snapshot delta.substrate planned.locator = .ok pre)
      (hnames : t.Names id intentId delta) (hparents : t.parents = planned.parents) :
      Step pol w id s (s.withEngine (restored id
        (Entry.ofRow intentId t delta fp0 pre row provenance createdAt)
        (escrowOf? id (s.engine.notes id)) row.supersededBy))
  | idle (s : Sys) (f : Entry → Entry) (hf : Entry.Idle f)
      (hreceipt : Entry.Receipts s.engine.ledger id f) : Step pol w id s (s.live id f)
  | counted (s : Sys) (kind : Option VerdictKind) (note : Note) (stamp : Timestamp)
      (hlast : s.engine.records.getLast? = some (.about id note stamp))
      (hkind : note.tallied = some kind) (hpol : pol.rules id) :
      Step pol w id s (s.withEngine fun e => { e with verdicts := e.verdicts.count kind })
  | explained (s : Sys) (why : NotAttemptedBecause) :
      Step pol w id s (s.withEngine fun e =>
        { e with notAttemptedBecause := e.notAttemptedBecause.insert id why })
  | resumed (s : Sys) :
      Step pol w id s (s.withEngine fun e => { e with resumedRows := e.resumedRows + 1 })
  | indexed (s : Sys) (seq : ℕ) (hseq : seqOf? (s.engine.notes id) = some seq) :
      Step pol w id s (s.withEngine fun e => { e with committed := e.committed.insert id seq })
  | verifyStarted (s : Sys) (entry : Entry) (stamp : Timestamp)
      (hlive : s.engine.table[id]? = some entry) (hstate : entry.state = .candidate)
      (hclear : Unopposed w s.engine id entry) :
      Step pol w id s ((s.note id .verifyStarted stamp).live id fun e =>
        { e with state := .verifying, since := stamp })
  | unverified (s : Sys) (entry : Entry) (reason : AbortReason) (stamp : Timestamp)
      (hlive : s.engine.table[id]? = some entry) (hstate : entry.state = .verifying) :
      Step pol w id s ((s.note id (.aborted reason none) stamp).live id fun e =>
        { e with state := .aborted reason, since := stamp })
  | ruled (s : Sys) (entry : Entry) (kind : VerdictKind) (digest : Cid) (stamp : Timestamp)
      (hlive : s.engine.table[id]? = some entry) (hstate : entry.state = .verifying)
      (hpol : pol.rules id) :
      Step pol w id s ((s.note id (.verdict kind (some digest) false) stamp).live id fun e =>
        { e with
          verdict := some kind
          verdictDigest := some digest
          state := stateOfVerdict kind
          since := stamp })
  | opened (s : Sys) (entry : Entry) (stamp : Timestamp)
      (hlive : s.engine.table[id]? = some entry) (hstate : entry.state = .verifying)
      (hpol : pol.rules id) :
      Step pol w id s ((s.note id (.verdict .Admit none true) stamp).live id fun e =>
        { e with
          verdict := none
          verdictDigest := none
          enforced := false
          failPostureEngaged := true
          state := .admitted
          since := stamp })
  | decided (s : Sys) (entry : Entry) (ruling : HumanRuling) (stamp : Timestamp)
      (hlive : s.engine.table[id]? = some entry) (hstate : entry.state = .escalated)
      (hdecision : ruling.decision ≠ .Escalate) (hpol : pol.rules id) :
      Step pol w id s ((s.note id (.humanDecision ruling.decision ruling.reason ruling.actor
          (some (Canon.ruling ruling))) stamp).live id fun e =>
        { e with
          verdict := some ruling.decision
          verdictDigest := some (Canon.ruling ruling)
          state := stateOfVerdict ruling.decision
          since := stamp })
  | canonicalized (s : Sys) (entry : Entry) (enforced : Option Bool) (stamp : Timestamp)
      (hlive : s.engine.table[id]? = some entry)
      (hstate : entry.state = .admitted ∨ entry.state = .denied)
      (henforced : enforced = if entry.state = .denied ∨ !entry.enforced then some false else none)
      (hpol : entry.state = .denied → pol.carries s.engine id) :
      Step pol w id s ((s.note id (.canonicalized entry.transformation.cid enforced) stamp).live id
        fun e =>
          { e with
            canonicalCid := some entry.transformation.cid
            enforced := if enforced = some false then false else e.enforced
            state := .canonicalized
            since := stamp })
  | committing (s : Sys) (entry : Entry) (stamp : Timestamp)
      (hlive : s.engine.table[id]? = some entry) (hstate : entry.state = .canonicalized)
      (hcanonical : entry.canonicalCid.isSome)
      (hverdict :
        (receiptVerdict entry.verdict entry.verdictDigest entry.failPostureEngaged).isSome)
      (hpol : pol.commits s.engine id) :
      Step pol w id s ((s.append (.about id .committingStarted stamp)).live id fun e =>
        { e with state := .committing, since := stamp })
  | provenance (s : Sys) (entry : Entry) (stamp : Timestamp) (hcommit : InCommit s id entry)
      (hpol : ∃ before, pol.commits before id) :
      Step pol w id s ((s.append (.about id
          (.provenanceDerived (deriveProvenance s.engine entry)) stamp)).live id fun e =>
        { e with provenance := some (deriveProvenance s.engine entry) })
  | escrowed (s : Sys) (entry : Entry) (outcome : InvertOutcome) (pending : Bool)
      (stamp : Timestamp) (hcommit : InCommit s id entry) :
      Step pol w id s (s.note id (.inverseEscrowed (escrowBody outcome pending)) stamp)
  | escrowHeld (s : Sys) (row : EscrowRow) (hrow : escrowOf? id (s.engine.notes id) = some row)
      (hpending : row.status = .pending → id ∈ s.engine.table) :
      Step pol w id s (s.withEngine fun e => { e with escrow := e.escrow.insert id row })
  | announced (s : Sys) (entry : Entry) (delta : PlannedDelta) (stamp : Timestamp)
      (hcommit : InCommit s id entry)
      (hescrowed : ∃ body, .inverseEscrowed body ∈ attempt (s.engine.notes id))
      (hpol : ∃ before, pol.commits before id) :
      Step pol w id s ((s.note id (.applyStarted delta.cid) stamp).live id fun e =>
        { e with applyStarted := some delta.cid })
  | announcedAgain (s : Sys) (row : StateRow) (cid : Cid) (stamp : Timestamp)
      (hresume : InResume s row) (hid : row.transformation = id)
      (hannounced : row.applyStarted.isSome) (hleaf : leafOf s.engine.ledger id = none)
      (hcid : row.deltaCid = some cid)
      (hpol : ∃ notes, pol.reapplies id notes ∧ (s.engine.notes id = notes ∨
        ∃ inverse, s.engine.notes id = notes ++ [.inverseCompleted inverse])) :
      Step pol w id s (s.note id (.applyStarted cid) stamp)
  | applied (s : Sys) (kind : SubstrateKind) (delta : PlannedDelta) (stamp : Timestamp)
      (hlast : s.engine.records.getLast? = some (.about id (.applyStarted delta.cid) stamp)) :
      Step pol w id s (s.push (.apply id delta ((w s.history).apply kind delta)))
  | observed (s : Sys) (entry : Entry) (cid : Cid) (stamp : Timestamp)
      (hcommit : InCommit s id entry) :
      Step pol w id s (s.note id (.applyObserved cid) stamp)
  | observationNamed (s : Sys) (cid : Cid)
      (hcid : (s.engine.row id).observationCid = some cid) :
      Step pol w id s (s.live id fun e => { e with observationCid := some cid })
  | completed (s : Sys) (inverse : Option Cid) (stamp : Timestamp)
      (hstate : stateOf? (s.engine.notes id) = some .committing)
      (hpending : ∃ row, escrowOf? id (s.engine.notes id) = some row ∧ row.status = .pending) :
      Step pol w id s (s.note id (.inverseCompleted inverse) stamp)
  | leafed (s : Sys) (entry : Entry) (outcome : InvertOutcome) (applied : AppliedDelta)
      (facts : CommitFacts) (stamp : Timestamp) (hleaf : LiveLeaf s id entry outcome applied facts) :
      Step pol w id s
        (s.leafed (stagedLeaf s.engine.ledger id facts.payload.ledgerDigest stamp))
  | leafedAgain (s : Sys) (row : StateRow) (delta : PlannedDelta) (applied : AppliedDelta)
      (facts : CommitFacts) (stamp : Timestamp) (hid : row.transformation = id)
      (hleaf : RebuiltLeaf s row delta applied facts)
      (hpol : ∃ notes, pol.reapplies id notes ∧ notes <+: s.engine.notes id) :
      Step pol w id s
        (s.leafed (stagedLeaf s.engine.ledger id facts.payload.ledgerDigest stamp))
  | committed (s : Sys) (leaf : LedgerEntry) (stamp : Timestamp)
      (hleaf : leafOf s.engine.ledger id = some leaf)
      (hstate : stateOf? (s.engine.notes id) = some .committing) :
      Step pol w id s ((s.note id (.committed leaf.index) stamp).withEngine fun e =>
        { e with committed := e.committed.insert id leaf.index })
  | closed (s : Sys) (f : Entry → Entry) (stamp : Timestamp)
      (hstate : stateOf? (s.engine.notes id) = some .committed)
      (hf : ∀ e, f e = { e with
        state := .committed
        since := stamp
        appliedAt := (f e).appliedAt
        receipt := (f e).receipt })
      (hreceipt : Entry.Receipts s.engine.ledger id f) : Step pol w id s (s.live id f)
  | aborted (s : Sys) (reason : AbortReason) (rollback : Option Rollback) (stamp : Timestamp)
      (hmay : MayAbort s id) :
      Step pol w id s ((s.note id (.aborted reason rollback) stamp).live id fun e =>
        { e with rollback := rollback, state := .aborted reason, since := stamp })
  | superseded (s : Sys) (by_ : TransformationId) (stamp : Timestamp)
      (horiginal : supersededOriginal s.engine by_ = some id)
      (hcommitted : stateOf? (s.engine.notes by_) = some .committed) :
      Step pol w id s (((s.note id (.superseded by_) stamp).withEngine fun e =>
        { e with
          supersedes := e.supersedes.insertIfNew id by_
          escrow := e.escrow.modify id fun row => { row with status := .consumed by_ } }).live id
        fun e => { e with supersededBy := some by_, state := .superseded, since := stamp })

/-- A move of the engine on one of a set of transformations. -/
def Move (pol : Policy) (ids : TransformationId → Prop) (w : World) (s s' : Sys) : Prop :=
  ∃ id, ids id ∧ Step pol w id s s'

end Tracefold
