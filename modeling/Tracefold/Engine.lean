import Mathlib.Tactic.Common
import Tracefold.Canon
import Tracefold.Journal
import Tracefold.Library.Prog

/-! The engine's state: the files of a project, the tables of a process, the world outside, and
the steps by which the engine reads the world and writes its files. -/

namespace Tracefold

open Library

structure LedgerEntry where
  appendedAt : Timestamp
  index : ℕ
  leafCid : Cid
  receiptDigest : Cid
  transformation : TransformationId
  deriving DecidableEq, Repr

/-- The furthest point of both files that a signed head recorded. -/
structure HeadFloor where
  treeSize : ℕ
  rootHash : Cid
  journalLen : ℕ
  journalHead : Option Cid
  deriving DecidableEq, Repr

structure PersistedHead where
  floor : HeadFloor
  keyId : KeyId
  deriving DecidableEq, Repr

/-- The files of a project. -/
structure Disk where
  journal : List Record
  ledger : List LedgerEntry
  blobs : BTreeMap Cid (SubstrateKind × Bytes)
  observations : BTreeMap Cid Bytes
  receipts : BTreeMap TransformationId Receipt
  head : Option PersistedHead

def Disk.empty : Disk := ⟨[], [], ∅, ∅, ∅, none⟩

/-- What a gate answered; a verdict without a canonical form has no digest. -/
structure Verdict where
  kind : VerdictKind
  proofDigest : Option Cid
  deriving DecidableEq, Repr

structure GateInput where
  t : Transformation
  pre : ObjectSnapshot
  planned : Bytes
  evidence : Bytes
  decidedAt : Timestamp
  invertAvailable : Bool

/-- What befalls the next write: it lands, it fails and nothing is written, or the process dies
before it. -/
inductive Fault where
  | none
  | fail
  | crash
  deriving DecidableEq, Repr

/-- Everything the engine asks of the outside, at one moment. -/
structure Env where
  snapshot : SubstrateKind → String → Except String ObjectSnapshot
  plan : SubstrateKind → Intent → ObjectSnapshot → Except String PlannedDelta
  precondition : SubstrateKind → ObjectSnapshot → Except String Fingerprint
  apply : SubstrateKind → PlannedDelta → Except String AppliedDelta
  invert : SubstrateKind → PlannedDelta → ObjectSnapshot → Except String InvertOutcome
  commutation : SubstrateKind → PlannedDelta → PlannedDelta → Except String Commutation
  needsCompletion : SubstrateKind → PlannedDelta → Except String Bool
  completeInverse : PlannedDelta → Bytes → Except String (Option PlannedDelta)
  collect : Transformation → ObjectSnapshot → Except String Bytes
  gate : GateInput → Except String Verdict
  canonicalForm : Transformation → Except String Bytes
  fault : Fault

/-- What has happened, in order: every question put to the outside and every effect. -/
inductive Event where
  | asked
  | failed
  | crashed
  | journal (record : Record)
  | blob (cid : Cid)
  | observation (cid : Cid)
  | apply (id : TransformationId) (delta : PlannedDelta) (answer : Except String AppliedDelta)
  | leaf (entry : LedgerEntry)
  | receipt (id : TransformationId) (receipt : Receipt)
  | head (floor : HeadFloor)

/-- The outside may answer differently after every event. -/
abbrev World := List Event → Env

structure Entry where
  intentId : IntentId
  transformation : Transformation
  state : Lifecycle
  since : Timestamp
  blockedBy : Option TransformationId
  delta : PlannedDelta
  fp0 : Fingerprint
  pre : ObjectSnapshot
  verdict : Option VerdictKind
  verdictDigest : Option Cid
  enforced : Bool
  failPostureEngaged : Bool
  canonicalCid : Option Cid
  supersededBy : Option TransformationId
  applyStarted : Option Cid
  observationCid : Option Cid
  rollback : Option Rollback
  provenance : Option Provenance
  inverseCid : Option Cid
  appliedAt : Option Timestamp
  receipt : Option Receipt
  deriving DecidableEq, Repr

/-- Which of its optional questions a receipt archive answers. -/
structure CommitReceiptSink where
  answersKeyId : Bool
  answersReceipt : Bool
  deriving DecidableEq, Repr

/-- How a process is set up. -/
structure Config where
  adapters : SubstrateKind → Option String
  completions : SubstrateKind → Bool
  inputStages : SubstrateKind → Option BoundaryStage
  receiptSink : Option CommitReceiptSink
  mode : EnforcementMode
  posture : FailPosture
  confinement : ConfinementContext
  verifyTtl : Int
  escalationTtl : Int
  keepsHead : Bool
  version : String

structure Engine where
  config : Config
  records : List Record
  ledger : List LedgerEntry
  verdicts : VerdictTally
  drafted : BTreeMap IntentId ℕ
  table : BTreeMap TransformationId Entry
  notAttemptedBecause : BTreeMap TransformationId NotAttemptedBecause
  resolved : BTreeMap IntentId (List TransformationId)
  escrow : BTreeMap TransformationId EscrowRow
  supersedes : BTreeMap TransformationId TransformationId
  committed : BTreeMap TransformationId ℕ
  shadow : SigmaShadow
  journalDeparture : Bool
  headFloor : Option HeadFloor
  headKeyId : Option KeyId
  rolledBack : Bool
  resumedRows : ℕ

inductive UndoRefusal where
  | notOurs
  | noBody (state : String)
  | notCommitted (state : String)
  | noEscrow
  | inverseUnavailable
  | inversePending
  | alreadyUndone
  | noAdapter
  | worldMoved (expected found : Cid) (scope : String)
  | alreadyPlanned (state : String)
  | witnessMissing
  | witnessDiffers
  deriving DecidableEq, Repr

inductive Error where
  | notFound (what : String)
  | invalidState (state attempted : String)
  | undo (why : UndoRefusal)
  | adapter (action : String)
  | witness (action : String)
  | ledger (action : String)
  | transformation
  | malformed
  | unrepresentable
  | notIdempotent
  | appendOnlyOrNotExecutable
  | io
  deriving DecidableEq, Repr

inductive Stop where
  | err (why : Error)
  | crash
  deriving DecidableEq, Repr

structure Sys where
  history : List Event
  disk : Disk
  engine : Engine

/-- The engine's operations. -/
abbrev M := Prog World Sys Stop

namespace Engine

/-- The adapter of a substrate is registered. -/
def adapter (kind : SubstrateKind) : M Unit := do
  let s ← Prog.get
  match s.engine.config.adapters kind with
  | some _ => pure ()
  | none => Prog.throw (.err (.notFound "adapter"))

def fail (why : Error) : M α := Prog.throw (.err why)

def refuseIf (c : Prop) [Decidable c] (why : Error) : M Unit :=
  if c then fail why else pure ()

def whenSome (o : Option α) (f : α → M Unit) : M Unit :=
  match o with
  | some a => f a
  | none => pure ()

def self : M Engine := do
  let s ← Prog.get
  return s.engine

def update (f : Engine → Engine) : M Unit := Prog.modify fun s => { s with engine := f s.engine }

/-- Put a question to the outside. -/
def query (f : Env → α) : M α := do
  let w ← Prog.ask
  let s ← Prog.get
  Prog.modify fun s => { s with history := s.history ++ [.asked] }
  return f (w s.history)

/-- A question whose refusal ends the operation. -/
def queryOr (action : String) (f : Env → Except String α) : M α := do
  match ← query f with
  | .ok a => pure a
  | .error _ => fail (.adapter action)

/-- A durable write: it lands whole, it fails and leaves nothing, or the process dies first. -/
def durable (event : Event) (write : Sys → Sys) (why : Error) : M Unit := do
  let w ← Prog.ask
  let s ← Prog.get
  match (w s.history).fault with
  | .none => Prog.modify fun s => write { s with history := s.history ++ [event] }
  | .fail => do
    Prog.modify fun s => { s with history := s.history ++ [.failed] }
    fail why
  | .crash => do
    Prog.modify fun s => { s with history := s.history ++ [.crashed] }
    Prog.throw .crash

/-- `EngineJournal::append`: the file and this process's copy of it. -/
def journalAppendOnly (record : Record) : M Unit :=
  durable (.journal record) (fun s =>
    { s with
      disk := { s.disk with journal := s.disk.journal ++ [record] }
      engine := { s.engine with records := s.engine.records ++ [record] } }) .io

/-- A record of the journal alone, and what this process makes of it. -/
def appendThen (record : Record) (f : Engine → Engine) : M Unit := do
  journalAppendOnly record
  update f

/-- `Engine::journal_append`, the journal and the shadow folded over what was written, and what
this process makes of the record. -/
def recordThen (record : Record) (f : Engine → Engine) : M Unit :=
  appendThen record fun e => f { e with shadow := e.shadow.fold record }

/-- The `Engine::journal_append` of a note about one transformation. -/
def noteThen (id : TransformationId) (note : Note) (stamp : Timestamp) (f : Engine → Engine) :
    M Unit :=
  recordThen (.about id note stamp) f

/-- A change of the row of the table, if there is one. -/
def onEntry (id : TransformationId) (f : Entry → Entry) (e : Engine) : Engine :=
  { e with table := e.table.modify id f }

variable [Canon]

def maxBlobBytes : ℕ := 2 ^ 20

def maxObservationBytes : ℕ := 2 ^ 20

/-- `BlobStore::put`. -/
def blobPut (d : PlannedDelta) : M Unit := do
  refuseIf (maxBlobBytes < Canon.blobBytes d.substrate d.payload) .malformed
  let s ← Prog.get
  if s.disk.blobs[d.cid]? = some (d.substrate, d.payload) then pure ()
  else
    durable (.blob d.cid) (fun s =>
      { s with disk :=
        { s.disk with blobs := s.disk.blobs.insert d.cid (d.substrate, d.payload) } }) .io

/-- What a blob rebuilds into: the delta without its promise, if it hashes to its name. -/
def blobOf (disk : Disk) (cid : Cid) : Option PlannedDelta :=
  match disk.blobs[cid]? with
  | some (substrate, payload) =>
    if maxBlobBytes < Canon.blobBytes substrate payload then none
    else
      let d : PlannedDelta := ⟨substrate, payload, none⟩
      if d.cid = cid then some d else none
  | none => none

/-- `BlobStore::get`. -/
def blobGet (cid : Cid) : M PlannedDelta := do
  let s ← Prog.get
  Prog.orThrow (blobOf s.disk cid) (.err (.notFound "blob"))

/-- `ObservationStore::put`, of bytes inside the ceiling. -/
def observationPut (bytes : Bytes) : M Unit := do
  let s ← Prog.get
  if s.disk.observations[Canon.observation bytes]? = some bytes then pure ()
  else
    durable (.observation (Canon.observation bytes)) (fun s =>
      { s with disk :=
        { s.disk with
          observations := s.disk.observations.insert (Canon.observation bytes) bytes } }) .io

/-- `ObservationStore::get`, an unreadable observation being an absent one. -/
def observationOf (disk : Disk) (cid : Cid) : Option Bytes :=
  match disk.observations[cid]? with
  | some bytes =>
    if maxObservationBytes < bytes.length then none
    else if Canon.observation bytes = cid then some bytes
    else none
  | none => none

/-- The leaf a transformation holds. -/
def leafOf (ledger : List LedgerEntry) (id : TransformationId) : Option LedgerEntry :=
  ledger.find? fun entry => entry.transformation = id

/-- `TileLog::root_at`. -/
def rootAt (ledger : List LedgerEntry) (treeSize : ℕ) : Option Cid :=
  if treeSize = 0 ∨ ledger.length < treeSize then none
  else mth ((ledger.take treeSize).map (·.leafCid))

/-- `prove_inclusion`. -/
def proveInclusion (ledger : List LedgerEntry) (index : ℕ) : Option InclusionProof :=
  if index < ledger.length then
    some ⟨index, ledger.length,
      auditPathFrom ledger.length index (ledger.map (·.leafCid))⟩
  else none

/-- The entry a ledger stages for its next leaf. -/
def stagedLeaf (ledger : List LedgerEntry) (id : TransformationId) (receiptDigest : Cid)
    (stamp : Timestamp) : LedgerEntry :=
  ⟨stamp, ledger.length, Canon.ledgerLeaf ledger.length receiptDigest id, receiptDigest, id⟩

/-- `LedgerStore::append`: one leaf a transformation, an equal one answered again. -/
def ledgerAppend (id : TransformationId) (receiptDigest : Cid) (stamp : Timestamp) :
    M LedgerEntry := do
  let e ← self
  match leafOf e.ledger id with
  | some recorded =>
    if recorded.receiptDigest = receiptDigest then pure recorded
    else fail (.ledger "append")
  | none =>
    let entry := stagedLeaf e.ledger id receiptDigest stamp
    durable (.leaf entry) (fun s =>
      { s with
        disk := { s.disk with ledger := s.disk.ledger ++ [entry] }
        engine := { s.engine with ledger := s.engine.ledger ++ [entry] } }) (.ledger "append")
    return entry

/-- `Engine::file_receipt`. -/
def fileReceipt (id : TransformationId) (receipt : Receipt) : M Unit := do
  let e ← self
  match e.config.receiptSink with
  | none => pure ()
  | some _ =>
    durable (.receipt id receipt) (fun s =>
      { s with disk := { s.disk with receipts := s.disk.receipts.insert id receipt } })
      (.witness "file the commit receipt")

/-- `CommitReceiptSink::filed_receipt`. -/
def filedReceipt (id : TransformationId) : M (Option Receipt) := do
  let s ← Prog.get
  return match s.engine.config.receiptSink with
    | some sink => if sink.answersReceipt then s.disk.receipts[id]? else none
    | none => none

/-- `CommitReceiptSink::filed_key_id`. -/
def filedKeyId (id : TransformationId) : M (Option KeyId) := do
  let s ← Prog.get
  return match s.engine.config.receiptSink with
    | some sink => if sink.answersKeyId then s.disk.receipts[id]?.map (·.payload.keyId) else none
    | none => none

/-- `head::compare`: this project is behind a head it has recorded. -/
def rollbackOf (floor : HeadFloor) (e : Engine) : Bool :=
  if e.ledger.length < floor.treeSize then true
  else if 0 < floor.treeSize ∧ rootAt e.ledger floor.treeSize ≠ some floor.rootHash then true
  else if e.records.length < floor.journalLen then true
  else if floor.journalHead.isSome ∧
      Canon.chainHead (e.records.take floor.journalLen) ≠ floor.journalHead then true
  else false

/-- `Engine::record_head`. -/
def recordHead (key : KeyId) : M Unit := do
  let e ← self
  if !e.config.keepsHead || e.rolledBack then pure ()
  else if e.headFloor.isNone ∧ 0 < e.resumedRows then pure ()
  else if e.ledger.length = 0 then pure ()
  else
    let treeSize := e.ledger.length
    let root := rootAt e.ledger treeSize
    match e.headFloor with
    | some floor =>
      if treeSize < floor.treeSize then pure ()
      else if treeSize = floor.treeSize then
        if root = some floor.rootHash then pure () else fail (.ledger "record the head")
      else writeHead e treeSize root
    | none => writeHead e treeSize root
where
  writeHead (e : Engine) (treeSize : ℕ) (root : Option Cid) : M Unit := do
    let rootHash ← Prog.orThrow root (.err (.ledger "build the head"))
    let floor : HeadFloor :=
      ⟨treeSize, rootHash, e.records.length, Canon.chainHead e.records⟩
    durable (.head floor) (fun s =>
      { s with
        disk := { s.disk with head := some ⟨floor, key⟩ }
        engine := { s.engine with headFloor := some floor } }) (.ledger "record the head")

end Engine

end Tracefold
