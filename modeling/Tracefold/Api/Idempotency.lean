import Mathlib.Tactic.Common
import Tracefold.Handlers

/-! The key files of a server, and a commit or an undo request as the steps it takes around them and
around the engine, which other requests may take theirs between. -/

namespace Tracefold.Api.Idempotency

open Library Engine

section Store

/-- The endpoint of a request, with what its body says. -/
inductive Endpoint where
  | commit (recordOnly : Option Bool)
  | undo (actor : Option Actor)
  deriving DecidableEq, Repr

/-- What is compared of two requests under one key. -/
structure RequestBody where
  endpoint : Endpoint
  transformation : TransformationId
  deriving DecidableEq, Repr

/-- The body of an answer. A time is in it to the nanosecond; an undo without a receipt answers
`null`. -/
inductive Response where
  | committed (receipt : Option Receipt) (transformation : TransformationId)
      (enforced : Option Bool) (at_ : Timestamp)
  | undone (receipt : Receipt) (transformation undone : TransformationId)
      (supersededState : Option Lifecycle) (enforced : Option Bool) (at_ : Timestamp)
      (witness : String)
  | null
  deriving DecidableEq, Repr

/-- One remembered response. -/
structure Entry where
  request : RequestBody
  response : Response
  status : ℕ
  atUnixNanos : Timestamp
  deriving DecidableEq, Repr

/-- The file of one transformation: every key seen for it. -/
abbrev Wire := BTreeMap String Entry

/-- What each file is read as; one that is not there, or that does not parse, is as good as none. -/
abbrev Store := TransformationId → Option Wire

def ttlNanos : Int := 24 * 60 * 60 * 1000000000

/-- `i64::saturating_sub`. -/
def saturatingSub (a b : Timestamp) : Int := max (-2 ^ 63) (min (2 ^ 63 - 1) (a - b))

namespace Store

/-- `IdempotencyStore::get`. -/
def get (store : Store) (id : TransformationId) (key : String) (now : Timestamp) : Option Entry := do
  let wire ← store id
  let entry ← wire[key]?
  if ttlNanos < saturatingSub now entry.atUnixNanos then none else some entry

/-- The first half of `IdempotencyStore::put`. -/
def read (store : Store) (id : TransformationId) : Wire := (store id).getD ∅

/-- The second half of it: the file is written over. -/
def write (store : Store) (id : TransformationId) (wire : Wire) : Store :=
  fun other => if other = id then some wire else store other

end Store

inductive Refusal where
  | idempotencyConflict (recorded request : RequestBody)
  | notFound
  | ledgerDisagrees
  | notAdmitted
  | escalationPending
  | inverseUnavailable (status : Option InverseStatus)
  | preconditionChanged
  | applyFailed
  | internal
  | engine (why : Tracefold.Error)
  deriving DecidableEq, Repr

/-- A status and a body, or a refusal. -/
abbrev Answer := Except Refusal (ℕ × Response)

/-- `replay_or_conflict`. -/
def replayOrConflict (entry : Entry) (request : RequestBody) : Answer :=
  if entry.request ≠ request then .error (.idempotencyConflict entry.request request)
  else .ok (entry.status, entry.response)

end Store

section Engine

variable [Canon]

/-- What a server is started with. -/
structure Setup where
  drafts : Drafts
  signer : KeyId
  keepsReceipts : Bool
  verifies : Receipt → Bool

/-- A part of a handler under the lock of the engine. -/
abbrev Handling := ExceptT Refusal M

/-- An operation of the engine, its error as a refusal. -/
def askingOr (refusal : Engine → Tracefold.Error → Refusal) (x : M α) : Handling α :=
  ExceptT.mk fun w s =>
    match x w s with
    | (.ok a, s') => (.ok (.ok a), s')
    | (.error (.err why), s') => (.ok (.error (refusal s'.engine why)), s')
    | (.error .crash, s') => (.error .crash, s')

def asking (x : M α) : Handling α := askingOr (fun _ why => .engine why) x

/-- `AppState::engine_for_write`. -/
def engineForWrite : Handling Unit := do
  asking (Prog.modify fun s => s.withEngine fun e => e.catchUp s.disk)
  let e ← asking self
  if e.ledgerAgrees then pure () else throw .ledgerDisagrees

/-- `canonicalise_refusal`. -/
def canonicaliseRefusal (lifecycle : Option Lifecycle) (why : Tracefold.Error) : Refusal :=
  match lifecycle with
  | some .denied => .notAdmitted
  | some .escalated => .escalationPending
  | _ => .engine why

/-- `aborted_refusal`. -/
def abortedRefusal : Lifecycle → Refusal
  | .aborted .preconditionChanged => .preconditionChanged
  | .aborted .applyFailed => .applyFailed
  | _ => .internal

/-- `halted_undo`. -/
def haltedUndo (lifecycle : Option Lifecycle) : Refusal :=
  match lifecycle with
  | some .denied => .notAdmitted
  | some .escalated => .escalationPending
  | some (.aborted .preconditionChanged) => .preconditionChanged
  | some (.aborted .applyFailed) => .applyFailed
  | _ => .internal

/-- What the engine did for a request. -/
inductive Road where
  | alreadyCommitted
  | committed
  | undone (undoing : TransformationId) (witness : String)
  deriving DecidableEq, Repr

/-- The section of `commit_candidate` under the lock of the engine. -/
def commitSection (setup : Setup) (id : TransformationId) (recordOnly : Option Bool)
    (at_ : Timestamp) : Handling Road := do
  let mode := recordOnly.map fun on => if on then .recordOnly else .enforce
  engineForWrite
  asking (Handlers.withABody setup.drafts id at_)
  let e ← asking self
  match e.state id with
  | none => throw .notFound
  | some .committed => pure .alreadyCommitted
  | some _ =>
    let _ ← askingOr (fun e why => canonicaliseRefusal (e.state id) why) (canonicalize id at_ mode)
    let lifecycle ← asking (commit id at_ setup.signer)
    if lifecycle = .committed then pure .committed else throw (abortedRefusal lifecycle)

/-- `ReceiptArchive::load_commit`. -/
def loadCommit (setup : Setup) (disk : Disk) (id : TransformationId) : Option Receipt :=
  if setup.keepsReceipts then disk.receipts[id]? else none

/-- `undo_witness`. -/
def undoWitness (setup : Setup) (disk : Disk) (id : TransformationId) : UndoWitness :=
  match loadCommit setup disk id with
  | none => .missing
  | some receipt =>
    if !setup.verifies receipt then .missing
    else if receipt.payload.transformation ≠ id then .missing
    else
      match receipt.payload.postconditionFingerprint with
      | some digest => .attested digest
      | none => .unobservable .noPostcondition

/-- `UndoWitness::word`. -/
def word : UndoWitness → String
  | .attested _ => "attested"
  | .unobservable why => "unobservable:" ++ why.reason
  | .missing => "missing"

/-- The section of `undo_transformation` under the lock of the engine. -/
def undoSection (setup : Setup) (id : TransformationId) (at_ : Timestamp) (seed : ℕ) :
    Handling Road := do
  engineForWrite
  let e ← asking self
  if e.state id = none then throw .notFound
  asking (Handlers.withABody setup.drafts id at_)
  let s ← asking Prog.get
  match s.engine.inverseStatus s.disk id with
  | some .available =>
    let witness := undoWitness setup s.disk id
    let (_, undoing) ← asking (undo id witness seed at_)
    let verified ← asking (verify undoing at_ setup.signer none)
    let e ← asking self
    let recording := e.config.mode = .recordOnly
    if verified ≠ .admitted ∧ ¬ (recording ∧ verified = .denied) then
      throw (haltedUndo (e.state undoing))
    let _ ← asking (canonicalize undoing at_ none)
    let reached ← asking (commit undoing at_ setup.signer)
    let e ← asking self
    if reached = .committed then pure (.undone undoing (word witness))
    else throw (haltedUndo (e.state undoing))
  | status => throw (.inverseUnavailable status)

/-- `archive_commit_receipt`. -/
def archiveCommitReceipt (setup : Setup) (id : TransformationId) (s : Sys) : Sys :=
  match s.engine.table[id]?.bind (·.receipt) with
  | some receipt =>
    if setup.keepsReceipts then
      { s with
        history := s.history ++ [.receipt id receipt]
        disk := { s.disk with receipts := s.disk.receipts.insert id receipt } }
    else s
  | none => s

/-- `receipt_value`. -/
def receiptValue (setup : Setup) (id : TransformationId) (s : Sys) : Option Receipt :=
  s.engine.table[id]?.bind (·.receipt) <|> loadCommit setup s.disk id

/-- What `undo_transformation` answers with. -/
def undoneResponse (id undoing : TransformationId) (witness : String) (at_ : Timestamp)
    (e : Engine) : Response :=
  match e.table[undoing]?.bind (·.receipt) with
  | some receipt => .undone receipt undoing id (e.state id) (e.enforced undoing) at_ witness
  | none => .null

end Engine

section Server

structure Request where
  endpoint : Endpoint
  id : TransformationId
  key : Option String
  deriving DecidableEq, Repr

def Request.body (request : Request) : RequestBody := ⟨request.endpoint, request.id⟩

/-- How far a request has come, with what its handler holds then. The clock is read once. -/
inductive Phase where
  | arrived
  | missed (at_ : Timestamp)
  | decided (at_ : Timestamp) (road : Road)
  | filed (at_ : Timestamp) (road : Road)
  | received (at_ : Timestamp) (receipt : Option Receipt)
  | composed (at_ : Timestamp) (response : Response)
  | opened (at_ : Timestamp) (response : Response) (wire : Wire)
  | answered (answer : Answer)
  | lost

structure Call where
  request : Request
  phase : Phase

/-- An engine with its files, the key files, and the requests of a server. -/
structure Server where
  sys : Sys
  store : Store
  calls : List Call

variable [Canon]

/-- The section of a request under the lock of the engine. -/
def engineSection (setup : Setup) (request : Request) (at_ : Timestamp) (seed : ℕ) : Handling Road :=
  match request.endpoint with
  | .commit recordOnly => commitSection setup request.id recordOnly at_
  | .undo _ => undoSection setup request.id at_ seed

/-- A row that had been committed before has its receipt filed. -/
def archived (setup : Setup) (request : Request) (s : Sys) : Road → Sys
  | .alreadyCommitted => s
  | .committed => archiveCommitReceipt setup request.id s
  | .undone undoing _ => archiveCommitReceipt setup undoing s

/-- The phase behind an answer of the engine. -/
def sectionPhase (at_ : Timestamp) : Except Stop (Except Refusal Road) → Phase
  | .ok (.ok road) => .decided at_ road
  | .ok (.error refusal) => .answered (.error refusal)
  | .error (.err why) => .answered (.error (.engine why))
  | .error .crash => .lost

/-- What is remembered of an answer. -/
def remembered (request : Request) (at_ : Timestamp) (response : Response) : Entry :=
  ⟨request.body, response, 200, at_⟩

/-- One step of a request; `now` is what the clock says, and `seed` what the server's entropy. -/
def advance (setup : Setup) (w : World) (now : Timestamp) (seed : ℕ) (request : Request)
    (sys : Sys) (store : Store) : Phase → Phase × Sys × Store
  | .arrived =>
    match request.key.bind fun key => store.get request.id key now with
    | some entry => (.answered (replayOrConflict entry request.body), sys, store)
    | none => (.missed now, sys, store)
  | .missed at_ =>
    match engineSection setup request at_ seed w sys with
    | (answer, sys') => (sectionPhase at_ answer, sys', store)
  | .decided at_ road => (.filed at_ road, archived setup request sys road, store)
  | .filed at_ (.undone undoing witness) =>
    (.composed at_ (undoneResponse request.id undoing witness at_ sys.engine), sys, store)
  | .filed at_ _ => (.received at_ (receiptValue setup request.id sys), sys, store)
  | .received at_ receipt =>
    (.composed at_ (.committed receipt request.id (sys.engine.enforced request.id) at_), sys, store)
  | .composed at_ response =>
    match request.key with
    | some _ => (.opened at_ response (store.read request.id), sys, store)
    | none => (.answered (.ok (200, response)), sys, store)
  | .opened at_ response wire =>
    match request.key with
    | some key =>
      (.answered (.ok (200, response)), sys,
        store.write request.id (wire.insert key (remembered request at_ response)))
    | none => (.answered (.ok (200, response)), sys, store)
  | .answered answer => (.answered answer, sys, store)
  | .lost => (.lost, sys, store)

/-- A request arrives, or one that has arrived takes its next step. -/
inductive Move where
  | arrive (request : Request)
  | turn (i : ℕ) (now : Timestamp) (seed : ℕ)

namespace Server

def move (setup : Setup) (w : World) (s : Server) : Move → Server
  | .arrive request => { s with calls := s.calls ++ [⟨request, .arrived⟩] }
  | .turn i now seed =>
    match s.calls[i]? with
    | none => s
    | some call =>
      match advance setup w now seed call.request s.sys s.store call.phase with
      | (phase, sys, store) => ⟨sys, store, s.calls.set i { call with phase := phase }⟩

def run (setup : Setup) (w : World) (s : Server) (moves : List Move) : Server :=
  moves.foldl (move setup w) s

end Server

end Server

end Tracefold.Api.Idempotency
