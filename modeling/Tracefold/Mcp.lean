import Mathlib.Tactic.Common
import Tracefold.Canon
import Tracefold.Library.Prog
import Tracefold.Locator

/-! The MCP adapter: what it asks a server, and under which position. -/

namespace Tracefold.Mcp

open Library Locator

variable [Canon]

/-- One operation: a tool call at a position, and the members its arguments are still owed. -/
structure McpOp where
  arguments : Bytes
  locator : Text
  pending : List (Text × Text)
  tool : Text
  deriving DecidableEq, Repr

/-- What a transport is asked. -/
inductive Request where
  | read (server resource : Text)
  | readPriorByTool (server tool : Text) (arguments : Bytes)
  | call (server resource tool : Text) (arguments : Bytes) (delta : DeltaRef)
  deriving DecidableEq

/-- What a transport says instead of an answer: there is nothing, or it cannot tell. -/
inductive Fault where
  | answeredAbsent
  | unanswered
  deriving DecidableEq

inductive Error where
  | foreignDelta
  | payloadUnreadable
  | unimplemented
  | notPlannable
  | notAPosition (why : NotAPosition)
  | notDigestible
  | scopeTooLong
  | locatorMismatch (expected got : Text)
  | declarationUnsound
  | objectUnbound
  | readFailure
  | transport (fault : Fault)
  deriving DecidableEq

/-- A read of the object's state that a deployment declares for a prefix of resources. -/
structure CasRead where
  byTool : Text
  arguments : (server resource : Text) → Option Bytes
  binds : (resource : Text) → (contents : Bytes) → Bool

/-- A read of the prior contents that a deployment declares for a tool. -/
structure PriorRead where
  byTool : Text
  argumentsFromForward : Bytes → Option Bytes
  resourceFrom : (contents arguments : Bytes) → Option Text

structure RestoreSpec where
  restoredBy : Text
  readBy : Option PriorRead
  template : Option ((arguments contents : Bytes) → Option (Bytes × List (Text × Text)))

/-- A server, the catalogue a deployment declares for it, and gx-canon's codec. -/
structure Deployment where
  answers : List Request → Request → Except Fault Bytes
  casReadFor : (resource : Text) → Option CasRead
  specFor : (tool : Text) → Option RestoreSpec
  entrySound : (tool : Text) → Bool
  onReadFailureRefuses : Bool
  encode : List McpOp → Option Bytes
  decode : Bytes → Option (List McpOp)
  decodeGoal : Bytes → Option (Text × Bytes)
  restoreArguments : (uri : Text) → (contents : Bytes) → Option Bytes
  contentDigest : Bytes → Cid
  snapshotId : Text → Cid → ObjectId
  elided : String → String

/-- The codec reads back what it has written. -/
def Deployment.RoundTrips (d : Deployment) : Prop :=
  ∀ ops payload, d.encode ops = some payload → d.decode payload = some ops

/-- What has been asked, and the log of the deltas that were applied. -/
structure Wire where
  requests : List Request
  applied : List DeltaRef

abbrev Road (α : Type) := Prog Deployment Wire Error α

def maxOps : ℕ := 1

def maxForwardPayloadBytes : ℕ := 1024 * 1024

def maxInversePayloadBytes : ℕ := 1024 * 1024

/-- One round trip to the server, its fault kept as an answer. -/
def tryTransport (request : Request) : Road (Except Fault Bytes) := fun d s =>
  (.ok (d.answers s.requests request), { s with requests := s.requests ++ [request] })

/-- One round trip to the server. -/
def transport (request : Request) : Road Bytes := do
  match ← tryTransport request with
  | .ok bytes => pure bytes
  | .error fault => Prog.throw (.transport fault)

/-- `locator::parse` of a string, as the adapter's methods call it. -/
def parsed (locator : String) : Road Position :=
  match parse locator.toList with
  | .ok position => pure position
  | .error why => Prog.throw (.notAPosition why)

/-- `McpOp::well_formed`. -/
def McpOp.wellFormed (op : McpOp) : Bool := !op.tool.isEmpty

/-- `McpOp::position`. -/
def McpOp.position (op : McpOp) : Except Error Position :=
  if op.wellFormed then
    match parse op.locator with
    | .ok position => .ok position
    | .error why => .error (.notAPosition why)
  else .error .payloadUnreadable

/-- `McpDelta::decode`, and the one operation of what it accepts. -/
def Deployment.decodeOne (d : Deployment) (payload : Bytes) : Except Error McpOp :=
  match d.decode payload with
  | none => .error .payloadUnreadable
  | some ops =>
    if maxOps < ops.length then .error .unimplemented
    else
      match ops with
      | [] => .error .payloadUnreadable
      | op :: _ => if ops.all McpOp.wellFormed then .ok op else .error .payloadUnreadable

/-- The operation of a delta and its position. -/
def operationOf (delta : PlannedDelta) : Road (McpOp × Position) := do
  let d ← Prog.ask
  if delta.substrate ≠ .mcp then Prog.throw .foreignDelta
  else
    match d.decodeOne delta.payload with
    | .error e => Prog.throw e
    | .ok op =>
      match op.position with
      | .error e => Prog.throw e
      | .ok position => pure (op, position)

/-- `elide_scope`. -/
def Deployment.elideScope (d : Deployment) (scope : String) : String :=
  if scope.utf8ByteSize ≤ maxScopeBytes then scope else d.elided scope

/-- `Fingerprint::new` over the scope of a position. -/
def fingerprintAt (position : Position) (digest : Cid) : Road Fingerprint := do
  let d ← Prog.ask
  let scope := d.elideScope (String.ofList position.locator)
  if h : scope.utf8ByteSize ≤ maxScopeBytes then pure ⟨.mcp, scope, digest, h⟩
  else Prog.throw .scopeTooLong

/-- `cas::read_subject`. -/
def readSubject (position : Position) : Road Bytes := do
  let d ← Prog.ask
  match d.casReadFor position.resource with
  | none => transport (.read position.server position.resource)
  | some read =>
    let arguments ← Prog.orThrow (read.arguments position.server position.resource)
      .declarationUnsound
    let contents ← transport (.readPriorByTool position.server read.byTool arguments)
    if read.binds position.resource contents then pure contents else Prog.throw .objectUnbound

/-- `McpAdapter::snapshot`. -/
def snapshot (locator : String) : Road ObjectSnapshot := do
  let d ← Prog.ask
  let position ← parsed locator
  let contents ← readSubject position
  let digest := d.contentDigest contents
  pure ⟨d.snapshotId position.locator digest, .mcp, String.ofList position.locator, digest, .bytes⟩

/-- `McpAdapter::precondition`. -/
def precondition (snap : ObjectSnapshot) : Road Fingerprint := do
  let d ← Prog.ask
  let position ← parsed snap.locator
  let contents ← readSubject position
  fingerprintAt position (d.contentDigest contents)

/-- `plan::plan`. -/
def plan (intent : Intent) (_pre : ObjectSnapshot) : Road PlannedDelta := do
  let d ← Prog.ask
  if intent.substrate ≠ .mcp then Prog.throw .notPlannable
  else
    let position ← parsed intent.locator
    let call ← Prog.orThrow (d.decodeGoal intent.goal) .notPlannable
    if call.1.isEmpty then Prog.throw .notPlannable
    else
      let payload ← Prog.orThrow (d.encode [⟨call.2, position.locator, [], call.1⟩]) .notDigestible
      if maxForwardPayloadBytes < payload.length then Prog.throw .notPlannable
      else pure ⟨.mcp, payload, none⟩

/-- The prior contents, by the road the declaration names. -/
def readPrior (restore : RestoreSpec) (op : McpOp) (position : Position) :
    Road (Except Fault Bytes) :=
  match restore.readBy with
  | none => tryTransport (.read position.server position.resource)
  | some prior => do
    let arguments ← Prog.orThrow (prior.argumentsFromForward op.arguments) .declarationUnsound
    tryTransport (.readPriorByTool position.server prior.byTool arguments)

/-- Whether the object a declared read answered for is the one the change is about. -/
def boundTo (restore : RestoreSpec) (op : McpOp) (position : Position) (contents : Bytes) : Bool :=
  match restore.readBy with
  | none => true
  | some prior =>
    match prior.resourceFrom contents op.arguments with
    | none => false
    | some spelled => normalize spelled = position.resource

/-- The operation that restores, if the declaration can be resolved from this call. -/
def restoreOp (d : Deployment) (restore : RestoreSpec) (op : McpOp) (position : Position)
    (contents : Bytes) : Except Error (Option McpOp) :=
  match restore.template with
  | none =>
    match d.restoreArguments position.resource contents with
    | none => .error .notDigestible
    | some arguments => .ok (some ⟨arguments, position.locator, [], restore.restoredBy⟩)
  | some resolveSplit =>
    match resolveSplit op.arguments contents with
    | none => .ok none
    | some (arguments, pending) =>
      .ok (some ⟨arguments, position.locator, pending, restore.restoredBy⟩)

/-- The inverse an escrow keeps, behind the read of the prior contents. -/
def escrowed (restore : RestoreSpec) (op : McpOp) (position : Position) (contents : Bytes) :
    Road InvertOutcome := do
  let d ← Prog.ask
  let reads : List ReadEntry := [⟨d.contentDigest contents, String.ofList position.resource⟩]
  if boundTo restore op position contents then
    match restoreOp d restore op position contents with
    | .error e => Prog.throw e
    | .ok none => pure (.none reads)
    | .ok (some out) =>
      let payload ← Prog.orThrow (d.encode [out]) .notDigestible
      if maxInversePayloadBytes < payload.length then pure (.none reads)
      else pure (.inverted ⟨.mcp, payload, none⟩ reads)
  else if d.onReadFailureRefuses then Prog.throw .objectUnbound
  else pure (.undetermined [])

/-- `invert::invert_with_verdict`. -/
def invert (delta : PlannedDelta) (pre : ObjectSnapshot) : Road InvertOutcome := do
  let d ← Prog.ask
  let (op, position) ← operationOf delta
  let named := normalize pre.locator.toList
  if named ≠ position.locator then Prog.throw (.locatorMismatch position.locator named)
  else
    match d.specFor op.tool with
    | none => pure (.none [])
    | some restore =>
      if !d.entrySound op.tool then Prog.throw .declarationUnsound
      else
        match ← readPrior restore op position with
        | .ok contents => escrowed restore op position contents
        | .error fault =>
          if d.onReadFailureRefuses then
            Prog.throw (if restore.readBy.isSome then .readFailure else .transport fault)
          else pure (.undetermined [])

/-- The read of `observe`: an object a call has removed is one without contents. -/
def observedDigest (position : Position) : Road Cid := fun d s =>
  match readSubject position d s with
  | (.ok contents, s') => (.ok (d.contentDigest contents), s')
  | (.error (.transport .answeredAbsent), s') => (.ok (d.contentDigest []), s')
  | (.error e, s') => (.error e, s')

/-- `apply::observe`. -/
def observe (position : Position) (delta : PlannedDelta) (observation : Option Bytes) :
    Road AppliedDelta := do
  let digest ← observedDigest position
  let postcondition ← fingerprintAt position digest
  pure ⟨delta.reference, postcondition, digest, 0, observation⟩

/-- `apply::apply`: the call is made unless the log has the delta, and the log gets it behind the
call. -/
def apply (delta : PlannedDelta) : Road AppliedDelta := do
  let (op, position) ← operationOf delta
  let s ← Prog.get
  if delta.reference ∈ s.applied then observe position delta none
  else
    let answered ← transport
      (.call position.server position.resource op.tool op.arguments delta.reference)
    Prog.modify fun s => { s with applied := delta.reference :: s.applied }
    observe position delta (some answered)

end Tracefold.Mcp
