import Mathlib.Tactic.Common
import Mathlib.Algebra.Ring.Nat
import Mathlib.Algebra.Ring.Int.Defs

/-! The data model of gx-core, gx-substrate and gx-witness that the engine works on. -/

namespace Tracefold

open Std

/-- A content id. The source's 32 bytes are a list of any length here, so that a hash without
collisions exists. -/
structure Cid where
  digest : List ℕ
  deriving DecidableEq, Repr

instance : Ord Cid := ⟨fun a b => compare a.digest b.digest⟩

theorem Cid.compare_def (a b : Cid) : compare a b = compare a.digest b.digest := rfl

instance : TransOrd Cid where
  eq_swap := by
    intro a b
    simp only [Cid.compare_def]
    exact OrientedCmp.eq_swap
  isLE_trans := by
    intro a b c hab hbc
    simp only [Cid.compare_def] at hab hbc ⊢
    exact TransCmp.isLE_trans hab hbc

instance : LawfulEqOrd Cid where
  compare_self := by
    intro a
    simp only [Cid.compare_def]
    exact ReflCmp.compare_self
  eq_of_compare := by
    intro a b h
    simp only [Cid.compare_def] at h
    cases a
    cases b
    exact congrArg Cid.mk (LawfulEqCmp.eq_of_compare h)

/-- `std::collections::BTreeMap`. -/
abbrev BTreeMap (K V : Type) [Ord K] := ExtTreeMap K V compare

abbrev IntentId := Cid
abbrev TransformationId := Cid
abbrev ObjectId := Cid
abbrev KeyId := String
abbrev Bytes := List UInt8

/-- Nanoseconds since the epoch, an `i64` of the source. -/
abbrev Timestamp := Int

/-- `i64::saturating_add`. -/
def saturatingAdd (a b : Int) : Int := max (-(2 ^ 63)) (min (2 ^ 63 - 1) (a + b))

inductive SubstrateKind where
  | fs
  | git
  | mcp
  | custom (name : String)
  deriving DecidableEq, Repr

inductive ReprKind where
  | bytes
  | json
  | tree
  | external
  deriving DecidableEq, Repr

structure ObjectSnapshot where
  id : ObjectId
  substrate : SubstrateKind
  locator : String
  digest : Cid
  representation : ReprKind
  deriving DecidableEq, Repr

inductive ChangeContext where
  | time
  | evidence
  | policy
  | model
  | representation
  | substrate
  | custom (name : String)
  deriving DecidableEq, Repr

inductive Actor where
  | human (key : KeyId)
  | agent (key : KeyId) (model : String)
  | process (key : KeyId)
  deriving DecidableEq, Repr

structure Intent where
  substrate : SubstrateKind
  locator : String
  goal : Bytes
  context : ChangeContext
  actor : Actor
  deriving DecidableEq, Repr

structure DeltaRef where
  substrate : SubstrateKind
  cid : Cid
  deriving DecidableEq, Repr

/-- The promise stays outside the delta's identity, and a blob does not keep it. -/
structure PlannedDelta where
  substrate : SubstrateKind
  payload : Bytes
  promisedTarget : Option Cid
  deriving DecidableEq, Repr

def maxScopeBytes : ℕ := 1024

/-- A fingerprint can only be built over a scope inside the bound. -/
structure Fingerprint where
  substrate : SubstrateKind
  scope : String
  digest : Cid
  scopeBounded : scope.utf8ByteSize ≤ maxScopeBytes
  deriving DecidableEq, Repr

/-- Equality of two fingerprints is a question only over one substrate and one scope. -/
def Fingerprint.casEq (a b : Fingerprint) : Option Bool :=
  if a.substrate ≠ b.substrate then none
  else if a.scope ≠ b.scope then none
  else some (a.digest = b.digest)

structure FingerprintRecord where
  substrate : SubstrateKind
  scope : String
  digest : Cid
  deriving DecidableEq, Repr

def FingerprintRecord.ofFingerprint (fp : Fingerprint) : FingerprintRecord where
  substrate := fp.substrate
  scope := fp.scope
  digest := fp.digest

def FingerprintRecord.intoFingerprint (r : FingerprintRecord) : Option Fingerprint :=
  if h : r.scope.utf8ByteSize ≤ maxScopeBytes then some ⟨r.substrate, r.scope, r.digest, h⟩
  else none

inductive Subject where
  | object (id : ObjectId)
  | transformation (id : TransformationId)
  deriving DecidableEq, Repr

structure Transformation where
  id : TransformationId
  intentId : IntentId
  order : ℕ
  subject : Subject
  target : Option Cid
  delta : DeltaRef
  context : ChangeContext
  actor : Actor
  parents : List TransformationId
  createdAt : Timestamp
  deriving DecidableEq, Repr

/-- What a transformation's id is the hash of: neither the id itself nor the clock. -/
structure TransformationView where
  order : ℕ
  intentId : IntentId
  subject : Subject
  target : Option Cid
  delta : DeltaRef
  context : ChangeContext
  actor : Actor
  parents : List TransformationId
  deriving DecidableEq, Repr

def Transformation.view (t : Transformation) : TransformationView where
  order := t.order
  intentId := t.intentId
  subject := t.subject
  target := t.target
  delta := t.delta
  context := t.context
  actor := t.actor
  parents := t.parents

structure ReadEntry where
  digest : Cid
  locator : String
  deriving DecidableEq, Repr, Ord

inductive Reversibility where
  | true
  | false
  | unknown
  deriving DecidableEq, Repr

/-- An inverse is held exactly when the verdict is `true`. -/
inductive InvertOutcome where
  | inverted (inverse : PlannedDelta) (reads : List ReadEntry)
  | none (reads : List ReadEntry)
  | undetermined (reads : List ReadEntry)
  deriving DecidableEq, Repr

def InvertOutcome.inverse : InvertOutcome → Option PlannedDelta
  | .inverted inverse _ => some inverse
  | .none _ => Option.none
  | .undetermined _ => Option.none

def InvertOutcome.verdict : InvertOutcome → Reversibility
  | .inverted _ _ => .true
  | .none _ => .false
  | .undetermined _ => .unknown

def InvertOutcome.reads : InvertOutcome → List ReadEntry
  | .inverted _ reads => reads
  | .none reads => reads
  | .undetermined reads => reads

structure AppliedDelta where
  delta : DeltaRef
  postcondition : Fingerprint
  resultingDigest : Cid
  appliedAt : Timestamp
  observation : Option Bytes
  deriving DecidableEq, Repr

inductive Commutation where
  | commutes
  | conflicts (residual : DeltaRef)
  deriving DecidableEq, Repr

inductive VerdictKind where
  | Admit
  | Deny
  | Escalate
  deriving DecidableEq, Repr

inductive EnforcementMode where
  | enforce
  | recordOnly
  deriving DecidableEq, Repr

inductive FailPosture where
  | failClosed
  | failOpen
  deriving DecidableEq, Repr

inductive AbortReason where
  | preconditionChanged
  | applyFailed
  | verifierUnavailable
  | expired
  | ownerCancelled
  | internalError
  | postconditionMismatch
  deriving DecidableEq, Repr

inductive Rollback where
  | notAttempted
  | succeeded
  | failed
  | diverged
  deriving DecidableEq, Repr

inductive NotAttemptedBecause where
  | escrowStillPartial
  | noInverseWasEscrowed
  | recoveredWithoutRebuilding
  | worldNeverMoved
  | worldMovedBeneath
  | worldCouldNotBeRead
  | promisedPostStateWasWrong
  deriving DecidableEq, Repr

inductive BoundaryStage where
  | deterministicReplay
  | llmOriginated
  | unknown
  deriving DecidableEq, Repr

inductive DeterminismBoundary where
  | deterministicReplay
  | llmOriginated
  | mixed (inputGeneration verdictDerivation : BoundaryStage)
  | unknown
  deriving DecidableEq, Repr

def DeterminismBoundary.ofStages : BoundaryStage → BoundaryStage → DeterminismBoundary
  | .deterministicReplay, .deterministicReplay => .deterministicReplay
  | .llmOriginated, .llmOriginated => .llmOriginated
  | .unknown, .unknown => .unknown
  | input, verdict => .mixed input verdict

def DeterminismBoundary.verdictDerivation : DeterminismBoundary → BoundaryStage
  | .deterministicReplay => .deterministicReplay
  | .llmOriginated => .llmOriginated
  | .mixed _ verdict => verdict
  | .unknown => .unknown

structure HumanRuling where
  decision : VerdictKind
  reason : String
  actor : Actor
  deriving DecidableEq, Repr

structure ConfinementContext where
  kernelConfined : Bool
  rulesetHash : Option String
  deriving DecidableEq, Repr

structure Environment where
  hostId : Option String
  adapterKind : SubstrateKind
  correlationId : Option String
  engineVersion : String
  adapterVersion : String
  confinement : Option ConfinementContext
  deriving DecidableEq, Repr

structure Provenance where
  environment : Environment
  inputObjects : List ObjectId
  intentDigest : Option Cid
  transformation : TransformationId
  deriving DecidableEq, Repr

inductive UndoDisposition where
  | attested
  | unobservable (reason : String)
  deriving DecidableEq, Repr

structure UndoAttestation where
  undoes : TransformationId
  witness : UndoDisposition
  deriving DecidableEq, Repr

structure VerdictSummary where
  kind : VerdictKind
  proofDigest : Cid
  deriving DecidableEq, Repr

inductive ReadSet where
  | perRead (entries : List ReadEntry)
  | perEffectRoot (root : Cid) (leafCount : ℕ)
  | nothing
  | noEscrowRecord
  | readsNotJournalled
  deriving DecidableEq, Repr

inductive ReceiptKind where
  | verdictReceipt
  | commitReceipt
  deriving DecidableEq, Repr

structure InclusionProof where
  leafIndex : ℕ
  treeSize : ℕ
  auditPath : List Cid
  deriving DecidableEq, Repr

structure ReceiptPayload where
  keyId : KeyId
  verdict : Option VerdictSummary
  enforced : Bool
  confinement : Option ConfinementContext
  catalogueHash : Option String
  readSet : Option ReadSet
  reversibility : Option Reversibility
  undo : Option UndoAttestation
  determinismBoundary : DeterminismBoundary
  receiptKind : ReceiptKind
  canonicalCid : Cid
  inverseDelta : Option Cid
  transformation : TransformationId
  inclusionProof : Option InclusionProof
  fingerprintScope : String
  failPostureEngaged : Bool
  preconditionFingerprint : Cid
  postconditionFingerprint : Option Cid
  payloadVersion : Option ℕ
  engineVersion : Option String
  deriving DecidableEq, Repr

/-- A signed payload. The signature is a function of the payload and the signing key. -/
structure Receipt where
  payload : ReceiptPayload
  issuedAt : Timestamp
  signedBy : KeyId
  deriving DecidableEq, Repr

/-- The counts of rulings by kind, with those that carried no verdict apart. -/
structure VerdictTally where
  denies : ℕ
  admits : ℕ
  escalates : ℕ
  unverdicted : ℕ
  deriving DecidableEq, Repr

def VerdictTally.empty : VerdictTally := ⟨0, 0, 0, 0⟩

/-- One more ruling of a kind, `none` being a degraded admission. -/
def VerdictTally.count (t : VerdictTally) : Option VerdictKind → VerdictTally
  | some .Admit => { t with admits := t.admits + 1 }
  | some .Deny => { t with denies := t.denies + 1 }
  | some .Escalate => { t with escalates := t.escalates + 1 }
  | none => { t with unverdicted := t.unverdicted + 1 }

end Tracefold
