import Mathlib.Tactic.Common
import Tracefold.Library.Code
import Tracefold.Process

/-! A canonical form that is its own hash, the code of a value, which determines it; and an object
with versions for the engine to run over. -/

namespace Tracefold.Ideal

open Library Library.Code

instance : Code Cid := ofInjective Cid.digest fun a b h => by
  cases a
  cases b
  exact congrArg Cid.mk h

/-- The constructors of an enumeration, by number, with what they carry. -/
def substrateCode : SubstrateKind → ℕ × String
  | .fs => (0, "")
  | .git => (1, "")
  | .mcp => (2, "")
  | .custom name => (3, name)

instance : Code SubstrateKind := ofInjective substrateCode fun a b h => by
  cases a <;> cases b <;> simp_all [substrateCode]

def contextCode : ChangeContext → ℕ × String
  | .time => (0, "")
  | .evidence => (1, "")
  | .policy => (2, "")
  | .model => (3, "")
  | .representation => (4, "")
  | .substrate => (5, "")
  | .custom name => (6, name)

instance : Code ChangeContext := ofInjective contextCode fun a b h => by
  cases a <;> cases b <;> simp_all [contextCode]

def actorCode : Actor → ℕ × KeyId × String
  | .human key => (0, key, "")
  | .agent key model => (1, key, model)
  | .process key => (2, key, "")

instance : Code Actor := ofInjective actorCode fun a b h => by
  cases a <;> cases b <;> simp_all [actorCode]

instance : Code Intent :=
  ofInjective (fun i : Intent => (i.substrate, i.locator, i.goal, i.context, i.actor))
    fun a b h => by
      cases a
      cases b
      simp_all

instance : Code DeltaRef :=
  ofInjective (fun d : DeltaRef => (d.substrate, d.cid)) fun a b h => by
    cases a
    cases b
    simp_all

def subjectCode : Subject → ℕ × Cid
  | .object id => (0, id)
  | .transformation id => (1, id)

instance : Code Subject := ofInjective subjectCode fun a b h => by
  cases a <;> cases b <;> simp_all [subjectCode]

instance : Code TransformationView :=
  ofInjective (fun v : TransformationView =>
    (v.order, v.intentId, v.subject, v.target, v.delta, v.context, v.actor, v.parents))
    fun a b h => by
      cases a
      cases b
      simp_all

def kindCode : VerdictKind → ℕ
  | .Admit => 0
  | .Deny => 1
  | .Escalate => 2

instance : Code VerdictKind := ofInjective kindCode fun a b h => by
  cases a <;> cases b <;> simp_all [kindCode]

instance : Code HumanRuling :=
  ofInjective (fun r : HumanRuling => (r.decision, r.reason, r.actor)) fun a b h => by
    cases a
    cases b
    simp_all

instance : Code ReadEntry :=
  ofInjective (fun r : ReadEntry => (r.digest, r.locator)) fun a b h => by
    cases a
    cases b
    simp_all

instance : Code VerdictSummary :=
  ofInjective (fun v : VerdictSummary => (v.kind, v.proofDigest)) fun a b h => by
    cases a
    cases b
    simp_all

instance : Code ConfinementContext :=
  ofInjective (fun c : ConfinementContext => (c.kernelConfined, c.rulesetHash)) fun a b h => by
    cases a
    cases b
    simp_all

def readSetCode : ReadSet → ℕ × List ReadEntry × Option Cid × ℕ
  | .perRead entries => (0, entries, none, 0)
  | .perEffectRoot root leafCount => (1, [], some root, leafCount)
  | .nothing => (2, [], none, 0)
  | .noEscrowRecord => (3, [], none, 0)
  | .readsNotJournalled => (4, [], none, 0)

instance : Code ReadSet := ofInjective readSetCode fun a b h => by
  cases a <;> cases b <;> simp_all [readSetCode]

def reversibilityCode : Reversibility → ℕ
  | .true => 0
  | .false => 1
  | .unknown => 2

instance : Code Reversibility := ofInjective reversibilityCode fun a b h => by
  cases a <;> cases b <;> simp_all [reversibilityCode]

def dispositionCode : UndoDisposition → Option String
  | .attested => none
  | .unobservable reason => some reason

instance : Code UndoDisposition := ofInjective dispositionCode fun a b h => by
  cases a <;> cases b <;> simp_all [dispositionCode]

instance : Code UndoAttestation :=
  ofInjective (fun u : UndoAttestation => (u.undoes, u.witness)) fun a b h => by
    cases a
    cases b
    simp_all

def stageCode : BoundaryStage → ℕ
  | .deterministicReplay => 0
  | .llmOriginated => 1
  | .unknown => 2

instance : Code BoundaryStage := ofInjective stageCode fun a b h => by
  cases a <;> cases b <;> simp_all [stageCode]

def boundaryCode : DeterminismBoundary → ℕ × Option (BoundaryStage × BoundaryStage)
  | .deterministicReplay => (0, none)
  | .llmOriginated => (1, none)
  | .mixed input verdict => (2, some (input, verdict))
  | .unknown => (3, none)

instance : Code DeterminismBoundary := ofInjective boundaryCode fun a b h => by
  cases a <;> cases b <;> simp_all [boundaryCode]

def receiptKindCode : ReceiptKind → Bool
  | .verdictReceipt => false
  | .commitReceipt => true

instance : Code ReceiptKind := ofInjective receiptKindCode fun a b h => by
  cases a <;> cases b <;> simp_all [receiptKindCode]

instance : Code InclusionProof :=
  ofInjective (fun p : InclusionProof => (p.leafIndex, p.treeSize, p.auditPath)) fun a b h => by
    cases a
    cases b
    simp_all

instance : Code ReceiptPayload :=
  ofInjective (fun p : ReceiptPayload =>
    ((p.keyId, p.verdict, p.enforced, p.confinement, p.catalogueHash),
      (p.readSet, p.reversibility, p.undo, p.determinismBoundary, p.receiptKind),
      (p.canonicalCid, p.inverseDelta, p.transformation, p.inclusionProof, p.fingerprintScope),
      (p.failPostureEngaged, p.preconditionFingerprint, p.postconditionFingerprint,
        p.payloadVersion, p.engineVersion)))
    fun a b h => by
      cases a
      cases b
      simp_all

/-- Every value is hashed to its own code. -/
scoped instance canon : Canon where
  intent i := ⟨code i⟩
  delta k p := ⟨code (k, p)⟩
  transformation v := ⟨code v⟩
  ruling r := ⟨code r⟩
  payload p := ⟨code p⟩
  observation b := ⟨code b⟩
  readLeaf r := ⟨code r⟩
  ledgerLeaf i d t := ⟨code (i, d, t)⟩
  node l r := ⟨code (l, r)⟩
  chainHead _ := none
  unset := ⟨[]⟩
  isCanonical _ := true
  blobBytes _ payload := payload.length

theorem hash_injective [Code α] {a b : α} (h : (⟨code a⟩ : Cid) = ⟨code b⟩) : a = b :=
  code_injective (Cid.mk.inj h)

scoped instance collisionFree : Canon.CollisionFree where
  intent _ _ h := hash_injective h
  delta h := Prod.mk.inj (hash_injective h)
  transformation _ _ h := hash_injective h
  payload _ _ h := hash_injective h

theorem node_injective : Function.Injective2 canon.node :=
  fun _ _ _ _ h => Prod.mk.inj (hash_injective h)

/-- The fingerprint of an object at a version. -/
def fingerprintAt (n : ℕ) : Fingerprint := ⟨.fs, "", ⟨[n]⟩, by decide⟩

/-- An object at a version: an apply answers the next one, and every question is answered. -/
def envAt (n : ℕ) : Env where
  snapshot kind locator := .ok ⟨⟨[n]⟩, kind, locator, ⟨[n]⟩, .bytes⟩
  plan kind intent _ := .ok ⟨kind, intent.goal, none⟩
  precondition _ snap := .ok ⟨.fs, "", snap.digest, by decide⟩
  apply _ delta := .ok ⟨delta.reference, fingerprintAt (n + 1), ⟨[n + 1]⟩, 0, none⟩
  invert kind _ _ := .ok (.inverted ⟨kind, [UInt8.ofNat n], none⟩ [])
  commutation _ _ _ := .ok .commutes
  needsCompletion _ _ := .ok false
  completeInverse _ _ := .ok none
  collect _ _ := .ok []
  gate _ := .ok ⟨.Admit, some ⟨[7]⟩⟩
  canonicalForm _ := .ok []
  fault := .none

def config : Config where
  adapters _ := some "1"
  completions _ := false
  inputStages _ := none
  receiptSink := none
  mode := .enforce
  posture := .failClosed
  confinement := ⟨false, none⟩
  verifyTtl := 1000
  escalationTtl := 1000
  keepsHead := false
  version := "0"

def intent : Intent := ⟨.fs, "a", [1], .time, .human "k"⟩

/-- What the intent resolves to over a version of the object. -/
def viewAt (n : ℕ) : TransformationView :=
  ⟨0, Canon.intent intent, .object ⟨[n]⟩, none, ⟨.fs, Canon.delta .fs [1]⟩, .time, .human "k", []⟩

def idAt (n : ℕ) : TransformationId := Canon.transformation (viewAt n)

/-- What `plan` records of it. -/
def bodyAt (n : ℕ) : PlannedBody :=
  ⟨Canon.intent intent, "a", Canon.delta .fs [1], .ofFingerprint (fingerprintAt n), [], .unknown,
    none⟩

/-- The intent of the undo of it, and the undo. -/
def undoIntentAt (n : ℕ) : Intent := ⟨.fs, "a", [UInt8.ofNat n], .time, .human "k"⟩

def undoAt (n : ℕ) : TransformationId :=
  Canon.transformation ⟨0, Canon.intent (undoIntentAt n), .object ⟨[n]⟩, none,
    ⟨.fs, Canon.delta .fs [UInt8.ofNat n]⟩, .time, .human "k", [idAt n]⟩

/-- How often something was applied. -/
def appliedTimes (history : List Event) : ℕ :=
  history.countP fun
    | .apply _ _ (.ok _) => true
    | _ => false

/-- An object at version `n` that every apply takes to the next version, with the oddities of one
moment. -/
def objectFrom (n : ℕ) (odd : ℕ → Env → Env) : World := fun history =>
  odd history.length (envAt (n + appliedTimes history))

/-- A gate that escalates. -/
def escalating : World := objectFrom 2 fun _ env =>
  { env with gate := fun _ => .ok ⟨.Escalate, some ⟨[7]⟩⟩ }

/-- The operations that take a planned row to its commit. -/
def committing (id : TransformationId) : List Action :=
  [.call 0 (.verify id 1 "k" none), .call 0 (.canonicalize id 1 none), .call 0 (.commit id 2 "k")]

/-- An intent, from its submission to its commit. -/
def committed (n : ℕ) : List Action :=
  [.start 0 config, .call 0 (.submit intent 0 0), .call 0 (.plan intent 0)] ++ committing (idAt n)

/-- An intent of one goal, and what it resolves to over a version of the object. -/
def intentFor (goal : UInt8) : Intent := ⟨.fs, "a", [goal], .time, .human "k"⟩

def idFor (goal : UInt8) (n : ℕ) : TransformationId :=
  Canon.transformation ⟨0, Canon.intent (intentFor goal), .object ⟨[n]⟩, none,
    ⟨.fs, Canon.delta .fs [goal]⟩, .time, .human "k", []⟩

end Tracefold.Ideal
