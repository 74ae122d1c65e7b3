import Mathlib.Tactic.Common
import Tracefold.Engine
import Tracefold.Library.Sort

/-! What a gate answers, in the one order it is recorded in. -/

namespace Tracefold.GxGate

open Library.Sort

def policyDenied : String := "POLICY_DENIED"

def invariantViolated : String := "INVARIANT_VIOLATED"

def inverseUnavailable : String := "INVERSE_UNAVAILABLE"

def reasonCodes : List String := [invariantViolated, inverseUnavailable, policyDenied]

def maxMessageBytes : ℕ := 1024

inductive Error where
  | unevaluable (transformation : TransformationId) (detail : String)
  | registryUnusable (detail : String)
  | emptyDeny
  | unknownReasonCode (code : String)
  deriving DecidableEq, Repr

inductive PolicyDecision where
  | allow
  | deny
  deriving DecidableEq, Repr

structure PolicyDecisionRecord where
  policyId : String
  decision : PolicyDecision
  diagnosticsDigest : Option Cid
  deriving DecidableEq, Repr

structure InvariantResult where
  invariantId : String
  holds : Bool
  detail : Option String
  deriving DecidableEq, Repr

inductive ReasonSource where
  | policy (policyId : String)
  | invariant (invariantId : String)
  | precondition
  | adapter (detail : String)
  | noPolicyApplied
  deriving DecidableEq, Repr

namespace ReasonSource

def rank : ReasonSource → ℕ
  | policy _ => 0
  | invariant _ => 1
  | precondition => 2
  | adapter _ => 3
  | noPolicyApplied => 4

def id : ReasonSource → String
  | policy policyId => policyId
  | invariant invariantId => invariantId
  | adapter detail => detail
  | precondition => ""
  | noPolicyApplied => ""

end ReasonSource

structure Reason where
  code : String
  message : String
  source : ReasonSource
  deriving DecidableEq, Repr

/-- `Reason::canonical_cmp`. -/
def Reason.canonicalCmp : Reason → Reason → Ordering :=
  compareLex (compareOn fun reason => reason.source.rank)
    (compareLex (compareOn fun reason => reason.source.id)
      (compareLex (compareOn Reason.code) (compareOn Reason.message)))

theorem Reason.eq_of_canonicalCmp {a b : Reason} (h : Reason.canonicalCmp a b = .eq) : a = b := by
  simp only [canonicalCmp, compareLex_eq_eq, compareOn] at h
  obtain ⟨hrank, hid, hcode, hmessage⟩ := h
  obtain ⟨code, message, source⟩ := a
  obtain ⟨code', message', source'⟩ := b
  dsimp only at hrank hid hcode hmessage
  obtain rfl := Std.LawfulEqOrd.eq_of_compare hcode
  obtain rfl := Std.LawfulEqOrd.eq_of_compare hmessage
  replace hrank := Std.LawfulEqOrd.eq_of_compare hrank
  replace hid := Std.LawfulEqOrd.eq_of_compare hid
  cases source with
  | policy policyId => cases source' <;> simp_all [ReasonSource.rank, ReasonSource.id]
  | invariant invariantId => cases source' <;> simp_all [ReasonSource.rank, ReasonSource.id]
  | precondition => cases source' <;> simp_all [ReasonSource.rank]
  | adapter detail => cases source' <;> simp_all [ReasonSource.rank, ReasonSource.id]
  | noPolicyApplied => cases source' <;> simp_all [ReasonSource.rank]

inductive TheoremId where
  | t1
  | t2
  | t3
  | t4
  | t5
  deriving DecidableEq, Repr

structure ProofRef where
  leanSpecVersion : String
  theoremIds : List TheoremId
  deriving DecidableEq, Repr

structure AdmitProof where
  policyDecisions : List PolicyDecisionRecord
  invariantResults : List InvariantResult
  evidenceDigests : List Cid
  composedFrom : List TransformationId
  proofRef : Option ProofRef
  deriving DecidableEq, Repr

/-- `AdmitProof::new`: the order of the composition is kept, the other orders are not. -/
def AdmitProof.new (policyDecisions : List PolicyDecisionRecord)
    (invariantResults : List InvariantResult) (evidenceDigests : List Cid)
    (composedFrom : List TransformationId) (proofRef : Option ProofRef) : AdmitProof where
  policyDecisions := sortBy (compareOn PolicyDecisionRecord.policyId) policyDecisions
  invariantResults := sortBy (compareOn InvariantResult.invariantId) invariantResults
  evidenceDigests := sortBy compare evidenceDigests
  composedFrom := composedFrom
  proofRef := proofRef

structure ApprovalRequirement where
  minApprovers : ℕ
  eligibleActors : List KeyId
  deriving DecidableEq, Repr

def ApprovalRequirement.default : ApprovalRequirement := ⟨1, []⟩

structure EscalationTicketView where
  transformation : TransformationId
  reasons : List Reason
  requiredApproval : ApprovalRequirement
  deriving DecidableEq, Repr

structure EscalationTicket where
  id : Cid
  transformation : TransformationId
  reasons : List Reason
  requiredApproval : ApprovalRequirement
  createdAt : Timestamp
  deriving DecidableEq, Repr

def EscalationTicket.view (ticket : EscalationTicket) : EscalationTicketView :=
  ⟨ticket.transformation, ticket.reasons, ticket.requiredApproval⟩

/-- `cid::compute` of what the gate digests, `cid::to_text`, and the text `Debug` writes of a
string. -/
class Digests where
  text : String → Cid
  reasons : List Reason → Cid
  admitProof : AdmitProof → Cid
  ticket : EscalationTicketView → Cid
  toText : Cid → String
  debug : String → String

inductive Verdict where
  | Admit (proof : AdmitProof)
  | Deny (reasons : List Reason)
  | Escalate (ticket : EscalationTicket)
  deriving DecidableEq, Repr

namespace Verdict

def kind : Verdict → VerdictKind
  | Admit _ => .Admit
  | Deny _ => .Deny
  | Escalate _ => .Escalate

/-- `Verdict::deny`. -/
def deny (reasons : List Reason) : Except Error Verdict :=
  if reasons = [] then .error .emptyDeny else .ok (.Deny (sortBy Reason.canonicalCmp reasons))

/-- `Verdict::proof_digest`. -/
def proofDigest [Digests] : Verdict → Cid
  | Admit proof => Digests.admitProof proof
  | Deny reasons => Digests.reasons reasons
  | Escalate ticket => Digests.ticket ticket.view

end Verdict

section Texts

variable [Digests]

/-- `elide`. -/
def elide (text : String) : String :=
  if text.utf8ByteSize ≤ maxMessageBytes then text
  else
    "<elided: " ++ toString text.utf8ByteSize ++ " bytes over the " ++ toString maxMessageBytes ++
      "-byte bound of ASM-60-4, " ++ Digests.toText (Digests.text text) ++ ">"

/-- `Reason::new`. -/
def Reason.new (code message : String) (source : ReasonSource) : Except Error Reason :=
  if code ∉ reasonCodes then .error (.unknownReasonCode code) else .ok ⟨code, elide message, source⟩

theorem Reason.new_eq {code : String} (h : code ∈ reasonCodes) (message : String)
    (source : ReasonSource) : Reason.new code message source = .ok ⟨code, elide message, source⟩ := by
  rw [Reason.new, if_neg (not_not.mpr h)]

end Texts

end Tracefold.GxGate
