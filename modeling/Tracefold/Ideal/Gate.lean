import Mathlib.Tactic.Common
import Tracefold.Gate.Verdict
import Tracefold.Ideal

/-! The digests of a gate, over the canonical form that is its own hash. -/

namespace Tracefold.Ideal

open GxGate Library Library.Code

def decisionCode : PolicyDecision → Bool
  | .allow => true
  | .deny => false

instance : Code PolicyDecision := ofInjective decisionCode fun a b h => by
  cases a <;> cases b <;> simp_all [decisionCode]

instance : Code PolicyDecisionRecord :=
  ofInjective (fun r : PolicyDecisionRecord => (r.policyId, r.decision, r.diagnosticsDigest))
    fun a b h => by
      cases a
      cases b
      simp_all

instance : Code InvariantResult :=
  ofInjective (fun r : InvariantResult => (r.invariantId, r.holds, r.detail)) fun a b h => by
    cases a
    cases b
    simp_all

def sourceCode : ReasonSource → ℕ × String
  | .policy policyId => (0, policyId)
  | .invariant invariantId => (1, invariantId)
  | .precondition => (2, "")
  | .adapter detail => (3, detail)
  | .noPolicyApplied => (4, "")

instance : Code ReasonSource := ofInjective sourceCode fun a b h => by
  cases a <;> cases b <;> simp_all [sourceCode]

instance : Code Reason :=
  ofInjective (fun r : Reason => (r.code, r.message, r.source)) fun a b h => by
    cases a
    cases b
    simp_all

def theoremCode : TheoremId → ℕ
  | .t1 => 1
  | .t2 => 2
  | .t3 => 3
  | .t4 => 4
  | .t5 => 5

instance : Code TheoremId := ofInjective theoremCode fun a b h => by
  cases a <;> cases b <;> simp_all [theoremCode]

instance : Code ProofRef :=
  ofInjective (fun r : ProofRef => (r.leanSpecVersion, r.theoremIds)) fun a b h => by
    cases a
    cases b
    simp_all

instance : Code AdmitProof :=
  ofInjective (fun p : AdmitProof =>
    (p.policyDecisions, p.invariantResults, p.evidenceDigests, p.composedFrom, p.proofRef))
    fun a b h => by
      cases a
      cases b
      simp_all

instance : Code ApprovalRequirement :=
  ofInjective (fun r : ApprovalRequirement => (r.minApprovers, r.eligibleActors)) fun a b h => by
    cases a
    cases b
    simp_all

instance : Code EscalationTicketView :=
  ofInjective (fun t : EscalationTicketView => (t.transformation, t.reasons, t.requiredApproval))
    fun a b h => by
      cases a
      cases b
      simp_all

/-- Every value is hashed to its own code, and `Debug` of a plain string quotes it. -/
scoped instance digests : Digests where
  text text := ⟨code text⟩
  reasons reasons := ⟨code reasons⟩
  admitProof proof := ⟨code proof⟩
  ticket view := ⟨code view⟩
  toText cid := toString cid.digest
  debug text := "\"" ++ text ++ "\""

theorem reasons_injective : Function.Injective digests.reasons := fun _ _ h => hash_injective h

end Tracefold.Ideal
