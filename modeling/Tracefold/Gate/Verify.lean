import Mathlib.Tactic.Common
import Tracefold.Gate.Verdict

/-! The gate: the policies and the registered invariants are asked, and what they answer is one
verdict. -/

namespace Tracefold.GxGate

open Library.Sort

/-- A registered invariant. What a check that fails says is the text of its error. -/
structure InvariantCheck where
  id : String
  check : GateInput → Except String InvariantResult

/-- A registry can only be built with ids that are not empty and not taken. -/
structure InvariantRegistry where
  checks : List InvariantCheck
  named : ∀ check ∈ checks, check.id ≠ ""
  distinct : (checks.map InvariantCheck.id).Nodup

/-- What Cedar answers: its decision, the policies that determined it, and the errors of those it
skipped. -/
structure Response where
  decision : PolicyDecision
  reason : List String
  errors : List String
  deriving DecidableEq, Repr

/-- A policy set, as the answer of Cedar to the request that is made of an input. -/
structure PolicyEngine where
  isAuthorized : GateInput → Except String Response

structure PolicyOutcome where
  decision : PolicyDecision
  determining : List PolicyDecisionRecord
  deriving DecidableEq, Repr

structure Gate where
  policies : Option PolicyEngine
  invariants : InvariantRegistry

variable [Digests]

/-- `InvariantRegistry::register`. -/
def InvariantRegistry.register (registry : InvariantRegistry) (check : InvariantCheck) :
    Except Error InvariantRegistry :=
  if hname : check.id = "" then
    .error (.registryUnusable
      "an invariant registered under the empty id names nothing in a receipt")
  else if htaken : check.id ∈ registry.checks.map InvariantCheck.id then
    .error (.registryUnusable ("two invariants claim the id " ++ Digests.debug check.id ++
      "; the canonical order of AdmitProof.invariant_results is that id (E-M3-9), so a second one " ++
      "would put registration order inside a receipt's CID"))
  else
    .ok {
      checks := registry.checks ++ [check]
      named := by
        intro other hother
        rcases List.mem_append.mp hother with hother | hother
        · exact registry.named other hother
        · rwa [List.mem_singleton.mp hother]
      distinct := by
        rw [List.map_append, List.map_singleton, List.nodup_append]
        refine ⟨registry.distinct, List.nodup_singleton _, ?_⟩
        intro id hid other hother
        rw [List.mem_singleton.mp hother]
        rintro rfl
        exact htaken hid }

/-- An answer under the check's own id. -/
def InvariantCheck.answer (check : InvariantCheck) (input : GateInput) : Option InvariantResult :=
  match check.check input with
  | .ok result => if result.invariantId = check.id then some result else none
  | .error _ => none

/-- What is said of a check that did not answer. -/
def InvariantCheck.failure (check : InvariantCheck) (input : GateInput) : Option String :=
  match check.check input with
  | .ok result =>
    if result.invariantId = check.id then none
    else
      some (Digests.debug check.id ++ " answered under the id " ++ Digests.debug result.invariantId)
  | .error error => some (Digests.debug check.id ++ " could not decide: " ++ error)

/-- `InvariantRegistry::run_all`: every check runs, and the failures are a set. -/
def InvariantRegistry.runAll (registry : InvariantRegistry) (input : GateInput) :
    Except Error (List InvariantResult) :=
  let results := registry.checks.filterMap fun check => check.answer input
  let failed := sortBy compare (registry.checks.filterMap fun check => check.failure input).dedup
  if failed ≠ [] then
    .error (.unevaluable input.t.id
      ("the invariant registry did not produce a full answer: " ++ "; ".intercalate failed))
  else .ok (sortBy (compareOn InvariantResult.invariantId) results)

/-- `invariant::violations`. -/
def violations (results : List InvariantResult) : Except Error (List Reason) :=
  (results.filter fun result => !result.holds).mapM fun result =>
    Reason.new invariantViolated
      (match result.detail with
        | some detail => "invariant " ++ result.invariantId ++ " does not hold: " ++ detail
        | none => "invariant " ++ result.invariantId ++ " does not hold")
      (.invariant result.invariantId)

/-- `PolicyEngine::evaluate`. -/
def PolicyEngine.evaluate (engine : PolicyEngine) (input : GateInput) :
    Except Error PolicyOutcome :=
  match engine.isAuthorized input with
  | .error detail => .error (.unevaluable input.t.id detail)
  | .ok response =>
    if response.errors ≠ [] then
      .error (.unevaluable input.t.id ("cedar reported " ++ toString response.errors.length ++
        " policy evaluation error(s), so the decision it did reach was reached with policies " ++
        "skipped: " ++ "; ".intercalate (sortBy compare response.errors)))
    else
      .ok ⟨response.decision,
        (sortBy compare response.reason).map fun policyId => ⟨policyId, response.decision, none⟩⟩

/-- `PolicyOutcome::deny_reasons`. -/
def PolicyOutcome.denyReasons (outcome : PolicyOutcome) : Except Error (List Reason) :=
  if outcome.decision = .allow then .ok []
  else if outcome.determining = [] then do
    let reason ← Reason.new policyDenied "no policy in the set permitted this transformation"
      .noPolicyApplied
    return [reason]
  else
    outcome.determining.mapM fun record =>
      Reason.new policyDenied ("policy " ++ record.policyId ++ " forbids this transformation")
        (.policy record.policyId)

/-- `escalation_ticket`, a function of the transformation alone. -/
def escalationTicket (transformation : TransformationId) : Except Error EscalationTicket := do
  let reason ← Reason.new inverseUnavailable
    "no inverse delta could be built for this change, so it cannot be undone once applied"
    (.adapter "invert returned None (FR-043)")
  let ticket : EscalationTicket := ⟨⟨[]⟩, transformation, [reason], .default, 0⟩
  return { ticket with id := Digests.ticket ticket.view }

/-- `Gate::verify`. -/
def Gate.verify (gate : Gate) (input : GateInput) : Except Error Verdict :=
  match gate.policies with
  | none =>
    .error (.unevaluable input.t.id
      "this gate holds no PolicySet, so nothing has been evaluated")
  | some engine => do
    let outcome ← engine.evaluate input
    let results ← gate.invariants.runAll input
    let violations ← violations results
    match outcome.decision, violations.isEmpty with
    | .allow, true =>
      if input.invertAvailable then
        return .Admit (.new outcome.determining results [] [] none)
      else
        let ticket ← escalationTicket input.t.id
        return .Escalate ticket
    | _, _ =>
      let reasons ← outcome.denyReasons
      Verdict.deny (reasons ++ violations)

end Tracefold.GxGate
