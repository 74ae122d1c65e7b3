import Mathlib.Tactic.Common
import Tracefold.Gate.Verify
import Tracefold.Ideal.Gate

/-! The verdict is the meet of what the policies and the invariants say, and nothing of the order
they were asked in is left in it. -/

namespace Tracefold.GxGate

open Library.Sort

section Answers

variable [Digests] {check : InvariantCheck} {input : GateInput}

/-- A check that errs, or answers under another id. -/
def InvariantCheck.Fails (check : InvariantCheck) (input : GateInput) : Prop :=
  (∃ error, check.check input = .error error) ∨
    ∃ result, check.check input = .ok result ∧ result.invariantId ≠ check.id

omit [Digests] in
theorem answer_of_not_fails (h : ¬ check.Fails input) :
    ∃ result, check.check input = .ok result ∧ result.invariantId = check.id ∧
      check.answer input = some result := by
  cases hcheck : check.check input with
  | error error => exact absurd (.inl ⟨error, hcheck⟩) h
  | ok result =>
    have hid : result.invariantId = check.id := by
      by_contra hne
      exact h (.inr ⟨result, hcheck, hne⟩)
    refine ⟨result, rfl, hid, ?_⟩
    rw [InvariantCheck.answer, hcheck]
    exact if_pos hid

omit [Digests] in
theorem not_fails_of_answer {result : InvariantResult} (hcheck : check.check input = .ok result)
    (hid : result.invariantId = check.id) : ¬ check.Fails input := by
  rintro (⟨error, herror⟩ | ⟨other, hother, hne⟩)
  · rw [hcheck] at herror
    cases herror
  · rw [hcheck] at hother
    cases hother
    exact hne hid

omit [Digests] in
theorem answer_eq_some {result : InvariantResult} (h : check.answer input = some result) :
    check.check input = .ok result ∧ result.invariantId = check.id := by
  rw [InvariantCheck.answer] at h
  split at h
  next answered hcheck =>
    split_ifs at h with hid
    cases h
    exact ⟨hcheck, hid⟩
  next => cases h

theorem failure_eq_none : check.failure input = none ↔ ¬ check.Fails input := by
  rw [InvariantCheck.failure, InvariantCheck.Fails]
  cases check.check input with
  | error error => simp
  | ok result => simp

variable {registry registry' : InvariantRegistry}

theorem runAll_eq (registry : InvariantRegistry) (input : GateInput) :
    registry.runAll input =
      if sortBy compare (registry.checks.filterMap fun check => check.failure input).dedup ≠ [] then
        .error (.unevaluable input.t.id
          ("the invariant registry did not produce a full answer: " ++ "; ".intercalate
            (sortBy compare (registry.checks.filterMap fun check => check.failure input).dedup)))
      else
        .ok (sortBy (compareOn InvariantResult.invariantId)
          (registry.checks.filterMap fun check => check.answer input)) := rfl

omit [Digests] in
theorem sortBy_eq_nil {α : Type} {cmp : α → α → Ordering} {l : List α} :
    sortBy cmp l = [] ↔ l = [] := by
  rw [← List.length_eq_zero_iff, (sortBy_perm l).length_eq, List.length_eq_zero_iff]

theorem failed_eq_nil :
    sortBy compare (registry.checks.filterMap fun check => check.failure input).dedup = [] ↔
      ∀ check ∈ registry.checks, ¬ check.Fails input := by
  rw [sortBy_eq_nil, List.dedup_eq_nil, List.filterMap_eq_nil_iff]
  constructor
  · intro h check hmem
    exact failure_eq_none.mp (h check hmem)
  · intro h check hmem
    exact failure_eq_none.mpr (h check hmem)

/-- The registry answers exactly when every check does. -/
theorem runAll_error :
    (∃ error, registry.runAll input = .error error) ↔
      ∃ check ∈ registry.checks, check.Fails input := by
  rw [runAll_eq]
  split_ifs with hfailed
  · rw [Ne, failed_eq_nil] at hfailed
    push Not at hfailed
    simpa using hfailed
  · rw [not_not, failed_eq_nil] at hfailed
    constructor
    · rintro ⟨error, herror⟩
      cases herror
    · rintro ⟨check, hmem, hfails⟩
      exact absurd hfails (hfailed check hmem)

theorem runAll_ok {results : List InvariantResult} (h : registry.runAll input = .ok results) :
    (∀ check ∈ registry.checks, ¬ check.Fails input) ∧
      results = sortBy (compareOn InvariantResult.invariantId)
        (registry.checks.filterMap fun check => check.answer input) := by
  rw [runAll_eq] at h
  split_ifs at h with hfailed
  cases h
  exact ⟨failed_eq_nil.mp (not_not.mp hfailed), rfl⟩

theorem mem_runAll {results : List InvariantResult} (h : registry.runAll input = .ok results)
    {result : InvariantResult} :
    result ∈ results ↔ ∃ check ∈ registry.checks, check.check input = .ok result := by
  obtain ⟨hanswers, rfl⟩ := runAll_ok h
  rw [mem_sortBy, List.mem_filterMap]
  constructor
  · rintro ⟨check, hmem, hanswer⟩
    exact ⟨check, hmem, (answer_eq_some hanswer).1⟩
  · rintro ⟨check, hmem, hcheck⟩
    obtain ⟨other, hother, _, hanswer⟩ := answer_of_not_fails (hanswers check hmem)
    rw [hcheck] at hother
    cases hother
    exact ⟨check, hmem, hanswer⟩

omit [Digests] in
theorem answers_distinct (registry : InvariantRegistry) (input : GateInput) :
    ((registry.checks.filterMap fun check => check.answer input).map
      InvariantResult.invariantId).Nodup := by
  have hsub : ∀ checks : List InvariantCheck,
      ((checks.filterMap fun check => check.answer input).map InvariantResult.invariantId).Sublist
        (checks.map InvariantCheck.id) := by
    intro checks
    induction checks with
    | nil => exact List.Sublist.refl _
    | cons check checks ih =>
      cases hanswer : check.answer input with
      | none =>
        simp only [List.filterMap_cons, hanswer, List.map_cons]
        exact ih.cons _
      | some result =>
        simp only [List.filterMap_cons, hanswer, List.map_cons, (answer_eq_some hanswer).2]
        exact ih.cons_cons _
  exact (hsub registry.checks).nodup registry.distinct

theorem runAll_perm (h : registry.checks.Perm registry'.checks) :
    registry.runAll input = registry'.runAll input := by
  have hfailed : sortBy compare (registry.checks.filterMap fun check => check.failure input).dedup =
      sortBy compare (registry'.checks.filterMap fun check => check.failure input).dedup := by
    apply sortBy_eq_of_perm
    · intro a _ b _ hab
      exact Std.LawfulEqOrd.eq_of_compare hab
    · exact (h.filterMap _).dedup
  have hresults : sortBy (compareOn InvariantResult.invariantId)
        (registry.checks.filterMap fun check => check.answer input) =
      sortBy (compareOn InvariantResult.invariantId)
        (registry'.checks.filterMap fun check => check.answer input) := by
    apply sortBy_eq_of_perm
    · intro a ha b hb hab
      exact List.inj_on_of_nodup_map (answers_distinct registry input) ha hb
        (Std.LawfulEqOrd.eq_of_compare hab)
    · exact h.filterMap _
  rw [runAll_eq, runAll_eq, hfailed, hresults]

end Answers

section Judging

variable [Digests]

/-- The reason a result that does not hold is refused with. -/
def refusal (result : InvariantResult) : Reason :=
  ⟨invariantViolated, elide (match result.detail with
    | some detail => "invariant " ++ result.invariantId ++ " does not hold: " ++ detail
    | none => "invariant " ++ result.invariantId ++ " does not hold"),
    .invariant result.invariantId⟩

/-- The reasons a decision of the policies is refused with. -/
def PolicyOutcome.denials (outcome : PolicyOutcome) : List Reason :=
  if outcome.decision = .allow then []
  else if outcome.determining = [] then
    [⟨policyDenied, elide "no policy in the set permitted this transformation", .noPolicyApplied⟩]
  else
    outcome.determining.map fun record =>
      ⟨policyDenied, elide ("policy " ++ record.policyId ++ " forbids this transformation"),
        .policy record.policyId⟩

/-- The ticket of a transformation. -/
def ticketOf (transformation : TransformationId) : EscalationTicket :=
  let reasons : List Reason := [⟨inverseUnavailable, elide
    "no inverse delta could be built for this change, so it cannot be undone once applied",
    .adapter "invert returned None (FR-043)"⟩]
  ⟨Digests.ticket ⟨transformation, reasons, .default⟩, transformation, reasons, .default, 0⟩

/-- The verdict on a decision and full results: one refusal is enough. -/
def judge (outcome : PolicyOutcome) (results : List InvariantResult) (input : GateInput) : Verdict :=
  if outcome.decision = .allow ∧ ∀ result ∈ results, result.holds then
    if input.invertAvailable then .Admit (.new outcome.determining results [] [] none)
    else .Escalate (ticketOf input.t.id)
  else
    .Deny (sortBy Reason.canonicalCmp
      (outcome.denials ++ (results.filter fun result => !result.holds).map refusal))

omit [Digests] in
theorem mapM_ok {α β : Type} (f : α → Except Error β) (g : α → β) (h : ∀ a, f a = .ok (g a))
    (l : List α) : l.mapM f = .ok (l.map g) := by
  induction l with
  | nil => rfl
  | cons a l ih =>
    rw [List.mapM_cons, h, ih]
    rfl

theorem violations_eq (results : List InvariantResult) :
    violations results = .ok ((results.filter fun result => !result.holds).map refusal) :=
  mapM_ok _ _ (fun _ => Reason.new_eq (by decide) _ _) _

theorem denyReasons_eq (outcome : PolicyOutcome) : outcome.denyReasons = .ok outcome.denials := by
  rw [PolicyOutcome.denyReasons, PolicyOutcome.denials]
  split_ifs
  · rfl
  · rw [Reason.new_eq (by decide)]
    rfl
  · exact mapM_ok _ _ (fun _ => Reason.new_eq (by decide) _ _) _

theorem escalationTicket_eq (transformation : TransformationId) :
    escalationTicket transformation = .ok (ticketOf transformation) := by
  rw [escalationTicket, Reason.new_eq (by decide)]
  rfl

theorem refusals_ne_nil {outcome : PolicyOutcome} {results : List InvariantResult}
    (h : ¬ (outcome.decision = .allow ∧ ∀ result ∈ results, result.holds)) :
    outcome.denials ++ (results.filter fun result => !result.holds).map refusal ≠ [] := by
  intro hnil
  obtain ⟨hdenials, hrefusals⟩ := List.append_eq_nil_iff.mp hnil
  apply h
  constructor
  · by_contra hdeny
    rw [PolicyOutcome.denials, if_neg hdeny] at hdenials
    split_ifs at hdenials with hdetermining
    exact hdetermining (List.map_eq_nil_iff.mp hdenials)
  · simpa [List.filter_eq_nil_iff] using hrefusals

variable {gate : Gate} {input : GateInput}

/-- Once the policies have answered, the verdict is that on what the registry answers. -/
theorem verify_eq {engine : PolicyEngine} {outcome : PolicyOutcome}
    (hengine : gate.policies = some engine) (houtcome : engine.evaluate input = .ok outcome) :
    gate.verify input =
      (gate.invariants.runAll input).map fun results => judge outcome results input := by
  rw [Gate.verify, hengine]
  dsimp only
  rw [houtcome]
  cases hrun : gate.invariants.runAll input with
  | error error => rfl
  | ok results =>
    have hempty : ((results.filter fun result => !result.holds).map refusal).isEmpty = true ↔
        ∀ result ∈ results, result.holds := by
      simp [List.isEmpty_iff, List.filter_eq_nil_iff]
    simp only [bind, Except.bind, violations_eq, Except.map]
    by_cases hpass : outcome.decision = .allow ∧ ∀ result ∈ results, result.holds
    · rw [judge, if_pos hpass, hpass.1, hempty.mpr hpass.2]
      dsimp only
      split_ifs
      · rfl
      · rw [escalationTicket_eq]
        rfl
    · rw [judge, if_neg hpass]
      have hdenied := refusals_ne_nil hpass
      cases hdecision : outcome.decision with
      | deny =>
        dsimp only
        rw [denyReasons_eq]
        exact if_neg hdenied
      | allow =>
        have hviolated : ¬ ∀ result ∈ results, result.holds := fun hholds => hpass ⟨hdecision, hholds⟩
        rw [Bool.eq_false_iff.mpr (mt hempty.mp hviolated)]
        dsimp only
        rw [denyReasons_eq]
        exact if_neg hdenied

end Judging

section Canonical

instance : Std.TransCmp Reason.canonicalCmp :=
  inferInstanceAs (Std.TransCmp (compareLex _ _))

theorem sort_reasons_perm {reasons reasons' : List Reason} (h : reasons.Perm reasons') :
    sortBy Reason.canonicalCmp reasons = sortBy Reason.canonicalCmp reasons' := by
  apply sortBy_eq_of_perm _ h
  intro a _ b _ hab
  exact Reason.eq_of_canonicalCmp hab

theorem sort_sort_reasons (reasons : List Reason) :
    sortBy Reason.canonicalCmp (sortBy Reason.canonicalCmp reasons) =
      sortBy Reason.canonicalCmp reasons :=
  sort_reasons_perm (sortBy_perm reasons)

theorem deny_eq_ok {reasons : List Reason} {verdict : Verdict}
    (h : Verdict.deny reasons = .ok verdict) :
    verdict = .Deny (sortBy Reason.canonicalCmp reasons) := by
  rw [Verdict.deny] at h
  split_ifs at h
  cases h
  rfl

variable [Digests]

/-- Where no two lists of reasons have one digest, the digest of a refusal tells its multiset. -/
theorem digest_of_reasons (hinjective : Function.Injective Digests.reasons)
    (reasons reasons' : List Reason) :
    (Verdict.Deny (sortBy Reason.canonicalCmp reasons)).proofDigest =
        (Verdict.Deny (sortBy Reason.canonicalCmp reasons')).proofDigest ↔
      reasons.Perm reasons' := by
  constructor
  · intro h
    have hsorted := hinjective h
    have hperm : reasons.Perm (sortBy Reason.canonicalCmp reasons) := (sortBy_perm reasons).symm
    rw [hsorted] at hperm
    exact hperm.trans (sortBy_perm reasons')
  · intro h
    rw [sort_reasons_perm h]

variable {gate : Gate} {input : GateInput}

theorem verify_ok {verdict : Verdict} (h : gate.verify input = .ok verdict) :
    ∃ engine outcome results, gate.policies = some engine ∧ engine.evaluate input = .ok outcome ∧
      gate.invariants.runAll input = .ok results ∧ verdict = judge outcome results input := by
  cases hengine : gate.policies with
  | none =>
    rw [Gate.verify, hengine] at h
    cases h
  | some engine =>
    cases houtcome : engine.evaluate input with
    | error error =>
      rw [Gate.verify, hengine] at h
      dsimp only at h
      rw [houtcome] at h
      cases h
    | ok outcome =>
      rw [verify_eq hengine houtcome] at h
      cases hrun : gate.invariants.runAll input with
      | error error =>
        rw [hrun] at h
        cases h
      | ok results =>
        rw [hrun] at h
        cases h
        exact ⟨engine, outcome, results, rfl, houtcome, rfl, rfl⟩

theorem sort_of_verify {reasons : List Reason} (h : gate.verify input = .ok (.Deny reasons)) :
    sortBy Reason.canonicalCmp reasons = reasons := by
  obtain ⟨engine, outcome, results, _, _, _, hjudge⟩ := verify_ok h
  rw [judge] at hjudge
  split_ifs at hjudge
  cases hjudge
  exact sort_sort_reasons _

theorem kind_of_judge (outcome : PolicyOutcome) (results : List InvariantResult)
    (input : GateInput) :
    (judge outcome results input).kind =
      if outcome.decision = .allow ∧ ∀ result ∈ results, result.holds then
        if input.invertAvailable then .Admit else .Escalate
      else .Deny := by
  rw [judge]
  split_ifs <;> rfl

/-- The gate lets a transformation past exactly when the policies allow it, every check answers
under its id, and every invariant holds. -/
theorem passes_iff :
    (∃ verdict, gate.verify input = .ok verdict ∧ verdict.kind ≠ .Deny) ↔
      (∃ engine outcome, gate.policies = some engine ∧ engine.evaluate input = .ok outcome ∧
        outcome.decision = .allow) ∧
      ∀ check ∈ gate.invariants.checks, ∃ result, check.check input = .ok result ∧
        result.invariantId = check.id ∧ result.holds := by
  constructor
  · rintro ⟨verdict, hverify, hkind⟩
    obtain ⟨engine, outcome, results, hengine, houtcome, hrun, rfl⟩ := verify_ok hverify
    rw [kind_of_judge] at hkind
    have hpass : outcome.decision = .allow ∧ ∀ result ∈ results, result.holds := by
      by_contra hpass
      exact hkind (if_neg hpass)
    obtain ⟨hallow, hholds⟩ := hpass
    constructor
    · exact ⟨engine, outcome, hengine, houtcome, hallow⟩
    · intro check hmem
      obtain ⟨result, hcheck, hid, _⟩ := answer_of_not_fails ((runAll_ok hrun).1 check hmem)
      have hresult := (mem_runAll hrun).mpr ⟨check, hmem, hcheck⟩
      exact ⟨result, hcheck, hid, hholds result hresult⟩
  · rintro ⟨⟨engine, outcome, hengine, houtcome, hallow⟩, hchecks⟩
    rw [verify_eq hengine houtcome]
    cases hrun : gate.invariants.runAll input with
    | error error =>
      obtain ⟨check, hmem, hfails⟩ := runAll_error.mp ⟨error, hrun⟩
      obtain ⟨result, hcheck, hid, _⟩ := hchecks check hmem
      exact absurd hfails (not_fails_of_answer hcheck hid)
    | ok results =>
      have hholds : ∀ result ∈ results, result.holds := by
        intro result hresult
        obtain ⟨check, hmem, hcheck⟩ := (mem_runAll hrun).mp hresult
        obtain ⟨other, hother, _, hholds⟩ := hchecks check hmem
        rw [hcheck] at hother
        cases hother
        exact hholds
      apply Exists.intro (judge outcome results input)
      rw [kind_of_judge, if_pos ⟨hallow, hholds⟩]
      constructor
      · rfl
      · split_ifs <;> decide

theorem register_checks {registry registry' : InvariantRegistry} {check : InvariantCheck}
    (h : registry.register check = .ok registry') :
    registry'.checks = registry.checks ++ [check] := by
  rw [InvariantRegistry.register] at h
  split_ifs at h
  cases h
  rfl

theorem passes_of_register {check : InvariantCheck} {registry' : InvariantRegistry}
    (hregister : gate.invariants.register check = .ok registry')
    (h : ∃ verdict, (Gate.mk gate.policies registry').verify input = .ok verdict ∧
      verdict.kind ≠ .Deny) :
    ∃ verdict, gate.verify input = .ok verdict ∧ verdict.kind ≠ .Deny := by
  rw [passes_iff] at h ⊢
  constructor
  · exact h.1
  · intro other hmem
    apply h.2 other
    rw [register_checks hregister]
    exact List.mem_append_left [check] hmem

theorem stopped_iff :
    (∃ error, gate.verify input = .error error) ∨
        (∃ reasons, gate.verify input = .ok (.Deny reasons)) ↔
      ¬ ∃ verdict, gate.verify input = .ok verdict ∧ verdict.kind ≠ .Deny := by
  cases hverify : gate.verify input with
  | error error => simp
  | ok verdict => cases verdict <;> simp [Verdict.kind]

variable {engine engine' : PolicyEngine} {response response' : Response}

omit [Digests] in
theorem evaluate_eq (hanswer : engine.isAuthorized input = .ok response)
    (herrors : response.errors = []) :
    engine.evaluate input = .ok ⟨response.decision,
      (sortBy compare response.reason).map fun policyId => ⟨policyId, response.decision, none⟩⟩ := by
  rw [PolicyEngine.evaluate, hanswer]
  exact if_neg (not_not.mpr herrors)

omit [Digests] in
theorem evaluate_perm (hanswer : engine.isAuthorized input = .ok response)
    (herrors : response.errors = []) (hanswer' : engine'.isAuthorized input = .ok response')
    (herrors' : response'.errors = []) (hdecision : response'.decision = response.decision)
    (hreason : response'.reason.Perm response.reason) :
    engine'.evaluate input = engine.evaluate input := by
  rw [evaluate_eq hanswer herrors, evaluate_eq hanswer' herrors', hdecision]
  have hsorted : sortBy compare response'.reason = sortBy compare response.reason := by
    apply sortBy_eq_of_perm _ hreason
    intro a _ b _ hab
    exact Std.LawfulEqOrd.eq_of_compare hab
  rw [hsorted]

/-- The policies refused, or some invariant does not hold. -/
def Refused (gate : Gate) (response : Response) (input : GateInput) : Prop :=
  response.decision = .deny ∨
    ∃ check ∈ gate.invariants.checks, ∃ result, check.check input = .ok result ∧ ¬ result.holds

theorem verify_error (hengine : gate.policies = some engine)
    (hanswer : engine.isAuthorized input = .ok response) (herrors : response.errors = []) :
    (∃ error, gate.verify input = .error error) ↔
      ∃ check ∈ gate.invariants.checks, check.Fails input := by
  rw [← runAll_error, verify_eq hengine (evaluate_eq hanswer herrors)]
  cases gate.invariants.runAll input with
  | error error => exact ⟨fun _ => ⟨error, rfl⟩, fun _ => ⟨error, rfl⟩⟩
  | ok results =>
    constructor
    · rintro ⟨error, herror⟩
      cases herror
    · rintro ⟨error, herror⟩
      cases herror

open Classical in
/-- The kind of a verdict: a refusal outranks an escalation. -/
theorem kind_of_verify (hengine : gate.policies = some engine)
    (hanswer : engine.isAuthorized input = .ok response) (herrors : response.errors = [])
    {verdict : Verdict} (h : gate.verify input = .ok verdict) :
    verdict.kind =
      if Refused gate response input then .Deny
      else if input.invertAvailable then .Admit else .Escalate := by
  obtain ⟨engine', outcome, results, hengine', houtcome, hrun, rfl⟩ := verify_ok h
  rw [hengine] at hengine'
  cases hengine'
  rw [evaluate_eq hanswer herrors] at houtcome
  cases houtcome
  have hrefused : Refused gate response input ↔
      ¬ (response.decision = .allow ∧ ∀ result ∈ results, result.holds) := by
    constructor
    · rintro (hdeny | ⟨check, hmem, result, hcheck, hholds⟩) ⟨hallow, hall⟩
      · rw [hdeny] at hallow
        cases hallow
      · exact hholds (hall result ((mem_runAll hrun).mpr ⟨check, hmem, hcheck⟩))
    · intro hstopped
      cases hdecision : response.decision with
      | deny => exact .inl hdecision
      | allow =>
        have hviolated : ¬ ∀ result ∈ results, result.holds := fun hall => hstopped ⟨hdecision, hall⟩
        push Not at hviolated
        obtain ⟨result, hresult, hholds⟩ := hviolated
        obtain ⟨check, hmem, hcheck⟩ := (mem_runAll hrun).mp hresult
        exact .inr ⟨check, hmem, result, hcheck, hholds⟩
  rw [kind_of_judge]
  by_cases hpass : response.decision = .allow ∧ ∀ result ∈ results, result.holds
  · rw [if_pos hpass, if_neg (fun h => hrefused.mp h hpass)]
  · rw [if_neg hpass, if_pos (hrefused.mpr hpass)]

theorem verify_perm {gate' : Gate} (hengine : gate.policies = some engine)
    (hanswer : engine.isAuthorized input = .ok response) (herrors : response.errors = [])
    (hengine' : gate'.policies = some engine')
    (hanswer' : engine'.isAuthorized input = .ok response') (herrors' : response'.errors = [])
    (hchecks : gate'.invariants.checks.Perm gate.invariants.checks)
    (hdecision : response'.decision = response.decision)
    (hreason : response'.reason.Perm response.reason) :
    gate'.verify input = gate.verify input := by
  have hevaluate := evaluate_perm hanswer herrors hanswer' herrors' hdecision hreason
  rw [evaluate_eq hanswer herrors] at hevaluate
  rw [verify_eq hengine' hevaluate, verify_eq hengine (evaluate_eq hanswer herrors),
    runAll_perm hchecks]

/-- The verdict on what the policies and the invariants answer: when there is one, which it is,
and that it is the same in whichever order they are asked; the digest of a refusal is that of its
multiset of reasons, and one more invariant lets nothing past that was stopped. -/
theorem verdict_is_a_canonical_meet (hengine : gate.policies = some engine)
    (hanswer : engine.isAuthorized input = .ok response) (herrors : response.errors = []) :
    ((∃ error, gate.verify input = .error error) ↔
      ∃ check ∈ gate.invariants.checks, check.Fails input) ∧
    (∀ verdict, gate.verify input = .ok verdict →
      (verdict.kind = .Deny ↔ Refused gate response input) ∧
      (verdict.kind = .Escalate ↔
        ¬ Refused gate response input ∧ input.invertAvailable = false) ∧
      (verdict.kind = .Admit ↔ ¬ Refused gate response input ∧ input.invertAvailable = true)) ∧
    (∀ (gate' : Gate) (engine' : PolicyEngine) (response' : Response),
      gate'.policies = some engine' → engine'.isAuthorized input = .ok response' →
      response'.errors = [] → gate'.invariants.checks.Perm gate.invariants.checks →
      response'.decision = response.decision → response'.reason.Perm response.reason →
      gate'.verify input = gate.verify input ∧
      (gate'.verify input).map Verdict.proofDigest =
        (gate.verify input).map Verdict.proofDigest) ∧
    (Function.Injective Digests.reasons →
      (∀ reasons reasons' verdict verdict', Verdict.deny reasons = .ok verdict →
        Verdict.deny reasons' = .ok verdict' →
        (verdict.proofDigest = verdict'.proofDigest ↔ reasons.Perm reasons')) ∧
      ∀ (gate' : Gate) (input' : GateInput) (reasons reasons' : List Reason),
        gate.verify input = .ok (.Deny reasons) → gate'.verify input' = .ok (.Deny reasons') →
        ((Verdict.Deny reasons).proofDigest = (Verdict.Deny reasons').proofDigest ↔
          reasons.Perm reasons')) ∧
    ∀ (check : InvariantCheck) (registry' : InvariantRegistry),
      gate.invariants.register check = .ok registry' →
      (∃ error, gate.verify input = .error error) ∨
        (∃ reasons, gate.verify input = .ok (.Deny reasons)) →
      (∃ error, (Gate.mk gate.policies registry').verify input = .error error) ∨
        ∃ reasons, (Gate.mk gate.policies registry').verify input = .ok (.Deny reasons) := by
  classical
  refine ⟨verify_error hengine hanswer herrors, ?_, ?_, ?_, ?_⟩
  · intro verdict hverify
    rw [kind_of_verify hengine hanswer herrors hverify]
    by_cases hrefused : Refused gate response input
    · simp [hrefused]
    · cases input.invertAvailable <;> simp [hrefused]
  · intro gate' engine' response' hengine' hanswer' herrors' hchecks hdecision hreason
    have hsame := verify_perm hengine hanswer herrors hengine' hanswer' herrors' hchecks hdecision
      hreason
    exact ⟨hsame, congrArg _ hsame⟩
  · intro hinjective
    constructor
    · intro reasons reasons' verdict verdict' hverdict hverdict'
      rw [deny_eq_ok hverdict, deny_eq_ok hverdict']
      exact digest_of_reasons hinjective reasons reasons'
    · intro gate' input' reasons reasons' hdeny hdeny'
      rw [← sort_of_verify hdeny, ← sort_of_verify hdeny', digest_of_reasons hinjective,
        sort_of_verify hdeny, sort_of_verify hdeny']
  · intro check registry' hregister
    rw [stopped_iff, stopped_iff]
    exact mt (passes_of_register hregister)

end Canonical

namespace Sample

open Tracefold.Ideal

/-- A change that can be undone. -/
def input : GateInput where
  t := ⟨idAt 0, Canon.intent intent, 0, .object ⟨[0]⟩, none, ⟨.fs, Canon.delta .fs [1]⟩, .time,
    .human "k", [], 0⟩
  pre := ⟨⟨[0]⟩, .fs, "a", ⟨[0]⟩, .bytes⟩
  planned := [1]
  evidence := []
  decidedAt := 0
  invertAvailable := true

/-- An invariant that answers under its id. -/
def answering (id : String) (holds : Bool) : InvariantCheck := ⟨id, fun _ => .ok ⟨id, holds, none⟩⟩

def checks : List InvariantCheck := [answering "bounded" false, answering "acyclic" true]

/-- Policies that allow everything, and what they name for it. -/
def engine (reason : List String) : PolicyEngine := ⟨fun _ => .ok ⟨.allow, reason, []⟩⟩

/-- The checks in one order of registration. -/
def gate (reason : List String) (registered : List InvariantCheck)
    (h : registered.Perm checks) : Gate where
  policies := some (engine reason)
  invariants := {
    checks := registered
    named := by
      intro check hcheck
      have hmem : check ∈ checks := h.mem_iff.mp hcheck
      simp only [checks, List.mem_cons, List.not_mem_nil, or_false] at hmem
      rcases hmem with rfl | rfl <;> decide
    distinct := (h.map InvariantCheck.id).nodup_iff.mpr (by decide) }

def unbounded : Reason := refusal ⟨"bounded", false, none⟩

def cyclic : Reason := refusal ⟨"acyclic", false, none⟩

end Sample

open Tracefold.Ideal Sample in
/-- One of two invariants does not hold, and in both orders the change is refused alike. -/
theorem refused_in_both_orders :
    (∃ reasons, (Sample.gate ["p", "q"] checks (.refl _)).verify Sample.input =
      .ok (.Deny reasons)) ∧
    (Sample.gate ["q", "p"] checks.reverse (List.reverse_perm _)).verify Sample.input =
      (Sample.gate ["p", "q"] checks (.refl _)).verify Sample.input ∧
    ∀ verdict verdict', Verdict.deny [unbounded, cyclic] = .ok verdict →
      Verdict.deny [cyclic, unbounded] = .ok verdict' →
      verdict.proofDigest = verdict'.proofDigest := by
  have hengine : (Sample.gate ["p", "q"] checks (.refl _)).policies = some (engine ["p", "q"]) := rfl
  have hanswer : (engine ["p", "q"]).isAuthorized Sample.input = .ok ⟨.allow, ["p", "q"], []⟩ := rfl
  obtain ⟨herror, hkind, hperm, hdigest, _⟩ := verdict_is_a_canonical_meet hengine hanswer rfl
  have hbounded : Refused (Sample.gate ["p", "q"] checks (.refl _)) ⟨.allow, ["p", "q"], []⟩
      Sample.input :=
    .inr ⟨answering "bounded" false, List.mem_cons_self, _, rfl, by decide⟩
  refine ⟨?_, ?_, ?_⟩
  · cases hverify : (Sample.gate ["p", "q"] checks (.refl _)).verify Sample.input with
    | error error =>
      obtain ⟨check, hmem, hfails⟩ := herror.mp ⟨error, hverify⟩
      change check ∈ checks at hmem
      simp only [checks, List.mem_cons, List.not_mem_nil, or_false] at hmem
      rcases hmem with rfl | rfl <;> exact absurd hfails (not_fails_of_answer rfl rfl)
    | ok verdict =>
      have hdeny := (hkind verdict hverify).1.mpr hbounded
      cases verdict with
      | Deny reasons => exact ⟨reasons, rfl⟩
      | Admit proof => cases hdeny
      | Escalate ticket => cases hdeny
  · exact (hperm _ (engine ["q", "p"]) ⟨.allow, ["q", "p"], []⟩ rfl rfl rfl
      (List.reverse_perm _) rfl (.swap _ _ _)).1
  · intro verdict verdict' hverdict hverdict'
    exact ((hdigest reasons_injective).1 _ _ _ _ hverdict hverdict').mpr (.swap _ _ _)

end Tracefold.GxGate
