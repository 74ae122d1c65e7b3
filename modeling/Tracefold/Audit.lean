import Mathlib.Tactic.Common
import Tracefold.Calm
import Tracefold.Heads
import Tracefold.Leaves
import Tracefold.Windows

/-! The audit of an honest chain: one process whose counts are those of its journal, over a ledger
whose every leaf was admitted. -/

namespace Tracefold

open Library Engine
open Std (ExtTreeMap)

/-- The two confinements a receipt can attest: confined under a ruleset, or not and under none. -/
def ConfinementContext.Attestable (c : ConfinementContext) : Prop :=
  c.kernelConfined = c.rulesetHash.isSome

instance (c : ConfinementContext) : Decidable c.Attestable :=
  inferInstanceAs (Decidable (_ = _))

/-- A process whose counts are those of the journal it has read. -/
def Engine.Tallied (e : Engine) : Prop := e.verdicts = tallyOf (ruledOf e.records)

theorem Engine.Unruled.tallied {e e' : Engine} (h : e.Unruled e') (ht : e.Tallied) : e'.Tallied := by
  rw [Tallied, h.verdicts, h.ruled]
  exact ht

theorem verdictDerivation_attestedBoundary (input : BoundaryStage) (v : Bool) :
    (attestedBoundary input v).verdictDerivation = if v then .deterministicReplay else .unknown := by
  cases input <;> cases v <;> rfl

/-- A process that counts as its journal does and attests its confinement. -/
structure Engine.Counts (e : Engine) : Prop where
  tallied : e.Tallied
  confinement : e.config.confinement.Attestable

theorem Engine.Unruled.counts {e e' : Engine} (h : e.Unruled e') (hc : e.Counts) : e'.Counts :=
  ⟨h.tallied hc.tallied, h.config.symm ▸ hc.confinement⟩

section Ruling

variable [Canon]

theorem Engine.Counts.openThrough {config : Config} (disk : Disk)
    (h : config.confinement.Attestable) : (Engine.openThrough config disk).Counts :=
  ⟨tallyFromTheJournal_eq disk.journal, h⟩

variable {pol : Policy} {w : World} {id : TransformationId} {s s' : Sys} {stamp : Timestamp}
  {key : KeyId}

theorem Step.unruled (hpol : ∀ id, ¬ pol.rules id) (h : Step pol w id s s') :
    s'.engine.verdicts = s.engine.verdicts ∧
      ruledOf s'.engine.records = ruledOf s.engine.records := by
  cases h with
  | ruled _ _ _ _ _ _ hrules | opened _ _ _ _ hrules | decided _ _ _ _ _ _ hrules
  | counted _ _ _ _ _ hrules => exact absurd hrules (hpol id)
  | asked | failed | crashed | blob | observation | filed | headed | seated | rehydrated | idle
  | restored | explained | resumed | indexed | escrowHeld | applied | observationNamed
  | closed | leafed | leafedAgain => exact ⟨rfl, rfl⟩
  | drafted intentId rngSeed stamp =>
    have hnone : ruledOf [.draftCreated intentId rngSeed stamp] = [] := rfl
    refine ⟨rfl, ?_⟩
    exact (ruledOf_append ..).trans (by rw [hnone, List.append_nil])
  | _ => exact ⟨rfl, (Unruled.noted s.engine id _ rfl).ruled⟩

omit [Canon] in
theorem Engine.ends_issueVerdictReceipt {verdict : Option VerdictSummary} {entry : Entry}
    {E : Sys → Prop} {Q : Unit → Sys → Prop} (hconfinement : s.engine.config.confinement.Attestable)
    (hentry : s.engine.table[id]? = some entry)
    (hverdict : verdict = none → entry.failPostureEngaged = true)
    (h : Q () (s.withEngine fun e =>
      { e with verdicts := e.verdicts.count (verdict.map (·.kind)) })) :
    Prog.Ends w (issueVerdictReceipt id verdict stamp key) s E Q := by
  refine .bind (ends_self ?_)
  rw [hentry]
  dsimp only
  have hposture : (verdict.isNone && !entry.failPostureEngaged) = false := by
    cases verdict with
    | none => rw [hverdict rfl]; rfl
    | some => rfl
  have hderived : (verdict.isNone && decide ((attestedBoundary (s.engine.journalledInputGeneration id)
      verdict.isSome).verdictDerivation = .deterministicReplay)) = false := by
    rw [verdictDerivation_attestedBoundary]
    cases verdict <;> rfl
  have hnot : (attestedBoundary (s.engine.journalledInputGeneration id)
      verdict.isSome).verdictDerivation ≠ .llmOriginated := by
    rw [verdictDerivation_attestedBoundary]
    cases verdict <;> nofun
  have hconfined : (s.engine.config.confinement.kernelConfined &&
      s.engine.config.confinement.rulesetHash.isNone) = false ∧
      (!s.engine.config.confinement.kernelConfined &&
        s.engine.config.confinement.rulesetHash.isSome) = false := by
    rw [hconfinement]
    cases s.engine.config.confinement.rulesetHash <;> exact ⟨rfl, rfl⟩
  split
  next hissue =>
    simp [Receipt.issue, ReceiptPayload.checkSchema, attestedBoundary_names_once, hposture, hderived,
      hnot, hconfined, bind, Except.bind, pure, Except.pure] at hissue
  next => exact ends_update h

/-- Whatever it answers or stops with, a program leaves a process that counts. -/
abbrev Engine.EndsCounting {α : Type} (w : World) (x : M α) (s : Sys) : Prop :=
  Prog.Ends w x s (fun s' => s'.engine.Counts) fun _ s' => s'.engine.Counts

omit [Canon] in
theorem Engine.counting_calm {α β : Type} {x : M α} {f : α → M β} (hx : Prog.Keeps Calm x)
    (hs : s.engine.Counts)
    (h : ∀ a s', Calm s s' → s'.engine.Counts → EndsCounting w (f a) s') :
    EndsCounting w (x >>= f) s :=
  .bind (hx.ends (fun _ hcalm => hcalm.engine.counts hs) fun a s' hcalm =>
    h a s' hcalm (hcalm.engine.counts hs))

omit [Canon] in
theorem Engine.counting_ruling {n : Note} {f : Entry → Entry} {state : Lifecycle}
    (verdict : Option VerdictSummary) (hs : s.engine.Counts) (hrow : id ∈ s.engine.table)
    (hn : n.tallied = some (verdict.map (·.kind)))
    (hf : verdict = none → ∀ entry, (f entry).failPostureEngaged = true) :
    EndsCounting w (do
      noteThen id n stamp (onEntry id f)
      issueVerdictReceipt id verdict stamp key
      return state) s := by
  refine .bind (ends_noteThen_any (fun _ => hs) (fun _ => hs) fun _ => .bind ?_)
  obtain ⟨entry, hentry⟩ := Option.isSome_iff_exists.mp
    (ExtTreeMap.isSome_getElem?_iff_mem.mpr hrow)
  have hmodified : (s.engine.table.modify id f)[id]? = some (f entry) := by
    rw [ExtTreeMap.getElem?_modify_self, hentry]
    rfl
  refine ends_issueVerdictReceipt hs.confinement hmodified (fun hnone => hf hnone entry)
    (.pure ⟨?_, hs.confinement⟩)
  have hruled : ruledOf (s.engine.records ++ [.about id n stamp]) =
      ruledOf s.engine.records ++ [verdict.map (·.kind)] := by
    rw [ruledOf_append]
    simp only [ruledOf, List.filterMap_cons, hn, List.filterMap_nil]
  have htallied : s.engine.verdicts.count (verdict.map (·.kind)) =
      tallyOf (ruledOf (s.engine.records ++ [.about id n stamp])) := by
    rw [hruled, tallyOf_concat, ← hs.tallied]
  exact htallied

omit [Canon] in
theorem Engine.counting_unreachableCollector (hs : s.engine.Counts) (hrow : id ∈ s.engine.table) :
    EndsCounting w (unreachableCollector id stamp key) s := by
  refine .bind (ends_self ?_)
  split
  next =>
    refine counting_calm (calm_noteThen rfl fun e => .onEntry e _ _) hs fun _ s₁ _ hs₁ => ?_
    exact .pure hs₁
  next => exact counting_ruling none hs hrow rfl fun _ _ => rfl

omit [Canon] in
theorem Engine.counting_gateRuling (hs : s.engine.Counts) :
    EndsCounting w (gateRuling id stamp key) s := by
  refine .bind (.bind (ends_self (.orThrow (fun _ => hs) fun entry hentry => ?_)))
  have hrow : id ∈ s.engine.table :=
    ExtTreeMap.mem_iff_isSome_getElem?.mpr (by rw [hentry]; rfl)
  refine counting_calm (calm_query _) hs fun collected s₁ hcalm₁ hs₁ => ?_
  cases collected with
  | error => exact counting_unreachableCollector hs₁ (hcalm₁.table hrow)
  | ok evidence =>
    refine counting_calm (calm_adapter _) hs₁ fun _ s₂ hcalm₂ hs₂ => ?_
    refine counting_calm (calm_queryOr _ _) hs₂ fun outcome s₃ hcalm₃ hs₃ => ?_
    refine counting_calm (calm_query _) hs₃ fun answered s₄ hcalm₄ hs₄ => ?_
    have hrow₄ := (hcalm₁.trans (hcalm₂.trans (hcalm₃.trans hcalm₄))).table hrow
    cases answered with
    | error =>
      refine counting_calm (calm_noteThen rfl fun e => .onEntry e _ _) hs₄ fun _ s₅ _ hs₅ => ?_
      exact .pure hs₅
    | ok verdict =>
      refine .bind (.orThrow (fun _ => hs₄) fun digest _ => ?_)
      exact counting_ruling (some ⟨verdict.kind, digest⟩) hs₄ hrow₄ rfl nofun

omit [Canon] in
theorem Engine.counting_verify {mode : Option EnforcementMode} (hs : s.engine.Counts) :
    EndsCounting w (verify id stamp key mode) s := by
  refine .bind (ends_self ?_)
  refine counting_calm (calm_expireIfDue _ _) hs fun _ s₁ _ hs₁ => ?_
  refine counting_calm (calm_entryOf _) hs₁ fun entry s₂ _ hs₂ => ?_
  refine counting_calm (calm_refuseIf _ _) hs₂ fun _ s₃ _ hs₃ => ?_
  refine counting_calm (calm_unblock _ _) hs₃ fun _ s₄ _ hs₄ => ?_
  refine counting_calm (calm_conflictingPredecessor _ _) hs₄ fun blocker s₅ _ hs₅ => ?_
  cases blocker with
  | some blocker =>
    refine counting_calm (calm_modifyEntry _ _) hs₅ fun _ s₆ _ hs₆ => ?_
    exact .pure hs₆
  | none =>
    refine counting_calm (calm_noteThen rfl fun e => .onEntry e _ _) hs₅ fun _ s₆ _ hs₆ => ?_
    exact counting_gateRuling hs₆

theorem Engine.counting_escalation {ruling : HumanRuling} (hs : s.engine.Counts) :
    EndsCounting w (escalation id ruling stamp key) s := by
  refine counting_calm (calm_expireIfDue _ _) hs fun _ s₁ _ hs₁ => ?_
  refine .bind (.bind (ends_self (.orThrow (fun _ => hs₁) fun entry hentry => ?_)))
  have hrow : id ∈ s₁.engine.table :=
    ExtTreeMap.mem_iff_isSome_getElem?.mpr (by rw [hentry]; rfl)
  refine counting_calm (calm_refuseIf _ _) hs₁ fun _ s₂ hcalm₂ hs₂ => ?_
  refine counting_calm (calm_refuseIf _ _) hs₂ fun _ s₃ hcalm₃ hs₃ => ?_
  refine counting_calm (calm_refuseIf _ _) hs₃ fun _ s₄ hcalm₄ hs₄ => ?_
  exact counting_ruling (some ⟨ruling.decision, Canon.ruling ruling⟩) hs₄
    ((hcalm₂.trans (hcalm₃.trans hcalm₄)).table hrow) rfl nofun

/-- No operation lets the counts of a process part from its journal. -/
theorem Engine.Counts.exec (op : Op) (hs : s.engine.Counts) : (op.exec.final w s).engine.Counts := by
  have hdiscard : ∀ {α : Type} {x : M α}, EndsCounting w x s →
      ((Engine.discard x).final w s).engine.Counts := by
    intro α x hx
    have hends : EndsCounting w (Engine.discard x) s := .bind (hx.mono fun _ _ h => .pure h)
    exact hends.final
  let unruled : Policy := { Policy.any with rules := fun _ => False }
  have hmoves : ∀ {op : Op}, unruled.Allows w s op → (op.exec.final w s).engine.Counts := by
    intro op hallows
    have hsteps := (moves_exec hallows fun _ _ => trivial).steps
    generalize op.exec.final w s = s' at hsteps
    induction hsteps with
    | refl => exact hs
    | tail _ hmove ih =>
      obtain ⟨id, _, hstep⟩ := hmove
      obtain ⟨hverdicts, hruled⟩ := hstep.unruled fun _ h => h
      refine ⟨?_, hstep.config.symm ▸ ih.confinement⟩
      rw [Tallied, hverdicts, hruled]
      exact ih.tallied
  cases op with
  | verify => exact hdiscard (counting_verify hs)
  | escalation => exact hdiscard (counting_escalation hs)
  | plan => exact hmoves fun _ _ _ _ _ => trivial
  | undo => exact hmoves fun _ _ _ _ _ _ => trivial
  | commit => exact hmoves fun _ _ _ _ _ _ => trivial
  | recover => exact hmoves fun _ _ _ _ _ => trivial
  | canonicalize => exact hmoves fun _ _ _ _ => trivial
  | submit | cancel | reap | reissueReceipt | rehydrateCommitted => exact hmoves trivial

end Ruling

/-- A ruling that lets a row go on, made or passed over. -/
def Note.admits (n : Note) : Bool := n.tallied = some none || n.tallied = some (some .Admit)

/-- A state that lies behind an admission. -/
def Lifecycle.passed : Lifecycle → Bool
  | .admitted | .canonicalized | .committing | .committed | .superseded => true
  | _ => false

/-- A transformation that is past an admission has one among its notes. -/
def AdmittedFirst (notes : List Note) : Prop :=
  ∀ state, stateOf? notes = some state → state.passed = true → ∃ n ∈ notes, n.admits = true

section Admitting

variable [Canon]

variable {pol : Policy} {w : World} {id : TransformationId} {s s' : Sys}

theorem Step.rules_made (h : Step pol w id s s') {kind : VerdictKind} {digest : Option Cid}
    {engaged : Bool} {t : Timestamp}
    (hr : s'.engine.records = s.engine.records ++ [.about id (.verdict kind digest engaged) t]) :
    digest = none ∨ engaged = false := by
  have hnone : s.engine.records ≠
      s.engine.records ++ [.about id (.verdict kind digest engaged) t] := by simp
  cases h with
  | ruled =>
    cases List.append_cancel_left hr
    exact .inr rfl
  | opened =>
    cases List.append_cancel_left hr
    exact .inl rfl
  | _ =>
    first
    | exact absurd hr hnone
    | cases List.append_cancel_left hr

theorem Step.canonicalizes (hs : Synced s.engine) (hpol : ∀ e id, ¬ pol.carries e id)
    (h : Step pol w id s s') {cid : Cid} {enforced : Option Bool} {t : Timestamp}
    (hr : s'.engine.records = s.engine.records ++ [.about id (.canonicalized cid enforced) t]) :
    stateOf? (s.engine.notes id) = some .admitted := by
  have hnone : s.engine.records ≠
      s.engine.records ++ [.about id (.canonicalized cid enforced) t] := by simp
  cases h with
  | canonicalized entry enforced stamp hentry hstate _ hcarries =>
    rcases hstate with hstate | hstate
    · rw [← hstate]
      exact ((hs.row id).state entry hentry).eq_of_ne (by rw [hstate]; nofun) (by rw [hstate]; nofun)
    · exact absurd (hcarries hstate) (hpol _ _)
  | _ =>
    first
    | exact absurd hr hnone
    | cases List.append_cancel_left hr

theorem AdmittedFirst.step (hs : Synced s.engine) (hpol : ∀ e id, ¬ pol.carries e id)
    (hstep : Step pol w id s s') (h : ∀ other, AdmittedFirst (s.engine.notes other))
    (other : TransformationId) : AdmittedFirst (s'.engine.notes other) := by
  rcases hstep.notes other with hsame | ⟨rfl, n, t, hr, hnotes⟩
  · rw [hsame]
    exact h other
  · rw [hnotes]
    intro state hstate hpassed
    rw [stateOf?_append] at hstate
    have hbefore : ∀ before, stateOf? (s.engine.notes other) = some before →
        before.passed = true → ∃ m ∈ s.engine.notes other ++ [n], m.admits = true := by
      intro before hbefore hpassed
      obtain ⟨m, hm, hadmits⟩ := h other before hbefore hpassed
      exact ⟨m, List.mem_append_left _ hm, hadmits⟩
    have hnow : n.admits = true → ∃ m ∈ s.engine.notes other ++ [n], m.admits = true :=
      fun hn => ⟨n, List.mem_append_right _ List.mem_cons_self, hn⟩
    have hlegal := hstep.legal hs hr
    cases n with
    | planned | verifyStarted | aborted =>
      cases hstate
      cases hpassed
    | provenanceDerived | inverseEscrowed | applyStarted | applyObserved | inverseCompleted =>
      exact hbefore _ hlegal rfl
    | canonicalized => exact hbefore _ (hstep.canonicalizes hs hpol hr) rfl
    | verdict kind digest engaged =>
      rcases hstep.rules_made hr with rfl | rfl
      · exact hnow rfl
      · cases hstate
        cases kind with
        | Admit => cases digest <;> exact hnow rfl
        | Deny | Escalate => cases hpassed
    | humanDecision kind =>
      cases hstate
      cases kind with
      | Admit => exact hnow rfl
      | Deny | Escalate => cases hpassed
    | committingStarted =>
      obtain ⟨before, after, hb, hafter, hedge⟩ := hlegal
      exact hbefore _ (hedge.to_committing (Option.some.inj hafter).symm) rfl
    | committed =>
      obtain ⟨before, after, hb, hafter, hedge⟩ := hlegal
      exact hbefore _ (hedge.to_committed (Option.some.inj hafter).symm) rfl
    | superseded =>
      obtain ⟨before, after, hb, hafter, hedge⟩ := hlegal
      exact hbefore _ (hedge.to_superseded (Option.some.inj hafter).symm) rfl

/-- The files of a project whose every leaf was admitted. -/
structure FilesAdmitted (disk : Disk) : Prop where
  numbered : Numbered disk.ledger
  first : ∀ id, AdmittedFirst (notesOf id disk.journal)
  admitted : ∀ leaf ∈ disk.ledger,
    ∃ n ∈ notesOf leaf.transformation disk.journal, n.admits = true

omit [Canon] in
theorem FilesAdmitted.empty : FilesAdmitted .empty :=
  ⟨.nil, fun _ _ hstate => (nomatch hstate), fun _ hleaf => (nomatch hleaf)⟩

/-- No denied row is carried on. -/
def uncarried : Policy := { Policy.any with carries := fun _ _ => False }

theorem admitted_kept [Canon.CollisionFree] (w : World) :
    Project.Kept w uncarried (fun _ disk => FilesAdmitted disk) (fun s => Synced s.engine) where
  init := .empty
  opens _ disk config _ := Synced.openThrough config disk
  step id s s' hin hd hs hstep := by
    obtain ⟨hnum, hfirst, hadmitted⟩ := hd
    rw [← hin.records] at hfirst hadmitted
    rw [← hin.ledger] at hnum hadmitted
    have hin' := hin.writes hstep.writes
    refine ⟨⟨?_, ?_, ?_⟩, hs.step hstep⟩
    · rw [← hin'.ledger]
      exact hnum.step hstep
    · rw [← hin'.records]
      exact AdmittedFirst.step hs (fun _ _ h => h) hstep hfirst
    · rw [← hin'.ledger, ← hin'.records]
      have hkept : ∀ {other : TransformationId}, (∃ n ∈ s.engine.notes other, n.admits = true) →
          ∃ n ∈ s'.engine.notes other, n.admits = true := by
        rintro other ⟨n, hn, hadmits⟩
        refine ⟨n, ?_, hadmits⟩
        rcases hstep.notes other with hsame | ⟨rfl, m, t, _, hnotes⟩
        · rwa [hsame]
        · rw [hnotes]
          exact List.mem_append_left _ hn
      intro leaf hleaf
      cases hstep.writes with
      | nothing _ _ hl | record _ _ _ hl => exact hkept (hadmitted leaf (hl ▸ hleaf))
      | leaf new hr _ hl =>
        rw [hl] at hleaf
        rcases List.mem_append.mp hleaf with hmem | hmem
        · exact hkept (hadmitted leaf hmem)
        · obtain rfl := List.mem_singleton.mp hmem
          obtain ⟨hid, _, _, hcommitting, _⟩ := hstep.leafs hl
          rw [hid]
          exact hkept (hfirst id _ hcommitting rfl)

end Admitting

/-- The transformations a journal admits, once for each admission. -/
def admissionsOf (records : List Record) : List TransformationId :=
  records.filterMap fun
    | .about id n _ => if n.admits then some id else none
    | .draftCreated _ _ _ => none

theorem mem_admissionsOf {records : List Record} {id : TransformationId} {n : Note}
    (h : n ∈ notesOf id records) (hn : n.admits = true) : id ∈ admissionsOf records := by
  induction records using List.reverseRecOn with
  | nil => cases h
  | append_singleton records r ih =>
    rw [admissionsOf, List.filterMap_append]
    rcases mem_notesOf_concat h with hold | ⟨t, rfl⟩
    · exact List.mem_append_left _ (ih hold)
    · refine List.mem_append_right _ ?_
      simp only [List.filterMap_cons, hn, if_true, List.filterMap_nil, List.mem_singleton]

/-- Every admission is counted as an admission or as passed over. -/
theorem length_admissionsOf (records : List Record) : (admissionsOf records).length =
    (tallyOf (ruledOf records)).admits + (tallyOf (ruledOf records)).unverdicted := by
  induction records using List.reverseRecOn with
  | nil => rfl
  | append_singleton records r ih =>
    rw [admissionsOf, List.filterMap_append, List.length_append, ← admissionsOf, ih, ruledOf_append,
      tallyOf_append]
    simp only [VerdictTally.add]
    have hlast : (admissionsOf [r]).length =
        (tallyOf (ruledOf [r])).admits + (tallyOf (ruledOf [r])).unverdicted := by
      cases r with
      | draftCreated => rfl
      | about id n t =>
        cases n with
        | verdict kind digest engaged => cases kind <;> cases digest <;> rfl
        | humanDecision kind => cases kind <;> rfl
        | _ => rfl
    rw [← admissionsOf, hlast]
    omega

theorem FilesAdmitted.length_le {disk : Disk} (h : FilesAdmitted disk) : disk.ledger.length ≤
    (tallyFromTheJournal disk.journal).admits + (tallyFromTheJournal disk.journal).unverdicted := by
  rw [tallyFromTheJournal_eq, ← length_admissionsOf, ← List.length_map (·.transformation)]
  refine (List.subperm_of_subset h.numbered.once fun id hid => ?_).length_le
  obtain ⟨leaf, hleaf, rfl⟩ := List.mem_map.mp hid
  obtain ⟨n, hn, hadmits⟩ := h.admitted leaf hleaf
  exact mem_admissionsOf hn hadmits

theorem Tiled.audited {ruled : List (Option VerdictKind)} {reach : ℕ}
    {log : List VerdictCheckpoint} (h : Tiled ruled reach log)
    (hsizes : log.Pairwise fun a b => a.ledgerTreeSize ≤ b.ledgerTreeSize) :
    let a := log.foldl ChainAudit.next .start
    a.found = [] ∧ a.folded = publishedBy log ∧ (∀ before, a.previousEnd = some before → before = reach) ∧
      ∀ before, a.previousLedger = some before → ∃ c ∈ log, c.ledgerTreeSize = before := by
  induction h with
  | nil => exact ⟨rfl, rfl, fun _ h => (by cases h), fun _ h => (by cases h)⟩
  | @append reach log c htiled hstart hle hend htally ih =>
    rw [List.pairwise_append] at hsizes
    obtain ⟨hfound, hfolded, hprevious, hledger⟩ := ih hsizes.1
    rw [List.foldl_append]
    simp only [List.foldl_cons, List.foldl_nil]
    generalize log.foldl ChainAudit.next .start = a at hfound hfolded hprevious hledger
    have hwidth : c.windowEnd - c.windowStart = c.tally.total := by
      rw [htally, total_tallyOf, List.length_drop, List.length_take, hstart]
      omega
    refine ⟨?_, ?_, ?_, ?_⟩
    · refine List.append_eq_nil_iff.mpr ⟨List.append_eq_nil_iff.mpr
        ⟨List.append_eq_nil_iff.mpr ⟨hfound, if_neg (not_not.mpr hwidth)⟩, ?hgap⟩, ?hbackwards⟩
      case hgap =>
        cases hbefore : a.previousEnd with
        | none => rfl
        | some before => exact if_neg (not_not.mpr ((hprevious before hbefore).trans hstart.symm))
      case hbackwards =>
        cases hbefore : a.previousLedger with
        | none => rfl
        | some before =>
          obtain ⟨c', hc', rfl⟩ := hledger before hbefore
          exact if_neg (Nat.not_lt.mpr (hsizes.2.2 c' hc' c List.mem_cons_self))
    · rw [publishedBy, List.foldl_append, ← publishedBy, ← hfolded]
      rfl
    · rintro before ⟨⟩
      rfl
    · rintro before ⟨⟩
      exact ⟨c, List.mem_append_right _ List.mem_cons_self, rfl⟩

/-- A chain that tiles the whole count, over a ledger of admitted leaves, passes its audit. -/
theorem Tiled.auditVerdictChain_eq_nil {disk : Disk} {log : List VerdictCheckpoint}
    (h : Tiled (ruledOf disk.journal) (ruledOf disk.journal).length log)
    (hsizes : log.Pairwise fun a b => a.ledgerTreeSize ≤ b.ledgerTreeSize)
    (hadmitted : FilesAdmitted disk) :
    auditVerdictChain log (tallyFromTheJournal disk.journal) disk.ledger.length = [] := by
  obtain ⟨hfound, hfolded, _, _⟩ := h.audited hsizes
  have hall : publishedBy log = tallyFromTheJournal disk.journal := by
    rw [h.publishedBy_eq, List.take_length, tallyFromTheJournal_eq]
  have hlength := hadmitted.length_le
  unfold auditVerdictChain
  simp only [hfound, hfolded, hall, underreported, Nat.lt_irrefl, if_false, List.append_nil,
    List.nil_append]
  exact if_neg (Nat.not_lt.mpr hlength)

theorem VerdictTally.le_add (t u : VerdictTally) : t.le (t.add u) = true := by
  simp [VerdictTally.le, VerdictTally.add]

theorem Tiled.reach_concat {ruled : List (Option VerdictKind)} {reach : ℕ}
    {log : List VerdictCheckpoint} {c : VerdictCheckpoint} (h : Tiled ruled reach (log ++ [c])) :
    reach = c.windowEnd := by
  generalize hlog : log ++ [c] = whole at h
  cases h with
  | nil => exact absurd hlog (by simp)
  | append =>
    obtain ⟨_, hlast⟩ := List.append_inj' hlog rfl
    rw [List.singleton_inj.mp hlast]

theorem Tiled.full {records : List Record} {reach : ℕ} {log : List VerdictCheckpoint}
    {c : VerdictCheckpoint} (h : Tiled (ruledOf records) reach (log ++ [c]))
    (hend : c.windowEnd = (tallyFromTheJournal records).total) :
    reach = (ruledOf records).length := by
  rw [h.reach_concat, hend, tallyFromTheJournal_eq, total_tallyOf]

section Audited

variable [Canon]

/-- A turn of the one process of a deployment. -/
def Turn.Solo : Turn → Prop
  | .act a => a.Solo
  | .checkpoint pid _ _ _ _ => pid = 0
  | .lockedCheckpoint _ _ _ _ _ => False

instance : ∀ t : Turn, Decidable t.Solo
  | .act a => inferInstanceAs (Decidable a.Solo)
  | .checkpoint pid _ _ _ _ => inferInstanceAs (Decidable (pid = 0))
  | .lockedCheckpoint _ _ _ _ _ => isFalse id

/-- The operation is to canonicalize a row that was denied. -/
def Engine.Op.carriesDenied (e : Engine) : Op → Bool
  | .canonicalize id _ mode =>
    mode.getD e.config.mode = .recordOnly && e.table[id]?.any (·.state = .denied)
  | _ => false

/-- A process is started with a confinement it can attest, and carries no denied row on. -/
def Turn.Candid (d : Deployment) : Turn → Prop
  | .act (.start _ config) => config.confinement.Attestable
  | .act (.call pid op) => (d.project.process pid).all (!op.carriesDenied ·) = true
  | _ => True

instance (d : Deployment) : ∀ t : Turn, Decidable (t.Candid d)
  | .act (.start _ config) => inferInstanceAs (Decidable config.confinement.Attestable)
  | .act (.call pid op) =>
    inferInstanceAs (Decidable ((d.project.process pid).all (!op.carriesDenied ·) = true))
  | .act (.locked _ _) | .checkpoint _ _ _ _ _ | .lockedCheckpoint _ _ _ _ _ => isTrue trivial

/-- The checkpoints and the process of a deployment, against its files. -/
structure Upright (d : Deployment) : Prop where
  holds : d.project.Holds (fun _ disk => FilesAdmitted disk) fun s => Synced s.engine
  counts : ∀ e, d.project.process 0 = some e → e.Counts
  published : ∀ e, d.project.process 0 = some e → d.published 0 = publishedBy d.verdictLog
  accounted : Accounted d
  sizes : d.verdictLog.Pairwise fun a b => a.ledgerTreeSize ≤ b.ledgerTreeSize

variable {w : World} {d : Deployment}

theorem Upright.verdicts (h : Upright d) {e : Engine} (he : d.project.process 0 = some e) :
    e.verdicts = tallyFromTheJournal d.project.disk.journal := by
  have hrecords := (h.holds.2 e he).1.records
  rw [tallyFromTheJournal_eq, (h.counts e he).tallied]
  exact congrArg (tallyOf ∘ ruledOf) hrecords

theorem Upright.published_le (h : Upright d) {e : Engine} (he : d.project.process 0 = some e) :
    (d.published 0).le e.verdicts = true := by
  obtain ⟨reach, htiled⟩ := h.accounted.tiled
  rw [h.verdicts he, h.published e he, htiled.publishedBy_eq, tallyFromTheJournal_eq,
    ← List.take_append_drop reach (ruledOf d.project.disk.journal), tallyOf_append,
    List.take_append_drop]
  exact VerdictTally.le_add _ _

theorem Upright.empty : Upright .empty where
  holds := ⟨.empty, fun _ he => nomatch he⟩
  counts _ he := nomatch he
  published _ he := nomatch he
  accounted := .empty
  sizes := .nil

theorem Turn.Candid.allows {pid : ℕ} {op : Op} {s : Sys}
    (h : Turn.Candid d (.act (.call pid op))) (hcalls : d.project.calls (.call pid op) = some (s, op)) :
    uncarried.Allows w s op := by
  obtain ⟨e, he, hs⟩ := Option.map_eq_some_iff.mp hcalls
  obtain ⟨rfl, _⟩ := Prod.mk.inj hs
  have hnot : op.carriesDenied e = false := by
    have hall := h
    rw [Turn.Candid, he] at hall
    simpa using hall
  cases op with
  | canonicalize id stamp mode =>
    intro entry hentry hdenied hmode
    have hcarries : (Op.canonicalize id stamp mode).carriesDenied e = true := by
      simp only [Op.carriesDenied, hmode, hentry, hdenied, decide_true, Option.any_some, Bool.and_self]
    rw [hnot] at hcarries
    cases hcarries
  | plan => exact fun _ _ _ _ _ => trivial
  | undo => exact fun _ _ _ _ _ _ => trivial
  | commit => exact fun _ _ _ _ _ _ => trivial
  | recover => exact fun _ _ _ _ _ => trivial
  | _ => trivial

theorem Upright.act [Canon.CollisionFree] (h : Upright d) {a : Action} (hsolo : a.Solo)
    (ha : Turn.Candid d (.act a)) : Upright (d.step w (.act a)) := by
  have hallows : ∀ s op, d.project.calls a = some (s, op) → uncarried.Allows w s op := by
    intro s op hcalls
    cases a with
    | start => cases hcalls
    | locked => exact hsolo.elim
    | call pid op' =>
      obtain rfl : op' = op := Option.some.inj (Project.calls_op hcalls)
      exact ha.allows hcalls
  have hprocess : ∀ e, (d.project.step w a).process 0 = some e →
      e.Counts ∧ d.opened a 0 = publishedBy d.verdictLog := by
    intro e he
    cases a with
    | locked => exact hsolo.elim
    | start pid config =>
      obtain rfl : pid = 0 := hsolo
      rw [Project.step, Project.process_set] at he
      obtain rfl := Option.some.inj he
      exact ⟨.openThrough _ ha, rfl⟩
    | call pid op =>
      obtain rfl : pid = 0 := hsolo
      cases hproc : d.project.process 0 with
      | none =>
        rw [Project.step, hproc] at he
        cases hproc.symm.trans he
      | some e₀ =>
        have hstep : d.project.step w (.call 0 op) = d.project.exec w 0 op e₀ := by
          simp only [Project.step, hproc]
        obtain ⟨_, _, hafter⟩ := Project.exec_cases w d.project 0 op e₀
        rw [hstep] at he
        rcases hafter with hnone | hsome
        · rw [hnone, Project.process_set] at he
          cases he
        · rw [hsome, Project.process_set] at he
          obtain rfl := Option.some.inj he
          exact ⟨(h.counts e₀ hproc).exec op, h.published e₀ hproc⟩
  exact
    { holds := (admitted_kept w).act h.holds hsolo hallows
      counts := fun e he => (hprocess e he).1
      published := fun e he => (hprocess e he).2
      accounted := h.accounted.act a
      sizes := h.sizes }

theorem Upright.publish (h : Upright d) {e : Engine} (he : d.project.process 0 = some e)
    (origin : String) (at_ : Timestamp) (key : KeyId) (fault : Fault) :
    Upright (d.publish 0 e origin at_ key fault) := by
  obtain ⟨hin, hs⟩ := h.holds.2 e he
  have haccounted := h.accounted.publish (h.verdicts he) (h.published e he) hin.ledger origin at_ key
    fault
  have hholds : ∀ {e' : Option Engine}, (∀ e'', e' = some e'' → e'' = e) →
      (d.project.set 0 e').Holds (fun _ disk => FilesAdmitted disk) fun s => Synced s.engine := by
    intro e' hsame
    refine ⟨h.holds.1, fun e'' he'' => ?_⟩
    rw [Project.process_set] at he''
    rw [hsame e'' he'']
    exact ⟨hin, hs⟩
  unfold Deployment.publish at haccounted ⊢
  split at haccounted
  next hrefused =>
    rw [Engine.verdictCheckpoint, if_pos (h.published_le he)] at hrefused
    cases hrefused
  next =>
    refine ⟨hholds fun e'' he'' => (Option.some.inj he'').symm, fun e'' he'' => ?_,
      fun e'' he'' => ?_, haccounted, h.sizes⟩
    · rw [Project.process_set] at he''
      exact Option.some.inj he'' ▸ h.counts e he
    · exact h.published e he
  next =>
    refine ⟨hholds fun e'' he'' => (nomatch he''), fun e'' he'' => ?_, fun e'' he'' => ?_,
      haccounted, h.sizes⟩
    · rw [Project.process_set] at he''
      cases he''
    · rw [Project.process_set] at he''
      cases he''
  next c hc =>
    rw [Engine.verdictCheckpoint, if_pos (h.published_le he)] at hc
    obtain rfl := Except.ok.inj hc
    refine ⟨hholds fun e'' he'' => (Option.some.inj he'').symm, fun e'' he'' => ?_,
      fun e'' he'' => ?_, haccounted, ?_⟩
    · rw [Project.process_set] at he''
      exact Option.some.inj he'' ▸ h.counts e he
    · obtain ⟨reach, htiled⟩ := haccounted.tiled
      have hreach := htiled.full (congrArg VerdictTally.total (h.verdicts he))
      rw [htiled.publishedBy_eq, hreach, List.take_length, ← tallyFromTheJournal_eq]
      exact h.verdicts he
    · refine List.pairwise_append.mpr ⟨h.sizes, List.pairwise_singleton .., fun a ha b hb => ?_⟩
      rw [List.mem_singleton.mp hb, hin.ledger]
      exact (h.accounted.anchored a ha).1

theorem Deployment.Reaches.upright [Canon.CollisionFree]
    (h : Deployment.Reaches w (fun d t => t.Solo ∧ t.Candid d) d) : Upright d := by
  induction h with
  | empty => exact .empty
  | @step d t _ ht ih =>
    obtain ⟨hsolo, hcandid⟩ := ht
    cases t with
    | act a => exact ih.act hsolo hcandid
    | lockedCheckpoint => exact hsolo.elim
    | checkpoint pid origin at_ key fault =>
      obtain rfl : pid = 0 := hsolo
      cases hproc : d.project.process 0 with
      | none =>
        have hsame : d.step w (.checkpoint 0 origin at_ key fault) = d := by
          simp only [Deployment.step, hproc]
        rw [hsame]
        exact ih
      | some e =>
        have hstep : d.step w (.checkpoint 0 origin at_ key fault) =
            d.publish 0 e origin at_ key fault := by
          simp only [Deployment.step, hproc]
        rw [hstep]
        exact ih.publish hproc origin at_ key fault

/-- A run of one process that carries no denied row on and ends with a checkpoint passes the audit
of its own chain: the checkpoint is published, and nothing is found. -/
theorem honest_chain_passes_its_audit [Canon.CollisionFree]
    (h : Deployment.Reaches w (fun d t => t.Solo ∧ t.Candid d) d) {e : Engine} (he : d.project.process 0 = some e) (origin : String) (at_ : Timestamp)
    (key : KeyId) :
    let d' := d.step w (.checkpoint 0 origin at_ key .none)
    (∃ c, d'.verdictLog = d.verdictLog ++ [c]) ∧
      auditVerdictChain d'.verdictLog (tallyFromTheJournal d'.project.disk.journal)
        d'.project.disk.ledger.length = [] := by
  have hupright := h.upright
  have hafter := hupright.publish he origin at_ key .none
  have hstep : d.step w (.checkpoint 0 origin at_ key .none) = d.publish 0 e origin at_ key .none := by
    simp only [Deployment.step, he]
  intro d'
  have hd' : d' = d.publish 0 e origin at_ key .none := hstep
  obtain ⟨c, hc, hend⟩ : ∃ c, e.verdictCheckpoint (d.published 0) origin at_ key = .ok c ∧
      c.windowEnd = e.verdicts.total := ⟨_, if_pos (hupright.published_le he), rfl⟩
  have hlog : d'.verdictLog = d.verdictLog ++ [c] := by simp only [hd', Deployment.publish, hc]
  have hjournal : d'.project.disk = d.project.disk := by
    simp only [hd', Deployment.publish, hc]
    rfl
  refine ⟨⟨c, hlog⟩, ?_⟩
  rw [← hd'] at hafter
  obtain ⟨reach, htiled⟩ := hafter.accounted.tiled
  rw [hlog] at htiled
  have hreach := htiled.full (by rw [hend, hjournal, hupright.verdicts he])
  rw [hreach, ← hlog] at htiled
  exact htiled.auditVerdictChain_eq_nil hafter.sizes hafter.holds.1

end Audited

section RecordOnly

open Tracefold.Ideal

/-- A gate that denies everything. -/
def denyingAll : World :=
  objectFrom 1 fun _ env => { env with gate := fun _ => .ok ⟨.Deny, some ⟨[7]⟩⟩ }

/-- An intent is taken to its commit, whatever the gate said of it. -/
def recordedOnly (mode : Option EnforcementMode) : List Turn :=
  ([.start 0 Ideal.config, .call 0 (.submit intent 0 0), .call 0 (.plan intent 0),
    .call 0 (.verify (idAt 1) 1 "k" none), .call 0 (.canonicalize (idAt 1) 1 mode),
    .call 0 (.commit (idAt 1) 2 "k")] : List Action).map Turn.act

/-- The intent is admitted, and committed under a mode that would have let a denied one through. -/
theorem honest_chain_passes_its_audit_once :
    let d := Deployment.empty.run (objectFrom 1 fun _ env => env) (recordedOnly (some .recordOnly))
    d.project.disk.ledger.length = 1 ∧
      let d' := d.step (objectFrom 1 fun _ env => env) (.checkpoint 0 "o" 3 "k" .none)
      (∃ c, d'.verdictLog = d.verdictLog ++ [c]) ∧
        auditVerdictChain d'.verdictLog (tallyFromTheJournal d'.project.disk.journal)
          d'.project.disk.ledger.length = [] := by
  intro d
  have halong : Deployment.empty.Along (objectFrom 1 fun _ env => env)
      (fun d t => t.Solo ∧ t.Candid d) (recordedOnly (some .recordOnly)) := by
    decide
  have hlength : d.project.disk.ledger.length = 1 := by decide
  have halive : (d.project.process 0).isSome = true := by decide
  obtain ⟨e, he⟩ := Option.isSome_iff_exists.mp halive
  exact ⟨hlength, honest_chain_passes_its_audit (Deployment.Reaches.empty.run halong) he "o" 3 "k"⟩

/-- A denied change is committed under `RecordOnly`, and the process publishes: its ledger has a
leaf, and its journal no admission. -/
theorem recorded_only_fails_its_audit :
    let d := Deployment.empty.run denyingAll
      (recordedOnly (some .recordOnly) ++ [.checkpoint 0 "o" 3 "k" .none])
    Deployment.Reaches denyingAll (fun _ t => t.Solo) d ∧
      auditVerdictChain d.verdictLog (tallyFromTheJournal d.project.disk.journal)
        d.project.disk.ledger.length = [.behindTheLedger 0 1] := by
  intro d
  have halong : Deployment.empty.Along denyingAll (fun _ t => t.Solo)
      (recordedOnly (some .recordOnly) ++ [.checkpoint 0 "o" 3 "k" .none]) := by
    decide
  have haudit : auditVerdictChain d.verdictLog (tallyFromTheJournal d.project.disk.journal)
      d.project.disk.ledger.length = [.behindTheLedger 0 1] := by
    decide
  exact ⟨Deployment.Reaches.empty.run halong, haudit⟩

end RecordOnly

end Tracefold
