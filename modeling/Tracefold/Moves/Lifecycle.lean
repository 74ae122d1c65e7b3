import Mathlib.Tactic.Common
import Tracefold.Moves

/-! The operations before a commit move as the engine may. -/

namespace Tracefold.Engine

open Library

theorem deadlineFrom_state {e : Engine} {state : Lifecycle} {since due : Timestamp}
    (h : e.deadlineFrom state since = some due) :
    state = .candidate ∨ state = .verifying ∨ state = .escalated := by
  cases state with
  | candidate => exact .inl rfl
  | verifying => exact .inr (.inl rfl)
  | escalated => exact .inr (.inr rfl)
  | _ => cases h

theorem getElem?_live (s : Sys) (id : TransformationId) (f : Entry → Entry) :
    (s.live id f).engine.table[id]? = s.engine.table[id]?.map f := by
  simp

variable {id : TransformationId} {s : Sys}

theorem mayAbort_of_deadline {due : Timestamp} (h : s.engine.deadline id = some due) :
    MayAbort s id := by
  rw [deadline, Option.orElse_eq_orElse, Option.orElse_eq_or, Option.or_eq_some_iff] at h
  rcases h with hlive | ⟨_, hshadow⟩
  · obtain ⟨entry, hentry, hdue⟩ := Option.bind_eq_some_iff.mp hlive
    exact .due entry hentry (deadlineFrom_state hdue)
  · obtain ⟨state, hstate, hrest⟩ := Option.bind_eq_some_iff.mp hshadow
    obtain ⟨since, _, hdue⟩ := Option.bind_eq_some_iff.mp hrest
    refine .dueShadow ?_
    simpa only [hstate, Option.some.injEq] using deadlineFrom_state hdue

theorem state_unblocked {s s' : Sys} {entry : Entry}
    (hs : s' = s ∨ s' = s.live id (fun entry => { entry with blockedBy := none }))
    (hlive : s.engine.table[id]? = some entry) :
    ∃ now, s'.engine.table[id]? = some now ∧ now.state = entry.state := by
  rcases hs with rfl | rfl
  · exact ⟨entry, hlive, rfl⟩
  · refine ⟨{ entry with blockedBy := none }, ?_, rfl⟩
    rw [getElem?_live, hlive]
    rfl

variable [Canon]

variable {pol : Policy} {ids : TransformationId → Prop} {w : World}

theorem moves_abort {reason : AbortReason} {rollback : Option Rollback} {stamp : Timestamp}
    {Q : Lifecycle → Sys → Prop} (hid : ids id) (hmay : MayAbort s id)
    (h : Q (.aborted reason) ((s.note id (.aborted reason rollback) stamp).live id fun e =>
      { e with rollback := rollback, state := .aborted reason, since := stamp })) :
    Moves pol ids w (abort id reason rollback stamp) s Q :=
  .bind (moves_noteLive hid (.aborted s reason rollback stamp hmay) (.pure h))

theorem moves_expireIfDue {now : Timestamp} {Q : Bool → Sys → Prop} (hid : ids id)
    (h : ∀ due s', s' = s ∨ s' = (s.note id (.aborted .expired none) now).live id (fun e =>
      { e with rollback := none, state := .aborted .expired, since := now }) → Q due s') :
    Moves pol ids w (expireIfDue id now) s Q := by
  refine .bind (moves_self ?_)
  split
  next => exact .pure (h false s (.inl rfl))
  next due hdeadline =>
    split
    next => exact .pure (h false s (.inl rfl))
    next =>
      exact .bind (moves_abort hid (mayAbort_of_deadline hdeadline) (.pure (h true _ (.inr rfl))))

theorem moves_entryOf {Q : Entry → Sys → Prop}
    (h : ∀ entry, s.engine.table[id]? = some entry → Q entry s) :
    Moves pol ids w (entryOf id) s Q :=
  .bind (moves_self (.orThrow h))

theorem moves_submit {intent : Intent} {rngSeed : ℕ} {stamp : Timestamp} (hid : ids id) :
    Moves pol ids w (submit intent rngSeed stamp) s fun _ _ => True := by
  refine .bind (moves_self ?_)
  split
  next => exact .pure trivial
  next hnew => exact .bind (moves_recordThen hid (.drafted s _ _ _ hnew) (.pure trivial))

theorem moves_planShape {intent : Intent} {stamp : Timestamp} {Q : PlanShape → Sys → Prop}
    (hid : ids id)
    (h : ∀ shape s', s'.engine = s.engine → s'.disk = s.disk → shape.Sound w intent →
      Q shape s') : Moves pol ids w (planShape intent stamp) s Q := by
  refine .bind (moves_adapter fun _ => .bind (moves_queryOr hid fun pre hpre => ?_))
  refine .bind (moves_queryOr hid fun delta _ => .bind (moves_queryOr hid fun fp0 _ => ?_))
  refine .bind (.orThrow fun t ht => .pure (h _ _ rfl rfl ?_))
  obtain ⟨hcid, hintent, hsubject, htarget, hdelta, hcontext, hactor, hparents⟩ :=
    Transformation.id_new ht
  exact
    { names := ⟨rfl, hcid.symm, hintent, hdelta⟩
      target_eq := htarget
      parents_eq := hparents
      context_eq := hcontext
      actor_eq := hactor
      subject_eq := hsubject
      pre_read := ⟨_, hpre⟩ }

theorem moves_rehydrate {intent : Intent} {shape : PlanShape} {stamp : Timestamp}
    (hid : ids shape.id) (hsound : shape.Sound w intent)
    (halready : s.engine.plannedAlready (Canon.intent intent) = none)
    (hre : s.engine.rehydrating (Canon.intent intent) shape.id = true) :
    Moves pol ids w (rehydrate (Canon.intent intent) shape stamp) s fun _ _ => True := by
  refine .bind (moves_blobPut hid fun s' he _ _ hblob => .bind (moves_self ?_))
  refine .bind (moves_update hid ?_ (.pure trivial))
  rw [← he] at halready hre
  exact .rehydrated s' intent shape stamp rfl hsound halready hre hblob

theorem moves_planAnew {intent : Intent} {shape : PlanShape} {stamp : Timestamp}
    (hid : ids shape.id) (hsound : shape.Sound w intent)
    (hdraft : Canon.intent intent ∈ s.engine.drafted)
    (halready : s.engine.plannedAlready (Canon.intent intent) = none)
    (hresolved : s.engine.resolvedAlready (Canon.intent intent) shape.id = none)
    (hanew : s.engine.rehydrating (Canon.intent intent) shape.id = false)
    (hpol : pol.plans s.engine shape.id) :
    Moves pol ids w (planAnew intent shape stamp) s fun _ _ => True := by
  refine .bind (moves_self (.bind (moves_noteThen hid ?_ ?_)))
  · exact .planned s intent shape stamp rfl hsound hdraft halready hresolved hanew hpol
  · refine .bind (moves_blobPut hid fun s' he _ _ hblob => .bind (moves_update hid ?_ (.pure trivial)))
    obtain ⟨h, hpre⟩ := hsound.pre_read
    refine .seated s' (plannedBody s.engine intent shape) stamp shape.transformation shape.delta
      shape.fp0 shape.pre ?_ hsound.names rfl rfl rfl ⟨intent, h, rfl, hpre, .inl rfl⟩ hblob
    rw [he]
    exact List.getLast?_concat

theorem moves_plan {intent : Intent} {stamp : Timestamp}
    (hpol : ∀ shape, (planShape intent stamp).answer w s = .ok shape →
      s.engine.plannedAlready (Canon.intent intent) = none →
      s.engine.resolvedAlready (Canon.intent intent) shape.id = none →
      s.engine.rehydrating (Canon.intent intent) shape.id = false → pol.plans s.engine shape.id) :
    Moves pol every w (plan intent stamp) s fun _ _ => True := by
  refine .bind (moves_self (.bind (moves_refuseIf fun hdraft => ?_)))
  have hdraft' := not_not.mp hdraft
  split
  next => exact moves_fail
  next halready =>
    refine .bind (Prog.Traces.with_answer
      (moves_planShape (every_holds Canon.unset) fun _ _ he hd hs => And.intro he (And.intro hd hs))
      fun shape s' hshape hpost => .bind (moves_self ?_))
    obtain ⟨he, _, hsound⟩ := hpost
    split
    next => exact moves_fail
    next hresolved =>
      split
      next hre =>
        exact moves_rehydrate (every_holds _) hsound (by rw [he]; exact halready) hre
      next hanew =>
        have hanew' := Bool.eq_false_iff.mpr hanew
        refine moves_planAnew (every_holds _) hsound (by rw [he]; exact hdraft')
          (by rw [he]; exact halready) hresolved hanew' ?_
        rw [he] at hresolved hanew' ⊢
        exact hpol shape hshape halready hresolved hanew'

theorem moves_firstConflict {kind : SubstrateKind} {delta : PlannedDelta} {mode : EnforcementMode}
    {rows : List (TransformationId × Entry)} {Q : Option TransformationId → Sys → Prop}
    (hid : ids id) (h : ∀ o s', s'.engine = s.engine → (o = none → ∀ row ∈ rows,
      inFlight row.2.state mode = true →
      ∃ h, (w h).commutation kind row.2.delta delta = .ok .commutes) → Q o s') :
    Moves pol ids w (firstConflict kind delta mode rows) s Q := by
  induction rows generalizing s with
  | nil => exact .pure (h none s rfl fun _ _ hrow => nomatch hrow)
  | cons row rest ih =>
    unfold firstConflict
    split
    next =>
      refine .bind (moves_queryOr hid fun answer hanswer => ?_)
      split
      next => exact .pure (h _ _ rfl nofun)
      next =>
        refine ih fun o s' he hclear => h o s' he fun ho other hother hflight => ?_
        rcases List.mem_cons.mp hother with rfl | hrest
        · exact ⟨_, hanswer⟩
        · exact hclear ho other hrest hflight
    next hout =>
      refine ih fun o s' he hclear => h o s' he fun ho other hother hflight => ?_
      rcases List.mem_cons.mp hother with rfl | hrest
      · exact absurd hflight hout
      · exact hclear ho other hrest hflight

omit [Canon] in
theorem inFlight_mode {state : Lifecycle} (h : inFlight state .enforce = true)
    (mode : EnforcementMode) : inFlight state mode = true := by
  cases state <;> first | exact h | cases h

theorem moves_conflictingPredecessor {mode : EnforcementMode}
    {entry : Entry} {Q : Option TransformationId → Sys → Prop} (hid : ids id)
    (hlive : s.engine.table[id]? = some entry)
    (h : ∀ o s', s'.engine = s.engine → (o = none → Unopposed w s.engine id entry) → Q o s') :
    Moves pol ids w (conflictingPredecessor id mode) s Q := by
  refine .bind (moves_self ?_)
  rw [hlive]
  refine .bind (moves_adapter fun _ => moves_firstConflict hid fun o s' he hclear => ?_)
  refine h o s' he fun ho other row hrow hne hsubject hflight => ?_
  refine hclear ho (other, row) (List.mem_filter.mpr ⟨?_, ?_⟩) (inFlight_mode hflight mode)
  · exact Std.ExtTreeMap.mem_toList_iff_getElem?_eq_some.mpr hrow
  · simpa using ⟨hne, hsubject⟩

theorem moves_issueVerdictReceipt [Fact (pol.rules id)] {verdict : Option VerdictSummary} {stamp stamp' : Timestamp}
    {key : KeyId} {note : Note} {Q : Unit → Sys → Prop} (hid : ids id)
    (hlast : s.engine.records.getLast? = some (.about id note stamp'))
    (hkind : note.tallied = some (verdict.map (·.kind)))
    (h : ∀ s', Q () s') : Moves pol ids w (issueVerdictReceipt id verdict stamp key) s Q := by
  refine .bind (moves_self ?_)
  split
  next => exact .pure (h _)
  next =>
    dsimp only
    split
    next => exact moves_fail
    next => exact moves_update hid (.counted s _ note stamp' hlast hkind Fact.out) (h _)

theorem moves_unreachableCollector [Fact (pol.rules id)] {stamp : Timestamp} {key : KeyId} {entry : Entry}
    (hid : ids id) (hlive : s.engine.table[id]? = some entry) (hstate : entry.state = .verifying) :
    Moves pol ids w (unreachableCollector id stamp key) s fun _ _ => True := by
  refine .bind (moves_self ?_)
  split
  next =>
    exact .bind (moves_noteLive hid (.unverified s entry _ stamp hlive hstate) (.pure trivial))
  next =>
    refine .bind (moves_noteLive hid (.opened s entry stamp hlive hstate Fact.out) ?_)
    exact .bind (moves_issueVerdictReceipt hid List.getLast?_concat rfl fun _ => .pure trivial)

theorem moves_gateRuling [Fact (pol.rules id)] {stamp : Timestamp} {key : KeyId} {entry : Entry} (hid : ids id)
    (hlive : s.engine.table[id]? = some entry) (hstate : entry.state = .verifying) :
    Moves pol ids w (gateRuling id stamp key) s fun _ _ => True := by
  refine .bind (moves_entryOf fun _ _ => .bind (moves_query hid ?_))
  split
  next => exact moves_unreachableCollector hid hlive hstate
  next =>
    refine .bind (moves_adapter fun _ => .bind (moves_queryOr hid fun outcome _ => ?_))
    refine .bind (moves_query hid ?_)
    split
    next =>
      exact .bind (moves_noteLive hid (.unverified _ entry _ stamp hlive hstate) (.pure trivial))
    next verdict _ =>
      refine .bind (.orThrow fun digest _ => ?_)
      refine .bind (moves_noteLive hid (.ruled _ entry _ digest stamp hlive hstate Fact.out) ?_)
      exact .bind (moves_issueVerdictReceipt hid List.getLast?_concat rfl fun _ => .pure trivial)

theorem idle_blockedBy (o : Option TransformationId) :
    Entry.Idle fun entry => { entry with blockedBy := o } :=
  ⟨fun _ => by constructor <;> rfl, fun _ _ => rfl, fun _ => rfl⟩

theorem moves_unblock {blockedBy : Option TransformationId} {Q : Unit → Sys → Prop} (hid : ids id)
    (h : ∀ s', s' = s ∨ s' = s.live id (fun entry => { entry with blockedBy := none }) → Q () s') :
    Moves pol ids w (unblock id blockedBy) s Q := by
  refine moves_whenSome (fun blocker _ => ?_) fun _ => h s (.inl rfl)
  refine .bind (moves_self (.bind (moves_refuseIf fun _ => ?_)))
  exact moves_idle hid (idle_blockedBy none) (fun _ _ => .inl) (h _ (.inr rfl))

theorem moves_verify [Fact (pol.rules id)] {stamp : Timestamp} {key : KeyId} {mode : Option EnforcementMode}
    (hid : ids id) : Moves pol ids w (verify id stamp key mode) s fun _ _ => True := by
  refine .bind (moves_self (.bind (moves_expireIfDue hid fun _ s₁ _ => ?_)))
  refine .bind (moves_entryOf fun entry hentry => .bind (moves_refuseIf fun hstate => ?_))
  refine .bind (moves_unblock hid fun s₂ hs₂ => ?_)
  obtain ⟨now, hnow, hsame⟩ := state_unblocked hs₂ hentry
  refine .bind (moves_conflictingPredecessor hid hnow fun blocker s₃ he hclear => ?_)
  rw [← he] at hnow hclear
  split
  next => exact .bind (moves_idle hid (idle_blockedBy _) (fun _ _ => .inl) (.pure trivial))
  next =>
    refine .bind (moves_noteLive hid
      (.verifyStarted s₃ now stamp hnow (hsame.trans (not_not.mp hstate)) (hclear rfl)) ?_)
    have hverifying : ((s₃.note id .verifyStarted stamp).live id
        (Entry.at .verifying stamp)).engine.table[id]? = some (Entry.at .verifying stamp now) := by
      rw [getElem?_live]
      exact congrArg (Option.map _) hnow
    exact moves_gateRuling hid hverifying rfl

theorem moves_escalation [Fact (pol.rules id)] {ruling : HumanRuling} {stamp : Timestamp} {key : KeyId} (hid : ids id) :
    Moves pol ids w (escalation id ruling stamp key) s fun _ _ => True := by
  refine .bind (moves_expireIfDue hid fun _ s₁ _ => ?_)
  refine .bind (moves_entryOf fun entry hentry => .bind (moves_refuseIf fun hstate => ?_))
  refine .bind (moves_refuseIf fun hdecision => .bind (moves_refuseIf fun _ => ?_))
  refine .bind (moves_noteLive hid
    (.decided s₁ entry ruling stamp hentry (not_not.mp hstate) hdecision Fact.out) ?_)
  exact .bind (moves_issueVerdictReceipt hid List.getLast?_concat rfl fun _ => .pure trivial)

theorem moves_cancel {stamp : Timestamp} (hid : ids id) :
    Moves pol ids w (cancel id stamp) s fun _ _ => True := by
  refine .bind (moves_expireIfDue hid fun _ s₁ _ => .bind (moves_entryOf fun entry hentry => ?_))
  split
  next => exact .pure trivial
  next hstate => exact moves_abort hid (.owner entry hentry (by simp [hstate])) trivial
  next hstate => exact moves_abort hid (.owner entry hentry (by simp [hstate])) trivial
  next hstate => exact moves_abort hid (.owner entry hentry (by simp [hstate])) trivial
  next hstate => exact moves_abort hid (.owner entry hentry (by simp [hstate])) trivial
  next hstate => exact moves_abort hid (.owner entry hentry (by simp [hstate])) trivial
  next => exact moves_fail

theorem moves_reapEach {now : Timestamp} {rows : List TransformationId} :
    Moves pol every w (reapEach now rows) s fun _ _ => True := by
  induction rows generalizing s with
  | nil => exact .pure trivial
  | cons row rest ih =>
    refine .bind (moves_expireIfDue (every_holds row) fun _ _ _ => .bind (ih.mono ?_))
    intro _ _ _
    exact .pure trivial

theorem moves_reap {now : Timestamp} : Moves pol every w (reap now) s fun _ _ => True := by
  refine .bind (moves_self (.bind (moves_reapEach.mono ?_)))
  intro _ _ _
  exact .pure trivial

theorem moves_canonicalize {stamp : Timestamp} {mode : Option EnforcementMode} (hid : ids id)
    (hpol : ∀ entry, s.engine.table[id]? = some entry → entry.state = .denied →
      mode.getD s.engine.config.mode = .recordOnly → pol.carries s.engine id) :
    Moves pol ids w (canonicalize id stamp mode) s fun _ _ => True := by
  refine .bind (moves_expireIfDue hid fun _ s₁ hs₁ => .bind (moves_entryOf fun entry hentry => ?_))
  split
  next => exact .pure trivial
  next =>
    refine .bind (moves_self (.bind (moves_refuseIf fun hstate => ?_)))
    have hstate' : entry.state = .admitted ∨ entry.state = .denied :=
      (not_not.mp hstate).imp_right And.left
    refine .bind (moves_queryOr hid fun _ _ => .bind (moves_refuseIf fun _ => ?_))
    have hcarries : entry.state = .denied → pol.carries s₁.engine id := by
      intro hdenied
      have hmode : mode.getD s₁.engine.config.mode = .recordOnly := by
        rcases not_not.mp hstate with hadmitted | hrecord
        · rw [hadmitted] at hdenied
          cases hdenied
        · exact hrecord.2
      rcases hs₁ with rfl | rfl
      · exact hpol entry hentry hdenied hmode
      · rw [getElem?_live] at hentry
        obtain ⟨before, _, rfl⟩ := Option.map_eq_some_iff.mp hentry
        cases hdenied
    exact .bind (moves_noteLive hid
      (.canonicalized _ entry _ stamp hentry hstate' rfl hcarries) (.pure trivial))

end Tracefold.Engine
