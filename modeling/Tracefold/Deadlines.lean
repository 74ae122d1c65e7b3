import Mathlib.Tactic.Common
import Tracefold.Handlers
import Tracefold.Mirror
import Tracefold.Shadow

/-! The deadline of a live row against the deadline the journal gives it. -/

namespace Tracefold

open Library Engine
open Std (ExtTreeMap)

/-- The states a deadline reaches. -/
def Lifecycle.expires : Lifecycle → Bool
  | .candidate => true
  | .verifying => true
  | .escalated => true
  | _ => false

theorem SigmaShadow.state_fold_ne (shadow : SigmaShadow) {id other : TransformationId} (n : Note)
    (t : Timestamp) (h : id ≠ other) :
    (shadow.fold (.about id n t)).state other = shadow.state other := by
  rw [SigmaShadow.state, rows_fold, if_neg h]
  rfl

/-- The clock of a transformation moves when its state does. -/
theorem SigmaShadow.since_fold (shadow : SigmaShadow) (id : TransformationId) (n : Note)
    (t : Timestamp) (other : TransformationId) :
    (shadow.fold (.about id n t)).since[other]? =
      if id = other ∧ n.next (shadow.state id) ≠ shadow.state id then some t
      else shadow.since[other]? := by
  have hnext : ((shadow.rowOr id).absorb n).state = n.next (shadow.state id) := by
    have hstate := shadow.state_fold id n t
    rw [SigmaShadow.state, rows_fold, if_pos rfl] at hstate
    exact hstate
  rw [← hnext]
  dsimp only [SigmaShadow.fold]
  by_cases hmoved : ((shadow.rowOr id).absorb n).state = shadow.state id
  · rw [if_neg (not_not.mpr hmoved), if_neg (fun hboth => hboth.2 hmoved)]
  · rw [if_pos hmoved, ExtTreeMap.getElem?_insert]
    by_cases hne : id = other
    · rw [if_pos (by simpa using hne), if_pos ⟨hne, hmoved⟩]
    · rw [if_neg (by simpa using hne), if_neg (fun hboth => hne hboth.1)]

theorem Note.next_ne_none {n : Note} {state : Option Lifecycle} (h : state ≠ none) :
    n.next state ≠ none := by
  cases n with
  | provenanceDerived | inverseEscrowed | applyStarted | applyObserved | inverseCompleted => exact h
  | _ => nofun

theorem SigmaShadow.state_ne_none_fold (shadow : SigmaShadow) (r : Record)
    {id : TransformationId} (h : shadow.state id ≠ none) : (shadow.fold r).state id ≠ none := by
  cases r with
  | draftCreated => exact h
  | about t n stamp =>
    by_cases hne : t = id
    · subst hne
      rw [state_fold]
      exact Note.next_ne_none h
    · rw [state_fold_ne shadow n stamp hne]
      exact h

theorem SigmaShadow.state_ne_none_foldl {shadow : SigmaShadow} {records : List Record}
    {id : TransformationId} (h : shadow.state id ≠ none) :
    (records.foldl fold shadow).state id ≠ none := by
  induction records generalizing shadow with
  | nil => exact h
  | cons r rest ih => exact ih (shadow.state_ne_none_fold r h)

theorem SigmaShadow.since_ofRecords (records : List Record) {id : TransformationId}
    (h : (ofRecords records).state id ≠ none) : (ofRecords records).since[id]? ≠ none := by
  induction records using List.reverseRecOn with
  | nil =>
    rw [SigmaShadow.state_ofRecords] at h
    exact absurd rfl h
  | append_singleton records r ih =>
    rw [ofRecords_append] at h ⊢
    cases r with
    | draftCreated => exact ih h
    | about t n stamp =>
      rw [since_fold]
      split
      next => nofun
      next hsame =>
        apply ih
        by_cases hne : t = id
        · subst hne
          rw [state_fold] at h
          rw [← not_not.mp fun hmoved => hsame ⟨rfl, hmoved⟩]
          exact h
        · rw [state_fold_ne _ n stamp hne] at h
          exact h

section Clock

variable [Canon]

/-- A live row is the row the journal has of its transformation, in a state it came to when the
journal says. -/
structure Entry.InTime (shadow : SigmaShadow) (id : TransformationId) (entry : Entry) : Prop where
  names : entry.transformation.Names id entry.intentId entry.delta
  state : entry.state.expires = true → shadow.state id = some entry.state
  since : entry.state.expires = true → shadow.since[id]? = some entry.since

/-- Every live row a deadline reaches has the clock of the journal. -/
structure InTime (e : Engine) : Prop where
  journal : ShadowInStep e
  resolved : ∀ i id, id ∈ e.resolvedAll i → e.shadow.state id ≠ none
  rows : ∀ (id : TransformationId) entry, e.table[id]? = some entry → entry.InTime e.shadow id

namespace Entry.InTime

variable {shadow : SigmaShadow} {id : TransformationId} {entry : Entry}

theorem kept (h : entry.InTime shadow id) {r : Record} (hr : ∀ n t, r ≠ .about id n t) :
    entry.InTime (shadow.fold r) id := by
  cases r with
  | draftCreated => exact ⟨h.names, h.state, h.since⟩
  | about other n t =>
    have hne : other ≠ id := by
      rintro rfl
      exact hr n t rfl
    refine ⟨h.names, fun hexpires => ?_, fun hexpires => ?_⟩
    · rw [shadow.state_fold_ne n t hne]
      exact h.state hexpires
    · rw [shadow.since_fold, if_neg fun hboth => hne hboth.1]
      exact h.since hexpires

theorem kept_foldl {records : List Record} (h : entry.InTime shadow id)
    (hr : ∀ n t, .about id n t ∉ records) : entry.InTime (records.foldl SigmaShadow.fold shadow) id := by
  induction records generalizing shadow with
  | nil => exact h
  | cons r rest ih =>
    apply ih
    · exact h.kept fun n t heq => hr n t (heq ▸ List.mem_cons_self)
    · exact fun n t hmem => hr n t (List.mem_cons_of_mem _ hmem)

end Entry.InTime

namespace InTime

variable {e e' : Engine}

/-- A row of the table and the journal give the same deadline. -/
theorem deadline (h : InTime e) {id : TransformationId} {entry : Entry}
    (hentry : e.table[id]? = some entry) (hexpires : entry.state.expires = true) :
    e.deadlineFrom entry.state entry.since = e.shadowDeadline id := by
  have hrow := h.rows id entry hentry
  rw [shadowDeadline, hrow.state hexpires, hrow.since hexpires]
  rfl

theorem openThrough (config : Config) (disk : Disk) :
    InTime (Engine.openThrough config disk) := by
  refine ⟨.openThrough config disk, fun i id hid => ?_, fun id entry hentry => ?_⟩
  · obtain ⟨body, t, hmem, _⟩ := mem_resolutionsOf.mp hid
    have hne := stateOf?_ne_none_of_planned (mem_notesOf.mpr ⟨t, hmem⟩)
    rwa [← SigmaShadow.state_ofRecords] at hne
  · have hnone : (Engine.openThrough config disk).table[id]? = none := ExtTreeMap.getElem?_empty
    rw [hnone] at hentry
    cases hentry

theorem catchUp (h : InTime e) (disk : Disk) : InTime (e.catchUp disk) := by
  refine ⟨h.journal.catchUp disk, fun i id hmem => ?_, fun id entry hentry => ?_⟩
  · rw [resolvedAll, resolved_catchUp] at hmem
    rw [shadow_catchUp]
    exact SigmaShadow.state_ne_none_foldl (h.resolved i id hmem)
  · rw [table_catchUp] at hentry
    obtain ⟨hlive, hstays⟩ := getElem?_dropped hentry
    rw [shadow_catchUp]
    refine (h.rows id entry hlive).kept_foldl fun n t hmem => hstays ?_
    have hheld : id ∈ e.table := ExtTreeMap.mem_iff_isSome_getElem?.mpr (by rw [hlive]; rfl)
    exact mem_evicted hheld hmem

theorem noted {id : TransformationId} {n : Note} {t : Timestamp} (h : InTime e)
    (hrecords : e'.records = e.records ++ [.about id n t])
    (hshadow : e'.shadow = e.shadow.fold (.about id n t))
    (hresolved : ∀ i other, other ∈ e'.resolvedAll i →
      other ∈ e.resolvedAll i ∨ other = id ∧ n.next (e.shadow.state id) ≠ none)
    (hothers : ∀ other : TransformationId, id ≠ other → e'.table[other]? = e.table[other]?)
    (hrow : ∀ entry, e'.table[id]? = some entry → entry.InTime e'.shadow id) : InTime e' := by
  refine ⟨?_, fun i other hmem => ?_, fun other entry hentry => ?_⟩
  · rw [ShadowInStep, hshadow, hrecords, SigmaShadow.ofRecords_append, ← h.journal]
  · rw [hshadow]
    rcases hresolved i other hmem with hold | ⟨rfl, hnext⟩
    · exact e.shadow.state_ne_none_fold _ (h.resolved i other hold)
    · rw [SigmaShadow.state_fold]
      exact hnext
  · by_cases hne : id = other
    · subst hne
      exact hrow entry hentry
    · rw [hothers other hne] at hentry
      rw [hshadow]
      refine (h.rows other entry hentry).kept fun n' t' heq => hne ?_
      cases heq
      rfl

variable {s : Sys} {id : TransformationId} {n : Note} {t : Timestamp} {entry : Entry}
  {f : Entry → Entry}

theorem noteLive (h : InTime s.engine)
    (hbody : ∀ entry : Entry, (f entry).transformation = entry.transformation ∧
      (f entry).intentId = entry.intentId ∧ (f entry).delta = entry.delta)
    (hf : ∀ entry, s.engine.table[id]? = some entry → (f entry).state.expires = true →
      n.next (some entry.state) = some (f entry).state ∧ entry.state.expires = true ∧
        entry.state ≠ (f entry).state ∧ (f entry).since = t) :
    InTime ((s.note id n t).live id f).engine := by
  refine h.noted (n := n) (t := t) rfl rfl (fun _ _ hmem => .inl hmem)
    (fun other hne => getElem?_modify_ne hne) fun entry' hentry' => ?_
  rw [getElem?_live] at hentry'
  obtain ⟨entry, hentry, rfl⟩ := Option.map_eq_some_iff.mp hentry'
  have hrow := h.rows id entry hentry
  obtain ⟨ht, hi, hd⟩ := hbody entry
  refine ⟨?_, fun hexpires => ?_, fun hexpires => ?_⟩
  · rw [ht, hi, hd]
    exact hrow.names
  · obtain ⟨hnext, hbefore, _, _⟩ := hf entry hentry hexpires
    refine (s.engine.shadow.state_fold id n t).trans ?_
    rw [hrow.state hbefore, hnext]
  · obtain ⟨hnext, hbefore, hmoved, hsince⟩ := hf entry hentry hexpires
    refine (s.engine.shadow.since_fold id n t id).trans ?_
    rw [hrow.state hbefore, hnext, if_pos ⟨rfl, fun heq => hmoved (Option.some.inj heq).symm⟩,
      hsince]

theorem noteOut (h : InTime s.engine)
    (hbody : ∀ entry : Entry, (f entry).transformation = entry.transformation ∧
      (f entry).intentId = entry.intentId ∧ (f entry).delta = entry.delta)
    (hf : ∀ entry : Entry, (f entry).state.expires = false) :
    InTime ((s.note id n t).live id f).engine := by
  apply h.noteLive hbody
  intro entry _ hexpires
  rw [hf] at hexpires
  cases hexpires

theorem live (h : InTime s.engine)
    (hbody : ∀ entry : Entry, (f entry).transformation = entry.transformation ∧
      (f entry).intentId = entry.intentId ∧ (f entry).delta = entry.delta)
    (hf : ∀ entry : Entry, (f entry).state = entry.state ∧ (f entry).since = entry.since) :
    InTime (s.live id f).engine := by
  refine ⟨h.journal, h.resolved, fun other entry' hentry' => ?_⟩
  by_cases hne : id = other
  · subst hne
    rw [getElem?_live] at hentry'
    obtain ⟨entry, hentry, rfl⟩ := Option.map_eq_some_iff.mp hentry'
    have hrow := h.rows id entry hentry
    obtain ⟨ht, hi, hd⟩ := hbody entry
    obtain ⟨hstate, hsince⟩ := hf entry
    refine ⟨?_, ?_, ?_⟩
    · rw [ht, hi, hd]
      exact hrow.names
    · rw [hstate]
      exact hrow.state
    · rw [hstate, hsince]
      exact hrow.since
  · refine h.rows other entry' ?_
    rw [← hentry']
    exact (getElem?_modify_ne hne).symm

theorem draft (h : InTime s.engine) (intentId : IntentId) (rngSeed : ℕ) (stamp : Timestamp) :
    InTime ((s.record (.draftCreated intentId rngSeed stamp)).withEngine fun e =>
      { e with drafted := e.drafted.insert intentId rngSeed }).engine := by
  refine ⟨?_, h.resolved, fun id entry hentry => ?_⟩
  · have hjournal := congrArg (SigmaShadow.fold · (.draftCreated intentId rngSeed stamp)) h.journal
    exact hjournal.trans (SigmaShadow.ofRecords_append _ _).symm
  · have hrow := h.rows id entry hentry
    exact ⟨hrow.names, hrow.state, hrow.since⟩

theorem blockedBy (h : InTime s.engine) (o : Option TransformationId) :
    InTime (s.live id fun entry => { entry with blockedBy := o }).engine :=
  h.live (fun _ => ⟨rfl, rfl, rfl⟩) fun _ => ⟨rfl, rfl⟩

theorem seated (h : InTime s.engine) {entry : Entry}
    (hentry : entry.InTime s.engine.shadow id) :
    InTime { s.engine with table := s.engine.table.insert id entry } := by
  refine ⟨h.journal, h.resolved, fun other entry' hentry' => ?_⟩
  have hinsert := ExtTreeMap.getElem?_insert.symm.trans hentry'
  split at hinsert
  next heq =>
    obtain rfl : id = other := by simpa using heq
    obtain rfl := Option.some.inj hinsert
    exact hentry
  next => exact h.rows other entry' hinsert

theorem rehydrated (h : InTime s.engine) {intentId : IntentId} {shape : PlanShape}
    (hnames : shape.transformation.Names shape.id intentId shape.delta)
    (hresolved : s.engine.shadow.state shape.id ≠ none) (stamp : Timestamp) :
    (Entry.rehydrated intentId shape ((reconstruct s.engine.records).stateOf shape.id)
      (s.engine.shadow.since[shape.id]?.getD stamp)).InTime s.engine.shadow shape.id := by
  obtain ⟨hstate, ht, hi, hd⟩ := state_rehydrated intentId shape
    ((reconstruct s.engine.records).stateOf shape.id)
    (s.engine.shadow.since[shape.id]?.getD stamp)
  have hjournal : s.engine.shadow.state shape.id = s.engine.journalState shape.id := by
    rw [h.journal, SigmaShadow.state_ofRecords, Engine.journalState_eq, Engine.notes]
  obtain ⟨state, hsome⟩ := Option.ne_none_iff_exists'.mp hresolved
  have hclock : s.engine.shadow.since[shape.id]? ≠ none := by
    rw [h.journal] at hresolved ⊢
    exact SigmaShadow.since_ofRecords _ hresolved
  obtain ⟨since, hsince⟩ := Option.ne_none_iff_exists'.mp hclock
  refine ⟨?_, fun _ => ?_, fun _ => ?_⟩
  · rw [ht, hi, hd]
    exact hnames
  · rw [hstate, ← Engine.journalState, ← hjournal, hsome]
    rfl
  · rw [hsince]
    cases (reconstruct s.engine.records).stateOf shape.id <;> rfl

end InTime

/-- The program leaves live rows with the clock of the journal, and an answer satisfies `Q`. -/
abbrev KeepsTime {α : Type} (w : World) (x : M α) (s : Sys) (Q : α → Sys → Prop) : Prop :=
  Prog.Ends w x s (fun s => InTime s.engine) Q

namespace Engine

variable {w : World} {s : Sys} {id : TransformationId}

theorem keepsTime_noteThen {n : Note} {stamp : Timestamp} {f : Entry → Entry}
    {Q : Unit → Sys → Prop} (h : InTime s.engine)
    (hQ : Q () ((s.note id n stamp).live id f)) :
    KeepsTime w (noteThen id n stamp (onEntry id f)) s Q :=
  ends_noteThen_any (fun _ => h) (fun _ => h) fun _ => hQ

theorem keepsTime_submit {intent : Intent} {rngSeed : ℕ} {stamp : Timestamp}
    (h : InTime s.engine) :
    KeepsTime w (submit intent rngSeed stamp) s fun _ s' => InTime s'.engine := by
  refine .bind (ends_self (.ite (fun _ => .pure h) fun _ => ?_))
  exact .bind (ends_appendThen_any (fun _ => h) (fun _ => h) fun _ => .pure (h.draft _ _ _))

theorem keepsTime_abort {reason : AbortReason} {rollback : Option Rollback} {stamp : Timestamp}
    {Q : Lifecycle → Sys → Prop} (h : InTime s.engine)
    (hQ : ∀ s', InTime s'.engine → Q (.aborted reason) s') :
    KeepsTime w (abort id reason rollback stamp) s Q := by
  refine .bind (keepsTime_noteThen h (.pure (hQ _ ?_)))
  exact h.noteOut (fun _ => ⟨rfl, rfl, rfl⟩) fun _ => rfl

theorem keepsTime_expireIfDue {now : Timestamp} {Q : Bool → Sys → Prop} (h : InTime s.engine)
    (hQ : ∀ due s', InTime s'.engine → Q due s') : KeepsTime w (expireIfDue id now) s Q := by
  refine .bind (ends_self ?_)
  split
  next => exact .pure (hQ false s h)
  next =>
    refine .ite (fun _ => .pure (hQ false s h)) fun _ => .bind (keepsTime_abort h fun s' h' => ?_)
    exact .pure (hQ true s' h')

theorem keepsTime_reapEach {now : Timestamp} {ids : List TransformationId}
    {Q : List TransformationId → Sys → Prop} (h : InTime s.engine)
    (hQ : ∀ out s', InTime s'.engine → Q out s') : KeepsTime w (reapEach now ids) s Q := by
  induction ids generalizing s Q with
  | nil => exact .pure (hQ [] s h)
  | cons id rest ih =>
    refine .bind (keepsTime_expireIfDue h fun due s₁ h₁ => ?_)
    exact .bind (ih h₁ fun out s₂ h₂ => .pure (hQ _ s₂ h₂))

theorem keepsTime_reap {now : Timestamp} (h : InTime s.engine) :
    KeepsTime w (reap now) s fun _ s' => InTime s'.engine :=
  .bind (ends_self (.bind (keepsTime_reapEach h fun _ _ h' => .pure h')))

theorem keepsTime_entryOf {Q : Entry → Sys → Prop} (h : InTime s.engine)
    (hQ : ∀ entry, s.engine.table[id]? = some entry → Q entry s) :
    KeepsTime w (entryOf id) s Q :=
  .bind (ends_self (.orThrow (fun _ => h) hQ))

theorem keepsTime_cancel {stamp : Timestamp} (h : InTime s.engine) :
    KeepsTime w (cancel id stamp) s fun _ s' => InTime s'.engine := by
  refine .bind (keepsTime_expireIfDue h fun _ s₁ h₁ => ?_)
  refine .bind (keepsTime_entryOf h₁ fun entry hentry => ?_)
  have habort : KeepsTime w (abort id .ownerCancelled none stamp) s₁ fun _ s' => InTime s'.engine :=
    keepsTime_abort h₁ fun _ h' => h'
  split
  next => exact .pure h₁
  next => exact habort
  next => exact habort
  next => exact habort
  next => exact habort
  next => exact habort
  next => exact ends_fail h₁

theorem keepsTime_issueVerdictReceipt {verdict : Option VerdictSummary} {stamp : Timestamp}
    {key : KeyId} {Q : Unit → Sys → Prop} (h : InTime s.engine)
    (hQ : ∀ s', InTime s'.engine → Q () s') :
    KeepsTime w (issueVerdictReceipt id verdict stamp key) s Q := by
  refine .bind (ends_self ?_)
  split
  next => exact .pure (hQ s h)
  next =>
    dsimp only
    split
    next => exact ends_fail h
    next => exact ends_update (hQ _ ⟨h.journal, h.resolved, h.rows⟩)

theorem keepsTime_escalation {ruling : HumanRuling} {stamp : Timestamp} {key : KeyId}
    (h : InTime s.engine) :
    KeepsTime w (escalation id ruling stamp key) s fun _ s' => InTime s'.engine := by
  refine .bind (keepsTime_expireIfDue h fun _ s₁ h₁ => ?_)
  refine .bind (keepsTime_entryOf h₁ fun entry hentry => ?_)
  refine .bind (ends_refuseIf (fun _ => h₁) fun hstate => ?_)
  refine .bind (ends_refuseIf (fun _ => h₁) fun hdecision => ?_)
  refine .bind (ends_refuseIf (fun _ => h₁) fun _ => .bind (keepsTime_noteThen h₁ ?_))
  refine .bind (keepsTime_issueVerdictReceipt (h₁.noteOut (fun _ => ⟨rfl, rfl, rfl⟩) fun _ => ?_)
    fun s' h' => .pure h')
  change (stateOfVerdict ruling.decision).expires = false
  cases hkind : ruling.decision with
  | Admit => rfl
  | Deny => rfl
  | Escalate => exact absurd hkind hdecision

theorem keepsTime_canonicalize {stamp : Timestamp} {mode : Option EnforcementMode}
    (h : InTime s.engine) :
    KeepsTime w (canonicalize id stamp mode) s fun _ s' => InTime s'.engine := by
  refine .bind (keepsTime_expireIfDue h fun _ s₁ h₁ => ?_)
  refine .bind (keepsTime_entryOf h₁ fun entry hentry => ?_)
  refine .ite (fun _ => .pure h₁) fun _ => .bind (ends_self ?_)
  refine .bind (ends_refuseIf (fun _ => h₁) fun hstate => ?_)
  refine .bind (ends_queryOr h₁ fun bytes _ => ?_)
  refine .bind (ends_refuseIf (fun _ => h₁) fun _ => ?_)
  refine .bind (keepsTime_noteThen (s := s₁.push .asked) h₁ (.pure ?_))
  exact h₁.noteOut (s := s₁.push .asked) (fun _ => ⟨rfl, rfl, rfl⟩) fun _ => rfl

theorem keepsTime_unreachableCollector {stamp : Timestamp} {key : KeyId} (h : InTime s.engine) :
    KeepsTime w (unreachableCollector id stamp key) s fun _ s' => InTime s'.engine := by
  refine .bind (ends_self ?_)
  split
  next =>
    refine .bind (keepsTime_noteThen h (.pure ?_))
    exact h.noteOut (fun _ => ⟨rfl, rfl, rfl⟩) fun _ => rfl
  next =>
    refine .bind (keepsTime_noteThen h (.bind (keepsTime_issueVerdictReceipt ?_ fun _ h' => .pure h')))
    exact h.noteOut (fun _ => ⟨rfl, rfl, rfl⟩) fun _ => rfl

theorem keepsTime_gateRuling {stamp : Timestamp} {key : KeyId} (h : InTime s.engine)
    (hstate : ∀ entry, s.engine.table[id]? = some entry → entry.state = .verifying) :
    KeepsTime w (gateRuling id stamp key) s fun _ s' => InTime s'.engine := by
  refine .bind (keepsTime_entryOf h fun entry hentry => .bind (ends_query ?_))
  split
  next => exact keepsTime_unreachableCollector (s := s.push .asked) h
  next =>
    refine .bind (ends_adapter h fun _ => .bind (ends_queryOr h fun outcome _ => ?_))
    refine .bind (ends_query ?_)
    split
    next =>
      refine .bind (keepsTime_noteThen (s := ((s.push .asked).push .asked).push .asked) h (.pure ?_))
      exact h.noteOut (s := ((s.push .asked).push .asked).push .asked) (fun _ => ⟨rfl, rfl, rfl⟩)
        fun _ => rfl
    next verdict _ =>
      refine .bind (.orThrow (fun _ => h) fun digest _ => ?_)
      refine .bind (keepsTime_noteThen (s := ((s.push .asked).push .asked).push .asked) h ?_)
      refine .bind (keepsTime_issueVerdictReceipt ?_ fun s' h' => .pure h')
      apply h.noteLive (s := ((s.push .asked).push .asked).push .asked)
      · exact fun _ => ⟨rfl, rfl, rfl⟩
      · intro now hnow hexpires
        have hverifying := hstate now hnow
        have hmoved : now.state ≠ stateOfVerdict verdict.kind := by
          rw [hverifying]
          exact (stateOfVerdict_late _).2.symm
        exact ⟨rfl, by rw [hverifying]; rfl, hmoved, rfl⟩

theorem keepsTime_firstConflict {kind : SubstrateKind} {delta : PlannedDelta}
    {mode : EnforcementMode} {rows : List (TransformationId × Entry)}
    {Q : Option TransformationId → Sys → Prop} (h : InTime s.engine)
    (hQ : ∀ blocker s', s'.engine = s.engine → Q blocker s') :
    KeepsTime w (firstConflict kind delta mode rows) s Q := by
  induction rows generalizing s with
  | nil => exact .pure (hQ none s rfl)
  | cons row rest ih =>
    refine .ite (fun _ => .bind (ends_queryOr h fun answer _ => ?_)) fun _ => ih h hQ
    split
    next => exact .pure (hQ _ _ rfl)
    next => exact ih h fun blocker s' he => hQ blocker s' he

theorem keepsTime_conflictingPredecessor {mode : EnforcementMode}
    {Q : Option TransformationId → Sys → Prop} (h : InTime s.engine)
    (hQ : ∀ blocker s', s'.engine = s.engine → Q blocker s') :
    KeepsTime w (conflictingPredecessor id mode) s Q := by
  refine .bind (ends_self ?_)
  split
  next => exact .pure (hQ none s rfl)
  next => exact .bind (ends_adapter h fun _ => keepsTime_firstConflict h hQ)

theorem keepsTime_unblock {blockedBy : Option TransformationId} {Q : Unit → Sys → Prop}
    (h : InTime s.engine)
    (hQ : ∀ s', InTime s'.engine → s'.engine.table[id]?.map (·.state) =
      s.engine.table[id]?.map (·.state) → Q () s') :
    KeepsTime w (unblock id blockedBy) s Q := by
  refine ends_whenSome (fun blocker _ => ?_) fun _ => hQ s h rfl
  refine .bind (ends_self (.bind (ends_refuseIf (fun _ => h) fun _ => ?_)))
  refine ends_modifyEntry (hQ _ (h.blockedBy none) ?_)
  rw [getElem?_live, Option.map_map]
  rfl

theorem keepsTime_verify {stamp : Timestamp} {key : KeyId} {mode : Option EnforcementMode}
    (h : InTime s.engine) :
    KeepsTime w (verify id stamp key mode) s fun _ s' => InTime s'.engine := by
  refine .bind (ends_self (.bind (keepsTime_expireIfDue h fun _ s₁ h₁ => ?_)))
  refine .bind (keepsTime_entryOf h₁ fun entry hentry => ?_)
  refine .bind (ends_refuseIf (fun _ => h₁) fun hstate => ?_)
  refine .bind (keepsTime_unblock h₁ fun s₂ h₂ hlive₂ => ?_)
  refine .bind (keepsTime_conflictingPredecessor h₂ fun blocker s₃ he₃ => ?_)
  rw [← he₃] at h₂ hlive₂
  split
  next => exact .bind (ends_modifyEntry (.pure (h₂.blockedBy _)))
  next =>
    have hcandidate : ∀ now, s₃.engine.table[id]? = some now → now.state = .candidate := by
      intro now hnow
      rw [hnow, hentry, Option.map_some, Option.map_some, not_not.mp hstate] at hlive₂
      exact Option.some.inj hlive₂
    refine .bind (keepsTime_noteThen h₂ (keepsTime_gateRuling ?_ fun now hnow => ?_))
    · apply h₂.noteLive
      · exact fun _ => ⟨rfl, rfl, rfl⟩
      · intro now hnow _
        rw [hcandidate now hnow]
        exact ⟨rfl, rfl, nofun, rfl⟩
    · rw [getElem?_live] at hnow
      obtain ⟨before, _, rfl⟩ := Option.map_eq_some_iff.mp hnow
      rfl

/-- What `plan` journals anew does not name a transformation that the journal has waiting as a
candidate since another time. -/
def KeepsClock (w : World) (s : Sys) (intent : Intent) (stamp : Timestamp) : Prop :=
  ∀ shape, (planShape intent stamp).answer w s = .ok shape →
    s.engine.plannedAlready (Canon.intent intent) = none →
    s.engine.resolvedAlready (Canon.intent intent) shape.id = none →
    s.engine.rehydrating (Canon.intent intent) shape.id = false →
    s.engine.shadow.state shape.id = some .candidate →
    s.engine.shadow.since[shape.id]? = some stamp

theorem keepsTime_planAnew [Canon.CollisionFree] {intent : Intent} {shape : PlanShape}
    {stamp : Timestamp} (h : InTime s.engine)
    (hnames : shape.transformation.Names shape.id (Canon.intent intent) shape.delta)
    (halready : s.engine.plannedAlready (Canon.intent intent) = none)
    (hclock : s.engine.shadow.state shape.id = some .candidate →
      s.engine.shadow.since[shape.id]? = some stamp) :
    KeepsTime w (planAnew intent shape stamp) s fun _ s' => InTime s'.engine := by
  let s₁ := (s.note shape.id (.planned (plannedBody s.engine intent shape)) stamp).withEngine
    (remembered (Canon.intent intent) shape.id)
  have hstate : s₁.engine.shadow.state shape.id = some .candidate :=
    s.engine.shadow.state_fold shape.id _ stamp
  have hsince := s.engine.shadow.since_fold shape.id
    (.planned (plannedBody s.engine intent shape)) stamp shape.id
  have hnoted : InTime s₁.engine := by
    refine h.noted rfl rfl (fun i other hmem => ?_) (fun _ _ => rfl)
      fun entry hentry => ?_
    · exact (mem_remembered hmem).imp_right fun hid => ⟨hid, nofun⟩
    · have hrow := h.rows shape.id entry hentry
      have hcandidate := candidate_of_plannedAlready halready hentry
        (hrow.names.intent_unique hnames)
      refine ⟨hrow.names, fun _ => ?_, fun hexpires => ?_⟩
      · rw [hcandidate]
        exact hstate
      · have hbefore := hrow.state hexpires
        rw [hcandidate] at hbefore
        refine hsince.trans ?_
        rw [hbefore, if_neg fun hmoved => hmoved.2 rfl]
        exact hrow.since hexpires
  have hfresh : (Entry.fresh (Canon.intent intent) shape.transformation shape.delta shape.fp0
      shape.pre stamp).InTime s₁.engine.shadow shape.id := by
    refine ⟨hnames, fun _ => hstate, fun _ => hsince.trans ?_⟩
    split
    next => rfl
    next hsame =>
      refine hclock (Eq.symm ?_)
      by_contra hmoved
      exact hsame ⟨rfl, hmoved⟩
  refine .bind (ends_self (.bind (ends_noteThen_any (fun _ => h) (fun _ => h) fun _ => ?_)))
  refine .bind (ends_blobPut_still (fun s₂ he₂ _ _ => ?_) fun s₂ he₂ _ _ => ?_)
  · rw [he₂]
    exact hnoted
  · refine .bind (ends_update (.pure ?_))
    refine InTime.seated (s := s₂) ?_ ?_
    · rw [he₂]
      exact hnoted
    · rw [he₂]
      exact hfresh

theorem keepsTime_plan [Canon.CollisionFree] {intent : Intent} {stamp : Timestamp}
    (h : InTime s.engine) (hclock : KeepsClock w s intent stamp) :
    KeepsTime w (plan intent stamp) s fun _ s' => InTime s'.engine := by
  obtain ⟨hdisk, hengine⟩ := planShape_reads intent stamp w s
  have hread : InTime ((planShape intent stamp).final w s).engine := by
    rw [hengine]
    exact h
  refine .bind (ends_self (.bind (ends_refuseIf (fun _ => h) fun _ => ?_)))
  split
  next => exact ends_fail h
  next halready =>
    refine .bind (.of_outcome (fun _ _ => hread) fun shape hshape => .bind (ends_self ?_))
    have hmoves : Moves .any every w (planShape intent stamp) s
        fun shape _ => shape.Sound w intent :=
      moves_planShape (every_holds Canon.unset) fun _ _ _ _ hsound => hsound
    have hsound := hmoves.answer hshape
    rw [hengine]
    split
    next => exact ends_fail hread
    next hresolved =>
      refine .ite (fun hre => ?_) fun hanew => ?_
      · have hlast : s.engine.resolvedLast (Canon.intent intent) = some shape.id := by
          simpa [rehydrating] using (of_decide_eq_true hre).1
        have hne := h.resolved _ shape.id (List.mem_of_getLast? hlast)
        refine .bind (ends_blobPut_still (fun s₂ he₂ _ _ => ?_) fun s₂ he₂ _ _ => ?_)
        · rw [he₂]
          exact hread
        · rw [hengine] at he₂
          refine .bind (ends_self (.bind (ends_update (.pure ?_))))
          rw [← he₂] at h hne
          exact h.seated (h.rehydrated hsound.names hne stamp)
      · have hanew := Bool.eq_false_iff.mpr hanew
        refine keepsTime_planAnew hread hsound.names ?_ ?_
        · rw [hengine]
          exact halready
        · rw [hengine]
          exact hclock shape hshape halready hresolved hanew

end Engine

/-- The operations before a commit. -/
def Engine.Op.early : Op → Bool
  | .submit _ _ _ => true
  | .plan _ _ => true
  | .verify _ _ _ _ => true
  | .escalation _ _ _ _ => true
  | .canonicalize _ _ _ => true
  | .cancel _ _ => true
  | .reap _ => true
  | _ => false

/-- What the process is asked for comes before a commit, and no plan of it journals anew a
transformation that the journal has waiting since another time. -/
def EarlyCall (w : World) (pid : ℕ) (p : Project) (a : Action) : Prop :=
  a.pid = pid → ∀ s op, p.calls a = some (s, op) → op.early = true ∧
    ∀ intent stamp, op = .plan intent stamp → KeepsClock w s intent stamp

theorem keepsTime_exec [Canon.CollisionFree] {w : World} {s : Sys} {op : Op} (h : InTime s.engine)
    (hearly : op.early = true)
    (hclock : ∀ intent stamp, op = .plan intent stamp → KeepsClock w s intent stamp) :
    InTime (op.exec.final w s).engine := by
  have hdiscard : ∀ {α : Type} {x : M α}, KeepsTime w x s (fun _ s' => InTime s'.engine) →
      InTime ((Engine.discard x).final w s).engine := by
    intro α x hx
    have hends : KeepsTime w (Engine.discard x) s fun _ s' => InTime s'.engine :=
      .bind (hx.mono fun _ _ h' => .pure h')
    exact hends.final
  cases op with
  | submit intent rngSeed stamp => exact hdiscard (keepsTime_submit h)
  | plan intent stamp => exact hdiscard (keepsTime_plan h (hclock intent stamp rfl))
  | verify id stamp key mode => exact hdiscard (keepsTime_verify h)
  | escalation id ruling stamp key => exact hdiscard (keepsTime_escalation h)
  | canonicalize id stamp mode => exact hdiscard (keepsTime_canonicalize h)
  | cancel id stamp => exact hdiscard (keepsTime_cancel h)
  | reap now => exact hdiscard (keepsTime_reap h)
  | _ => cases hearly

/-- From the start of a process on, and whatever other processes write, a live row that waits has
the deadline of the journal, in this process and in one just started, as long as no plan journals
it anew at another time while it is a candidate. -/
theorem deadline_is_the_journals [Canon.CollisionFree] {w : World} {p₀ p : Project} {pid : ℕ}
    {config : Config} (h : (p₀.step w (.start pid config)).Reaches w (EarlyCall w pid) p)
    {e : Engine} (he : p.process pid = some e) {id : TransformationId} {entry : Entry}
    (hentry : e.table[id]? = some entry) (hexpires : entry.state.expires = true) :
    e.deadlineFrom entry.state entry.since = e.shadowDeadline id ∧
      ∀ disk : Disk, disk.journal = e.records →
        (Engine.openThrough e.config disk).deadline id = e.deadline id := by
  have htime : InTime e := by
    refine Project.each_process_ops h ?_ (fun p config _ => InTime.openThrough config p.disk)
      (fun p _ e _ _ he => he.catchUp p.disk) ?_ e he
    · intro e he
      rw [Project.step, Project.process_set] at he
      obtain rfl := Option.some.inj he
      exact InTime.openThrough config _
    · intro p a ha hpid s op hcalls hs
      obtain ⟨hearly, hclock⟩ := ha hpid s op hcalls
      exact keepsTime_exec hs hearly hclock
  have hlive := htime.deadline hentry hexpires
  refine ⟨hlive, fun disk hdisk => ?_⟩
  have hshadow : (Engine.openThrough e.config disk).shadow = e.shadow := by
    rw [htime.journal, ← hdisk]
    rfl
  have hempty : (Engine.openThrough e.config disk).table[id]? = none := ExtTreeMap.getElem?_empty
  have hsame : (Engine.openThrough e.config disk).shadowDeadline id = e.shadowDeadline id := by
    rw [shadowDeadline, shadowDeadline, hshadow]
    rfl
  rw [Engine.deadline, Engine.deadline, hempty, hentry, Option.bind_none, Option.bind_some, hlive,
    hsame]
  cases e.shadowDeadline id <;> rfl

end Clock

section Replanned

open Tracefold.Ideal

/-- An intent planned, and planned again while it waits for its verification. -/
def plannedAgain : List Action :=
  [.call 0 (.submit intent 0 0), .call 0 (.plan intent 0), .call 0 (.plan intent 5)]

/-- The second plan restarts the clock of the live row; the clock of the journal goes on from the
first. -/
theorem replanned_deadline_is_not_the_journals :
    ¬ ∀ (w : World) (p₀ p : Project) (e : Engine) (id : TransformationId) (entry : Entry),
      (p₀.step w (.start 0 config)).Reaches w (fun _ a => a.op?.all (·.early)) p →
      p.process 0 = some e → e.table[id]? = some entry → entry.state.expires = true →
      e.deadlineFrom entry.state entry.since = e.shadowDeadline id := by
  intro h
  let p := (Project.empty.step (fun _ => envAt 1) (.start 0 config)).run (fun _ => envAt 1)
    plannedAgain
  have hlive : (p.process 0).bind (fun e => e.table[idAt 1]?.map fun entry =>
      (entry.state, e.deadlineFrom entry.state entry.since, e.shadowDeadline (idAt 1))) =
        some (.candidate, some 1005, some 1000) := by decide
  obtain ⟨e, he, hlive⟩ := Option.bind_eq_some_iff.mp hlive
  obtain ⟨entry, hentry, hvalues⟩ := Option.map_eq_some_iff.mp hlive
  obtain ⟨hstate, hrest⟩ := Prod.mk.inj hvalues
  obtain ⟨hdue, hshadow⟩ := Prod.mk.inj hrest
  have heq := h (fun _ => envAt 1) .empty p e (idAt 1) entry
    (Project.reaches_run fun a ha _ => (by decide : ∀ a ∈ plannedAgain, a.op?.all (·.early)) a ha)
    he hentry (by rw [hstate]; rfl)
  rw [hdue, hshadow] at heq
  cases heq

/-- An escalation, which a human has yet to rule on. -/
def awaiting : List Action :=
  [.call 0 (.submit intent 0 0), .call 0 (.plan intent 0), .call 0 (.verify (idAt 2) 7 "k" none)]

theorem deadline_is_the_journals_escalated :
    ∃ e entry, ((Project.empty.step escalating (.start 0 config)).run escalating awaiting).process
        0 = some e ∧ e.table[idAt 2]? = some entry ∧ entry.state = .escalated ∧
      e.deadlineFrom entry.state entry.since = e.shadowDeadline (idAt 2) := by
  have hlive : (((Project.empty.step escalating (.start 0 config)).run escalating awaiting).process
      0).bind (fun e => e.table[idAt 2]?.map (·.state)) = some .escalated := by decide
  obtain ⟨e, he, hlive⟩ := Option.bind_eq_some_iff.mp hlive
  obtain ⟨entry, hentry, hstate⟩ := Option.map_eq_some_iff.mp hlive
  have hreached : (Project.empty.step escalating (.start 0 config)).Reaches escalating
      (EarlyCall escalating 0)
      ((Project.empty.step escalating (.start 0 config)).run escalating awaiting) := by
    refine Project.Reaches.refl.run ⟨?_, ?_, ?_, trivial⟩
    · intro _ s op hcalls
      cases Project.calls_op hcalls
      refine ⟨rfl, fun intent stamp heq => ?_⟩
      cases heq
    · intro _ s op hcalls
      cases hcalls
      refine ⟨rfl, fun intent stamp heq => ?_⟩
      cases heq
      intro shape _ _ _ _ hcandidate
      cases hcandidate
    · intro _ s op hcalls
      cases Project.calls_op hcalls
      refine ⟨rfl, fun intent stamp heq => ?_⟩
      cases heq
  refine ⟨e, entry, he, hentry, hstate, ?_⟩
  exact (deadline_is_the_journals hreached he hentry (by rw [hstate]; rfl)).1

end Replanned

end Tracefold
