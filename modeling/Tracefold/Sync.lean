import Mathlib.Tactic.Common
import Tracefold.Runs

/-! The table of a process, its shadow and its index of resolutions, against the journal it has
read. -/

namespace Tracefold

open Library Engine
open Std (ExtTreeMap)

/-- The state of a live row against the one the journal gives it: the same, but for a row that a
recovery closed beside the table, and for an undo that was planned again and never seated. -/
inductive Agrees : Lifecycle → Option Lifecycle → Prop where
  | same (state : Lifecycle) : Agrees state (some state)
  | recovered : Agrees .committing (some .committed)
  | unseated (reason : AbortReason) : Agrees (.aborted reason) (some .candidate)

/-- The state the shadow gives a row against the one the journal gives it: T-9 goes past the
shadow. -/
inductive Lags : Option Lifecycle → Option Lifecycle → Prop where
  | same (state : Option Lifecycle) : Lags state state
  | committing : Lags (some .canonicalized) (some .committing)

theorem Lags.next {a b : Option Lifecycle} (h : Lags a b) (n : Note) : Lags (n.next a) (n.next b) := by
  cases n with
  | provenanceDerived | inverseEscrowed | applyStarted | applyObserved | inverseCompleted => exact h
  | _ => exact .same _

theorem Agrees.eq_of_ne {state : Lifecycle} {o : Option Lifecycle} (h : Agrees state o)
    (hc : state ≠ .committing) (ha : ∀ reason, state ≠ .aborted reason) : o = some state := by
  cases h with
  | same => rfl
  | recovered => exact absurd rfl hc
  | unseated reason => exact absurd rfl (ha reason)

theorem Agrees.of_committing {state : Lifecycle} (h : Agrees state (some .committing)) :
    state = .committing := by
  cases h
  rfl

theorem Lags.eq_of_ne {a b : Option Lifecycle} (h : Lags a b) (hc : a ≠ some .canonicalized) :
    b = a := by
  cases h with
  | same => rfl
  | committing => exact absurd rfl hc

theorem Lags.of_canonicalized {o : Option Lifecycle} (h : Lags o (some .canonicalized)) :
    o = some .canonicalized := by
  cases h
  rfl

theorem mem_remembered {e : Engine} {i j : IntentId} {id other : TransformationId}
    (h : other ∈ (remembered i id e).resolved[j]?.getD []) :
    other ∈ e.resolvedAll j ∨ other = id := by
  simp only [remembered, ExtTreeMap.getElem?_insert, Std.compare_eq_iff_eq] at h
  split at h
  next hij =>
    subst hij
    simp only [Option.getD_some] at h
    split at h
    next => exact .inl h
    next => exact (List.mem_append.mp h).imp_right List.mem_singleton.mp
  next => exact .inl h

/-- The index of resolutions that is rebuilt is complete. -/
theorem mem_resolutionsOf {records : List Record} {i : IntentId} {id : TransformationId} :
    id ∈ (resolutionsOf records)[i]?.getD [] ↔
      ∃ body t, .about id (.planned body) t ∈ records ∧ body.intentId = i := by
  induction records using List.reverseRecOn with
  | nil => simp [resolutionsOf]
  | append_singleton records r ih =>
    rw [resolutionsOf, List.foldl_append, ← resolutionsOf, List.foldl_cons, List.foldl_nil]
    cases r with
    | draftCreated => simpa using ih
    | about t n stamp =>
      cases n with
      | planned body =>
        simp only [ExtTreeMap.getElem?_insert, Std.compare_eq_iff_eq, List.mem_append,
          List.mem_singleton, Record.about.injEq, Note.planned.injEq]
        by_cases hi : body.intentId = i
        · subst hi
          rw [if_pos rfl, Option.getD_some]
          split <;> grind
        · rw [if_neg hi]
          grind
      | _ => simpa using ih

theorem stateOf?_ne_none_of_planned {notes : List Note} {body : PlannedBody}
    (h : .planned body ∈ notes) : stateOf? notes ≠ none := by
  induction notes using List.reverseRecOn with
  | nil => cases h
  | append_singleton notes n ih =>
    rw [stateOf?_append]
    rcases List.mem_append.mp h with hbefore | hlast
    · cases n with
      | provenanceDerived | inverseEscrowed | applyStarted | applyObserved | inverseCompleted =>
        exact ih hbefore
      | _ => nofun
    · cases List.mem_singleton.mp hlast
      nofun

theorem candidate_of_plannedAlready {id : TransformationId} {e : Engine} {i : IntentId} {entry : Entry}
    (h : e.plannedAlready i = none) (hentry : e.table[id]? = some entry)
    (hi : entry.intentId = i) : entry.state = .candidate := by
  have hmem : entry ∈ e.table.toList.map Prod.snd :=
    List.mem_map.mpr ⟨(id, entry), ExtTreeMap.mem_toList_iff_getElem?_eq_some.mpr hentry, rfl⟩
  have hnot := List.find?_eq_none.mp h entry hmem
  simpa [hi] using hnot

theorem state_rehydrated (i : IntentId) (shape : PlanShape) (row : Option StateRow)
    (since : Timestamp) :
    (Entry.rehydrated i shape row since).state = (row.bind (·.state)).getD .candidate ∧
    (Entry.rehydrated i shape row since).transformation = shape.transformation ∧
    (Entry.rehydrated i shape row since).intentId = i ∧
    (Entry.rehydrated i shape row since).delta = shape.delta := by
  cases row with
  | none => exact ⟨rfl, rfl, rfl, rfl⟩
  | some row => exact ⟨rfl, rfl, rfl, rfl⟩

theorem undoState_candidate_or_aborted {id : TransformationId} {e : Engine} {i : IntentId} {entry : Entry}
    (hstate : undoState e i id = none ∨
      undoState e i id = some .candidate ∧ id ∉ e.table ∨
      ∃ reason, undoState e i id = some (.aborted reason))
    (hentry : e.table[id]? = some entry) : ∃ reason, entry.state = .aborted reason := by
  have hlive : undoState e i id = some entry.state := by
    simp [undoState, hentry]
  rw [hlive] at hstate
  rcases hstate with hnone | ⟨_, habsent⟩ | ⟨reason, hreason⟩
  · cases hnone
  · exact absurd (ExtTreeMap.mem_iff_isSome_getElem?.mpr (by rw [hentry]; rfl)) habsent
  · exact ⟨reason, Option.some.inj hreason⟩

theorem stateOf?_last {id : TransformationId} {records : List Record} {body : PlannedBody} {t : Timestamp}
    (h : records.getLast? = some (.about id (.planned body) t)) :
    stateOf? (notesOf id records) = some .candidate := by
  obtain ⟨before, rfl⟩ := List.getLast?_eq_some_iff.mp h
  rw [notesOf_append, notesOf_about, stateOf?_append]
  rfl

theorem SigmaShadow.state_fold (shadow : SigmaShadow) (id : TransformationId) (n : Note)
    (t : Timestamp) : (shadow.fold (.about id n t)).state id = n.next (shadow.state id) := by
  rw [SigmaShadow.state, rows_fold, if_pos rfl]
  refine (StateRow.state_absorb _ n).trans (congrArg n.next ?_)
  rw [SigmaShadow.state, SigmaShadow.rowOr]
  cases shadow.rows[id]? <;> rfl

/-- A live row is the row of the transformation it is kept under, in the state of the journal. -/
structure SyncedAt (e : Engine) (id : TransformationId) [Canon] : Prop where
  names : ∀ entry, e.table[id]? = some entry →
    entry.transformation.Names id entry.intentId entry.delta
  state : ∀ entry, e.table[id]? = some entry → Agrees entry.state (stateOf? (e.notes id))
  shadow : Lags (e.shadow.state id) (stateOf? (e.notes id))

structure Synced (e : Engine) [Canon] : Prop where
  row : ∀ id, SyncedAt e id
  resolved : ∀ i id, id ∈ e.resolvedAll i → stateOf? (e.notes id) ≠ none

variable [Canon]

namespace SyncedAt

variable {e e' : Engine} {id : TransformationId}

theorem change (h : SyncedAt e id) (f : Entry → Entry)
    (htable : e'.table[id]? = e.table[id]?.map f)
    (hf : ∀ entry : Entry, (f entry).transformation = entry.transformation ∧
      (f entry).intentId = entry.intentId ∧ (f entry).delta = entry.delta)
    (hstate : ∀ entry, e.table[id]? = some entry → Agrees (f entry).state (stateOf? (e'.notes id)))
    (hshadow : Lags (e'.shadow.state id) (stateOf? (e'.notes id))) : SyncedAt e' id := by
  refine ⟨fun entry hentry => ?_, fun entry hentry => ?_, hshadow⟩
  · rw [htable] at hentry
    obtain ⟨before, hbefore, rfl⟩ := Option.map_eq_some_iff.mp hentry
    obtain ⟨ht, hi, hd⟩ := hf before
    rw [ht, hi, hd]
    exact h.names before hbefore
  · rw [htable] at hentry
    obtain ⟨before, hbefore, rfl⟩ := Option.map_eq_some_iff.mp hentry
    exact hstate before hbefore

theorem same (h : SyncedAt e id) (htable : e'.table[id]? = e.table[id]?)
    (hnotes : e'.notes id = e.notes id) (hshadow : e'.shadow.state id = e.shadow.state id) :
    SyncedAt e' id := by
  refine ⟨?_, ?_, ?_⟩
  · rw [htable]
    exact h.names
  · rw [htable, hnotes]
    exact h.state
  · rw [hshadow, hnotes]
    exact h.shadow

end SyncedAt

variable {pol : Policy} {w : World} {id : TransformationId} {s s' : Sys}

theorem SyncedAt.noted (h : SyncedAt s.engine id) {n : Note} {t : Timestamp} {state : Lifecycle}
    {f : Entry → Entry} (hn : ∀ o, n.next o = some state)
    (hf : ∀ entry : Entry, (f entry).transformation = entry.transformation ∧
      (f entry).intentId = entry.intentId ∧ (f entry).delta = entry.delta)
    (hstate : ∀ entry : Entry, (f entry).state = state) :
    SyncedAt ((s.note id n t).live id f).engine id := by
  have hnotes : stateOf? (((s.note id n t).live id f).engine.notes id) = some state := by
    refine (congrArg stateOf? (Sys.notes_note s id n t)).trans ?_
    rw [stateOf?_append, hn]
  refine h.change f (getElem?_live (s.note id n t) id f) hf (fun entry _ => ?_) ?_
  · rw [hnotes, hstate]
    exact .same state
  · rw [hnotes]
    have hshadow := SigmaShadow.state_fold s.engine.shadow id n t
    rw [hn] at hshadow
    exact (congrArg (Lags · (some state)) hshadow).mpr (.same _)

theorem SyncedAt.silent (h : SyncedAt s.engine id) {n : Note} {t : Timestamp}
    {f : Entry → Entry} (hn : ∀ o, n.next o = o)
    (hf : ∀ entry : Entry, (f entry).transformation = entry.transformation ∧
      (f entry).intentId = entry.intentId ∧ (f entry).delta = entry.delta)
    (hstate : ∀ entry : Entry, (f entry).state = entry.state) :
    SyncedAt ((s.note id n t).live id f).engine id := by
  have hnotes : stateOf? (((s.note id n t).live id f).engine.notes id) =
      stateOf? (s.engine.notes id) := by
    refine (congrArg stateOf? (Sys.notes_note s id n t)).trans ?_
    rw [stateOf?_append, hn]
  refine h.change f (getElem?_live (s.note id n t) id f) hf (fun entry hentry => ?_) ?_
  · rw [hnotes, hstate]
    exact h.state entry hentry
  · rw [hnotes]
    have hshadow := SigmaShadow.state_fold s.engine.shadow id n t
    rw [hn] at hshadow
    exact (congrArg (Lags · (stateOf? (s.engine.notes id))) hshadow).mpr h.shadow

theorem SyncedAt.quiet (h : SyncedAt s.engine id) {n : Note} {t : Timestamp}
    (hn : ∀ o, n.next o = o) : SyncedAt (s.note id n t).engine id := by
  have hnotes : stateOf? ((s.note id n t).engine.notes id) = stateOf? (s.engine.notes id) := by
    rw [Sys.notes_note, stateOf?_append, hn]
  have hshadow := SigmaShadow.state_fold s.engine.shadow id n t
  rw [hn] at hshadow
  refine h.change (fun e => e) (Option.map_id' ..).symm (fun _ => ⟨rfl, rfl, rfl⟩)
    (fun e he => ?_) ?_
  · rw [hnotes]
    exact h.state e he
  · exact (congrArg₂ Lags hshadow hnotes).mpr h.shadow

theorem SyncedAt.live (h : SyncedAt s.engine id) {f : Entry → Entry}
    (hf : ∀ entry : Entry, (f entry).transformation = entry.transformation ∧
      (f entry).intentId = entry.intentId ∧ (f entry).delta = entry.delta)
    (hstate : ∀ entry : Entry, (f entry).state = entry.state) :
    SyncedAt (s.live id f).engine id := by
  refine h.change f (getElem?_live s id f) hf (fun entry hentry => ?_) h.shadow
  rw [hstate]
  exact h.state entry hentry

theorem SyncedAt.planned (h : SyncedAt s.engine id) {body : PlannedBody} {t : Timestamp}
    {f : Engine → Engine} (hf : ∀ e, (f e).table = e.table ∧ (f e).records = e.records ∧
      (f e).shadow = e.shadow)
    (hstate : ∀ entry, s.engine.table[id]? = some entry →
      entry.state = .candidate ∨ ∃ reason, entry.state = .aborted reason) :
    SyncedAt ((s.note id (.planned body) t).withEngine f).engine id := by
  obtain ⟨htable, hrecords, hshadow⟩ := hf (s.note id (.planned body) t).engine
  have hnotes : stateOf? (((s.note id (.planned body) t).withEngine f).engine.notes id) =
      some .candidate := by
    rw [Engine.notes, Sys.engine_withEngine, hrecords]
    exact (congrArg stateOf? (Sys.notes_note s id _ t)).trans (stateOf?_append _ _)
  refine ⟨?_, fun entry hentry => ?_, ?_⟩
  · rw [Sys.engine_withEngine, htable]
    exact h.names
  · rw [Sys.engine_withEngine, htable] at hentry
    rw [hnotes]
    rcases hstate entry hentry with hc | ⟨reason, ha⟩
    · rw [hc]
      exact .same _
    · rw [ha]
      exact .unseated reason
  · rw [hnotes, Sys.engine_withEngine, hshadow]
    have hfold := SigmaShadow.state_fold s.engine.shadow id (.planned body) t
    exact (congrArg (Lags · (some .candidate)) hfold).mpr (.same _)

theorem Transformation.Names.intent_unique [Canon.CollisionFree] {t t' : Transformation}
    {i i' : IntentId} {d d' : PlannedDelta} (h : t.Names id i d) (h' : t'.Names id i' d') :
    i = i' := by
  have hview : t.view = t'.view :=
    Canon.CollisionFree.transformation (h.cid_eq.trans h'.cid_eq.symm)
  rw [← h.intent_eq, ← h'.intent_eq]
  exact congrArg TransformationView.intentId hview

theorem SyncedAt.insert (h : SyncedAt s.engine id) {f : Engine → Engine} {entry : Entry}
    (htable : (f s.engine).table = s.engine.table.insert id entry)
    (hrecords : (f s.engine).records = s.engine.records)
    (hshadow : (f s.engine).shadow = s.engine.shadow)
    (hnames : entry.transformation.Names id entry.intentId entry.delta)
    (hstate : stateOf? (s.engine.notes id) = some entry.state) :
    SyncedAt (s.withEngine f).engine id := by
  have hentry : ∀ e, (s.withEngine f).engine.table[id]? = some e → e = entry := by
    intro e he
    rw [Sys.engine_withEngine, htable, ExtTreeMap.getElem?_insert_self] at he
    exact (Option.some.inj he).symm
  have hnotes : (s.withEngine f).engine.notes id = s.engine.notes id :=
    congrArg (notesOf id) hrecords
  refine ⟨fun e he => ?_, fun e he => ?_, ?_⟩
  · rw [hentry e he]
    exact hnames
  · rw [hentry e he, hnotes, hstate]
    exact .same _
  · rw [hnotes, Sys.engine_withEngine, hshadow]
    exact h.shadow

theorem SyncedAt.step [Canon.CollisionFree] (h : Synced s.engine) (hstep : Step pol w id s s') :
    SyncedAt s'.engine id := by
  have hrow := h.row id
  cases hstep with
  | asked | failed | crashed | blob | observation | filed | headed | counted | explained | resumed
  | indexed | escrowHeld | applied | leafed | leafedAgain => exact hrow.same rfl rfl rfl
  | drafted => exact hrow.same rfl ((notesOf_append id _ _).trans (List.append_nil _)) rfl
  | planned intent shape stamp hid hsound hdraft halready hresolved hanew hpol =>
    refine hrow.planned (fun e => ⟨rfl, rfl, rfl⟩) fun entry hentry => .inl ?_
    have hnames := hsound.names
    rw [hid] at hnames
    exact candidate_of_plannedAlready halready hentry
      ((hrow.names entry hentry).intent_unique hnames)
  | undone original entry inverse fp0 pre t stage witness stamp horiginal hcommitted hescrow hid
      hmints hpre hstate hpol =>
    exact hrow.planned (fun e => ⟨rfl, rfl, rfl⟩) fun entry hentry =>
      .inr (undoState_candidate_or_aborted hstate hentry)
  | seated body stamp t delta fp0 pre hlast hnames hdelta hfp0 hparents hpre hblob =>
    exact hrow.insert rfl rfl rfl hnames (stateOf?_last hlast)
  | rehydrated intent shape stamp hid hsound halready hre hblob =>
    have hlast : s.engine.resolvedLast (Canon.intent intent) = some id := by
      simpa [rehydrating] using (of_decide_eq_true hre).1
    have hne := h.resolved _ id (List.mem_of_getLast? hlast)
    obtain ⟨state, hstate⟩ := Option.ne_none_iff_exists'.mp hne
    obtain ⟨hs, ht, hi, hd⟩ := state_rehydrated (Canon.intent intent) shape
      ((reconstruct s.engine.records).stateOf id) (s.engine.shadow.since[id]?.getD stamp)
    refine hrow.insert rfl rfl rfl ?_ ?_
    · rw [ht, hi, hd, ← hid]
      exact hsound.names
    · rw [hs]
      have hj := Engine.journalState_eq s.engine id
      rw [journalState, hstate] at hj
      rw [hj, hstate]
      rfl
  | restored row planned createdAt t delta fp0 pre intentId provenance habsent hjournal hstate
      hprovenance hintent hdelta hfp0 hplanned hpre hnames hparents =>
    refine hrow.insert rfl rfl rfl hnames ?_
    rw [rowOf?] at hjournal
    split at hjournal
    next => cases hjournal
    next =>
      cases hjournal
      rw [← state_rowOf id]
      rcases hstate with hstate | hstate
      · rw [hstate]
        simp [Entry.ofRow, hstate]
      · rw [hstate]
        simp [Entry.ofRow, hstate]
  | idle f hf _ =>
    refine hrow.live (fun entry => ?_) fun entry => ?_
    · have hsame := hf.same entry
      exact ⟨hsame.transformation.symm, hsame.intentId.symm, hsame.delta.symm⟩
    · exact Option.some.inj (congrArg StateRow.state (hf.row id entry))
  | observationNamed cid hcid => exact hrow.live (fun _ => ⟨rfl, rfl, rfl⟩) fun _ => rfl
  | verifyStarted | unverified | ruled | decided | canonicalized | aborted =>
    exact hrow.noted (fun _ => rfl) (fun _ => ⟨rfl, rfl, rfl⟩) fun _ => rfl
  | opened => exact hrow.noted (fun _ => rfl) (fun _ => ⟨rfl, rfl, rfl⟩) fun _ => rfl
  | committing entry stamp hlive hstate hcanonical hverdict hpol =>
    have hagrees := hrow.state entry hlive
    rw [hstate] at hagrees
    have hjournal := hagrees.eq_of_ne (by simp) (by simp)
    have hnotes : stateOf? ((s.append (.about id .committingStarted stamp)).engine.notes id) =
        some .committing :=
      (congrArg stateOf? (Sys.notes_append s id _ stamp)).trans (stateOf?_append _ _)
    refine hrow.change _ (getElem?_live _ id _) (fun _ => ⟨rfl, rfl, rfl⟩) (fun _ _ => ?_) ?_
    · exact (congrArg (Agrees _) hnotes).mpr (.same _)
    · have hlags := hrow.shadow
      rw [hjournal] at hlags
      exact (congrArg₂ Lags hlags.of_canonicalized hnotes).mpr .committing
  | provenance entry stamp hcommit hpol =>
    have hnotes : stateOf? ((s.append (.about id
        (.provenanceDerived (deriveProvenance s.engine entry)) stamp)).engine.notes id) =
          stateOf? (s.engine.notes id) :=
      (congrArg stateOf? (Sys.notes_append s id _ stamp)).trans (stateOf?_append _ _)
    refine hrow.change _ (getElem?_live _ id _) (fun _ => ⟨rfl, rfl, rfl⟩) (fun e he => ?_) ?_
    · exact (congrArg (Agrees _) hnotes).mpr (hrow.state e he)
    · exact (congrArg (Lags _) hnotes).mpr hrow.shadow
  | escrowed | announcedAgain | observed | completed => exact hrow.quiet fun _ => rfl
  | announced => exact hrow.silent (fun _ => rfl) (fun _ => ⟨rfl, rfl, rfl⟩) fun _ => rfl
  | committed leaf stamp hleaf hstate =>
    have hnotes : stateOf? ((s.note id (.committed leaf.index) stamp).engine.notes id) =
        some .committed :=
      (congrArg stateOf? (Sys.notes_note s id _ stamp)).trans (stateOf?_append _ _)
    have hshadow := SigmaShadow.state_fold s.engine.shadow id (.committed leaf.index) stamp
    refine hrow.change (fun e => e) (Option.map_id' ..).symm (fun _ => ⟨rfl, rfl, rfl⟩)
      (fun e he => ?_) ?_
    · have hagrees := hrow.state e he
      rw [hstate] at hagrees
      rw [hagrees.of_committing]
      exact (congrArg (Agrees _) hnotes).mpr .recovered
    · exact (congrArg₂ Lags hshadow hnotes).mpr (.same _)
  | closed f stamp hstate hf _ =>
    refine hrow.change f (getElem?_live s id f) (fun e => ?_) (fun e _ => ?_) hrow.shadow
    · rw [hf e]
      exact ⟨rfl, rfl, rfl⟩
    · rw [hf e]
      exact (congrArg (Agrees _) hstate).mpr (.same _)
  | superseded by_ stamp horiginal hcommitted =>
    have hnotes : stateOf? ((s.note id (.superseded by_) stamp).engine.notes id) =
        some .superseded :=
      (congrArg stateOf? (Sys.notes_note s id _ stamp)).trans (stateOf?_append _ _)
    have hshadow := SigmaShadow.state_fold s.engine.shadow id (.superseded by_) stamp
    refine hrow.change _ (getElem?_live _ id _) (fun _ => ⟨rfl, rfl, rfl⟩) (fun _ _ => ?_) ?_
    · exact (congrArg (Agrees _) hnotes).mpr (.same _)
    · exact (congrArg₂ Lags hshadow hnotes).mpr (.same _)

theorem Step.resolved (hstep : Step pol w id s s') :
    s'.engine.resolved = s.engine.resolved ∨ ∃ body stamp,
      s'.engine.records = s.engine.records ++ [.about id (.planned body) stamp] ∧
      s'.engine.resolved = (remembered body.intentId id s.engine).resolved := by
  cases hstep with
  | planned intent shape stamp => exact .inr ⟨_, stamp, rfl, rfl⟩
  | undone original entry inverse fp0 pre t stage witness stamp =>
    exact .inr ⟨_, stamp, rfl, rfl⟩
  | _ => exact .inl rfl

theorem Step.stateOf?_ne_none {other : TransformationId} (hstep : Step pol w id s s')
    (h : stateOf? (s.engine.notes other) ≠ none) : stateOf? (s'.engine.notes other) ≠ none := by
  cases hstep.writes with
  | nothing hr | leaf _ hr =>
    rw [Engine.notes, hr]
    exact h
  | record r hr =>
    rw [Engine.notes, hr, notesOf_append]
    cases r with
    | draftCreated => rwa [notesOf_draft, List.append_nil]
    | about t n stamp =>
      by_cases hne : t = other
      · subst hne
        rw [notesOf_about, stateOf?_append]
        cases n with
        | provenanceDerived | inverseEscrowed | applyStarted | applyObserved | inverseCompleted =>
          exact h
        | _ => exact Option.some_ne_none _
      · rwa [notesOf_other hne, List.append_nil]

theorem Synced.step [Canon.CollisionFree] (h : Synced s.engine) (hstep : Step pol w id s s') :
    Synced s'.engine := by
  refine ⟨fun other => ?_, fun i other hother => ?_⟩
  · by_cases hne : id = other
    · subst hne
      exact SyncedAt.step h hstep
    · have hframe := hstep.frame hne
      exact (h.row other).same hframe.table hframe.notes
        (congrArg (Option.bind · StateRow.state) hframe.shadow)
  · rcases hstep.resolved with hsame | ⟨body, stamp, hrecords, hresolved⟩
    · rw [resolvedAll, hsame] at hother
      exact hstep.stateOf?_ne_none (h.resolved i other hother)
    · rw [resolvedAll, hresolved] at hother
      rcases mem_remembered hother with hbefore | rfl
      · exact hstep.stateOf?_ne_none (h.resolved i other hbefore)
      · rw [Engine.notes, hrecords, notesOf_append, notesOf_about, stateOf?_append]
        exact Option.some_ne_none _

theorem Synced.openThrough (config : Config) (disk : Disk) :
    Synced (Engine.openThrough config disk) := by
  have hempty : ∀ (id : TransformationId) (entry : Entry),
      (Engine.openThrough config disk).table[id]? ≠ some entry := by
    intro id entry h
    rw [show (Engine.openThrough config disk).table = ∅ from rfl, ExtTreeMap.getElem?_empty] at h
    cases h
  refine ⟨fun id => ⟨fun entry h => absurd h (hempty id entry),
    fun entry h => absurd h (hempty id entry), ?_⟩, fun i id hid => ?_⟩
  · have hshadow := SigmaShadow.state_ofRecords disk.journal id
    exact (congrArg (Lags · (stateOf? (notesOf id disk.journal))) hshadow).mpr (.same _)
  · obtain ⟨body, t, hmem, _⟩ := mem_resolutionsOf.mp hid
    exact stateOf?_ne_none_of_planned (mem_notesOf.mpr ⟨t, hmem⟩)

end Tracefold
