import Mathlib.Tactic.Common
import Tracefold.Sync

/-! What the journal has planned, and how its notes about one transformation may go on. -/

namespace Tracefold

open Library Engine
open Std (ExtTreeMap)

/-- The transitions of the lifecycle. -/
inductive Lifecycle.Edge : Option Lifecycle → Lifecycle → Prop where
  | planned : Edge none .candidate
  | verifying : Edge (some .candidate) .verifying
  | ruled (kind : VerdictKind) : Edge (some .verifying) (stateOfVerdict kind)
  | decided (kind : VerdictKind) (h : kind ≠ .Escalate) :
      Edge (some .escalated) (stateOfVerdict kind)
  | admitted : Edge (some .admitted) .canonicalized
  | denied : Edge (some .denied) .canonicalized
  | committing : Edge (some .canonicalized) .committing
  | committed : Edge (some .committing) .committed
  | superseded : Edge (some .committed) .superseded
  | aborted (state : Lifecycle) (reason : AbortReason) (h : state.isTerminal = false) :
      Edge (some state) (.aborted reason)

/-- The lifecycle leads to `Candidate` from nothing only. -/
theorem Lifecycle.Edge.to_candidate {o : Option Lifecycle} {state : Lifecycle}
    (h : Lifecycle.Edge o state) (hstate : state = .candidate) : o = none := by
  cases h with
  | planned => rfl
  | ruled kind => cases kind <;> cases hstate
  | decided kind => cases kind <;> cases hstate
  | _ => cases hstate

theorem Lifecycle.Edge.to_committing {o : Option Lifecycle} {state : Lifecycle}
    (h : Lifecycle.Edge o state) (hstate : state = .committing) : o = some .canonicalized := by
  cases h with
  | committing => rfl
  | ruled kind => cases kind <;> cases hstate
  | decided kind => cases kind <;> cases hstate
  | _ => cases hstate

theorem Lifecycle.Edge.to_committed {o : Option Lifecycle} {state : Lifecycle}
    (h : Lifecycle.Edge o state) (hstate : state = .committed) : o = some .committing := by
  cases h with
  | committed => rfl
  | ruled kind => cases kind <;> cases hstate
  | decided kind => cases kind <;> cases hstate
  | _ => cases hstate

theorem Lifecycle.Edge.to_superseded {o : Option Lifecycle} {state : Lifecycle}
    (h : Lifecycle.Edge o state) (hstate : state = .superseded) : o = some .committed := by
  cases h with
  | superseded => rfl
  | ruled kind => cases kind <;> cases hstate
  | decided kind => cases kind <;> cases hstate
  | _ => cases hstate

theorem stateOfVerdict_cases (kind : VerdictKind) : stateOfVerdict kind = .admitted ∨
    stateOfVerdict kind = .denied ∨ stateOfVerdict kind = .escalated := by
  cases kind
  · exact .inl rfl
  · exact .inr (.inl rfl)
  · exact .inr (.inr rfl)

/-- How the notes about a transformation may go on, whatever is planned. -/
def Legal (o : Option Lifecycle) : Note → Prop
  | .planned _ => True
  | .provenanceDerived _ => o = some .committing
  | .inverseEscrowed _ => o = some .committing
  | .applyStarted _ => o = some .committing
  | .applyObserved _ => o = some .committing
  | .inverseCompleted _ => o = some .committing
  | n => ∃ before state, o = some before ∧ n.next o = some state ∧ Lifecycle.Edge o state

/-- Notes that may have been written one after another. -/
inductive Lawful : List Note → Prop where
  | nil : Lawful []
  | append {notes : List Note} {n : Note} (h : Lawful notes) (hn : Legal (stateOf? notes) n) :
      Lawful (notes ++ [n])

theorem Lawful.entered {P : Lifecycle → Prop} {Q : Note → Prop} {notes : List Note}
    (h : Lawful notes) (hkeeps : ∀ o n state, Legal o n → n.next o = some state → P state →
      Q n ∨ ∃ before, o = some before ∧ P before) {state : Lifecycle}
    (hstate : stateOf? notes = some state) (hp : P state) : ∃ n ∈ notes, Q n := by
  induction h generalizing state with
  | nil => cases hstate
  | @append notes n _ hn ih =>
    rw [stateOf?_append] at hstate
    rcases hkeeps _ n state hn hstate hp with hq | ⟨before, hbefore, hp'⟩
    · exact ⟨n, List.mem_append_right _ List.mem_cons_self, hq⟩
    · obtain ⟨m, hm, hq⟩ := ih hbefore hp'
      exact ⟨m, List.mem_append_left _ hm, hq⟩

theorem Lawful.planned {notes : List Note} (h : Lawful notes) (hne : stateOf? notes ≠ none) :
    ∃ body, .planned body ∈ notes := by
  obtain ⟨state, hstate⟩ := Option.ne_none_iff_exists'.mp hne
  have hfound : ∃ n ∈ notes, ∃ body, n = .planned body := by
    refine h.entered (P := fun _ => True) (fun o n state hn hnext _ => ?_) hstate trivial
    cases n with
    | planned body => exact .inl ⟨body, rfl⟩
    | provenanceDerived | inverseEscrowed | applyStarted | applyObserved | inverseCompleted =>
      exact .inr ⟨_, hn, trivial⟩
    | _ =>
      obtain ⟨before, _, hbefore, _⟩ := hn
      exact .inr ⟨before, hbefore, trivial⟩
  obtain ⟨_, hmem, body, rfl⟩ := hfound
  exact ⟨body, hmem⟩

variable [Canon]

/-- A `Planned` record names a transformation with the id it is about. -/
def Named (id : TransformationId) (body : PlannedBody) : Prop :=
  ∃ (t : Transformation) (delta : PlannedDelta), t.Names id body.intentId delta ∧
    body.deltaCid = delta.cid ∧ body.parents = t.parents

variable {pol : Policy} {w : World} {id : TransformationId} {s s' : Sys}

/-- What the journal has planned, and the index of it a process keeps. -/
structure Indexed (e : Engine) : Prop where
  named : ∀ id body, .planned body ∈ e.notes id → Named id body
  complete : ∀ id body, .planned body ∈ e.notes id → id ∈ e.resolvedAll body.intentId

omit [Canon] in
theorem mem_notesOf_concat {records : List Record} {r : Record} {n : Note}
    (h : n ∈ notesOf id (records ++ [r])) : n ∈ notesOf id records ∨ ∃ t, r = .about id n t := by
  obtain ⟨t, ht⟩ := mem_notesOf.mp h
  rcases List.mem_append.mp ht with ht | ht
  · exact .inl (mem_notesOf.mpr ⟨t, ht⟩)
  · exact .inr ⟨t, (List.mem_singleton.mp ht).symm⟩

omit [Canon] in
theorem resolvedAll_remembered {e : Engine} {i j : IntentId} {other : TransformationId}
    (h : other ∈ e.resolvedAll j ∨ other = id ∧ j = i) :
    other ∈ (remembered i id e).resolvedAll j := by
  rw [resolvedAll, remembered]
  simp only [ExtTreeMap.getElem?_insert, Std.compare_eq_iff_eq]
  by_cases hij : i = j
  · subst hij
    rw [if_pos rfl, Option.getD_some]
    split <;> grind
  · rw [if_neg hij]
    rcases h with h | ⟨_, rfl⟩
    · exact h
    · exact absurd rfl hij

theorem Step.resolvedAll_mono (hstep : Step pol w id s s') {i : IntentId}
    {other : TransformationId} (h : other ∈ s.engine.resolvedAll i) :
    other ∈ s'.engine.resolvedAll i := by
  rcases hstep.resolved with hsame | ⟨body, stamp, _, hresolved⟩
  · rw [resolvedAll, hsame]
    exact h
  · rw [resolvedAll, hresolved]
    exact resolvedAll_remembered (.inl h)

/-- A `Planned` record that was not there before names the transformation of the move, and the
index has it. -/
theorem Step.plans (hstep : Step pol w id s s') {other : TransformationId} {body : PlannedBody}
    (h : .planned body ∈ s'.engine.notes other) :
    .planned body ∈ s.engine.notes other ∨
      Named other body ∧ other ∈ s'.engine.resolvedAll body.intentId := by
  cases hstep with
  | planned intent shape stamp hid hsound =>
    rcases mem_notesOf_concat h with h | ⟨t, ht⟩
    · exact .inl h
    · cases ht
      refine .inr ⟨⟨shape.transformation, shape.delta, hid ▸ hsound.names, rfl, rfl⟩, ?_⟩
      exact resolvedAll_remembered (.inr ⟨rfl, rfl⟩)
  | undone original entry inverse fp0 pre t stage witness stamp horiginal hcommitted hescrow hid
      hmints =>
    rcases mem_notesOf_concat h with h | ⟨t', ht⟩
    · exact .inl h
    · cases ht
      refine .inr ⟨⟨t, inverse, hid ▸ hmints.names, rfl, rfl⟩, ?_⟩
      exact resolvedAll_remembered (.inr ⟨rfl, rfl⟩)
  | _ =>
    first
    | exact .inl h
    | rcases mem_notesOf_concat h with h | ⟨t, ht⟩
      · exact .inl h
      · cases ht

theorem Indexed.step (h : Indexed s.engine) (hstep : Step pol w id s s') : Indexed s'.engine := by
  refine ⟨fun other body hbody => ?_, fun other body hbody => ?_⟩
  · rcases hstep.plans hbody with hbefore | ⟨hnamed, _⟩
    · exact h.named other body hbefore
    · exact hnamed
  · rcases hstep.plans hbody with hbefore | ⟨_, hindexed⟩
    · exact hstep.resolvedAll_mono (h.complete other body hbefore)
    · exact hindexed

theorem Indexed.openThrough {disk : Disk} (config : Config)
    (hnamed : ∀ id body, .planned body ∈ notesOf id disk.journal → Named id body) :
    Indexed (Engine.openThrough config disk) := by
  refine ⟨hnamed, fun id body hbody => ?_⟩
  obtain ⟨t, ht⟩ := mem_notesOf.mp hbody
  exact mem_resolutionsOf.mpr ⟨body, t, ht, rfl⟩

theorem Named.intent_unique [Canon.CollisionFree] {body : PlannedBody} {t : Transformation}
    {i : IntentId} {d : PlannedDelta} (h : Named id body) (ht : t.Names id i d) :
    body.intentId = i := by
  obtain ⟨t', d', hnames, _⟩ := h
  exact hnames.intent_unique ht

theorem MayAbort.nonterminal (h : MayAbort s id) (hs : Synced s.engine) :
    ∃ state, stateOf? (s.engine.notes id) = some state ∧ state.isTerminal = false := by
  have hlive : ∀ entry, s.engine.table[id]? = some entry → entry.state ≠ .committing →
      (∀ reason, entry.state ≠ .aborted reason) →
      stateOf? (s.engine.notes id) = some entry.state := fun entry hentry hc ha =>
    ((hs.row id).state entry hentry).eq_of_ne hc ha
  cases h with
  | due entry hentry hstate =>
    refine ⟨entry.state, ?_⟩
    rcases hstate with h | h | h <;>
      exact ⟨hlive entry hentry (by rw [h]; nofun) (by rw [h]; nofun), by rw [h]; rfl⟩
  | dueShadow hstate =>
    have hlags := (hs.row id).shadow
    rcases hstate with h | h | h
    · exact ⟨_, (hlags.eq_of_ne (by rw [h]; nofun)).trans h, rfl⟩
    · exact ⟨_, (hlags.eq_of_ne (by rw [h]; nofun)).trans h, rfl⟩
    · exact ⟨_, (hlags.eq_of_ne (by rw [h]; nofun)).trans h, rfl⟩
  | verifying entry hentry hstate =>
    refine ⟨entry.state, hlive entry hentry ?_ ?_, ?_⟩
    · rw [hstate]; nofun
    · rw [hstate]; nofun
    · rw [hstate]; rfl
  | owner entry hentry hstate =>
    refine ⟨entry.state, ?_⟩
    rcases hstate with h | h | h | h | h <;>
      exact ⟨hlive entry hentry (by rw [h]; nofun) (by rw [h]; nofun), by rw [h]; rfl⟩
  | commit entry h => exact ⟨_, h.state, rfl⟩
  | leafless row h hid => exact ⟨_, hid ▸ h.state, rfl⟩
  | immaterial row h hid => exact ⟨_, hid ▸ h.state, rfl⟩

/-- An undo plans a row only from nothing, from `Candidate` or from `Aborted`. -/
theorem undo_replans [Canon.CollisionFree] {t : Transformation} {i : IntentId} {d : PlannedDelta}
    (hs : Synced s.engine) (hi : Indexed s.engine) (ht : t.Names id i d)
    (hl : Lawful (s.engine.notes id))
    (hstate : undoState s.engine i id = none ∨
      undoState s.engine i id = some .candidate ∧ id ∉ s.engine.table ∨
      ∃ reason, undoState s.engine i id = some (.aborted reason)) :
    stateOf? (s.engine.notes id) = none ∨ stateOf? (s.engine.notes id) = some .candidate ∨
      ∃ reason, stateOf? (s.engine.notes id) = some (.aborted reason) := by
  cases hentry : s.engine.table[id]? with
  | some entry =>
    obtain ⟨reason, hreason⟩ := undoState_candidate_or_aborted hstate hentry
    have hagrees := (hs.row id).state entry hentry
    rw [hreason] at hagrees
    generalize stateOf? (s.engine.notes id) = o at hagrees
    cases hagrees with
    | same => exact .inr (.inr ⟨reason, rfl⟩)
    | unseated => exact .inr (.inl rfl)
  | none =>
    have hindexed : ∀ state, stateOf? (s.engine.notes id) = some state →
        id ∈ s.engine.resolvedAll i := by
      intro state hsome
      obtain ⟨body, hbody⟩ := hl.planned (by rw [hsome]; nofun)
      rw [← (hi.named id body hbody).intent_unique ht]
      exact hi.complete id body hbody
    cases hj : stateOf? (s.engine.notes id) with
    | none => exact .inl rfl
    | some state =>
      have hundo : undoState s.engine i id = some state := by
        rw [undoState, hentry, if_pos (hindexed state hj), Engine.journalState_eq, hj]
        rfl
      rw [hundo] at hstate
      rcases hstate with h | ⟨h, _⟩ | ⟨reason, h⟩
      · cases h
      · exact .inr (.inl h)
      · exact .inr (.inr ⟨reason, h⟩)

theorem committed_of_supersededOriginal {e : Engine} {by_ : TransformationId}
    (h : supersededOriginal e by_ = some id) :
    ∃ entry, e.table[id]? = some entry ∧ entry.state = .committed := by
  obtain ⟨_, entry, _, _, hentry, _, _, hstate, _⟩ := supersededOriginal_spec h
  exact ⟨entry, hentry, hstate⟩

/-- A note that is not a plan goes on as the lifecycle does. -/
theorem Step.legal (hs : Synced s.engine) (hstep : Step pol w id s s') {n : Note} {t : Timestamp}
    (hr : s'.engine.records = s.engine.records ++ [.about id n t]) :
    Legal (stateOf? (s.engine.notes id)) n := by
  have hlive : ∀ entry, s.engine.table[id]? = some entry → entry.state ≠ .committing →
      (∀ reason, entry.state ≠ .aborted reason) →
      stateOf? (s.engine.notes id) = some entry.state := fun entry hentry hc ha =>
    ((hs.row id).state entry hentry).eq_of_ne hc ha
  have hrecord : ∀ {n'} {t'}, s.engine.records ++ [.about id n' t'] =
      s.engine.records ++ [.about id n t] → n' = n := fun heq => by
    cases List.append_cancel_left heq
    rfl
  have hnone : s.engine.records ≠ s.engine.records ++ [.about id n t] := by simp
  cases hstep with
  | asked | failed | crashed | blob | observation | filed | headed | seated | rehydrated | idle
  | restored | counted | explained | resumed | indexed | escrowHeld | applied | observationNamed
  | closed | leafed | leafedAgain => exact absurd hr hnone
  | drafted => cases List.append_cancel_left hr
  | planned | undone =>
    cases hrecord hr
    trivial
  | verifyStarted entry stamp hentry hstate =>
    cases hrecord hr
    have h := hlive entry hentry (by rw [hstate]; nofun) (by rw [hstate]; nofun)
    rw [h, hstate]
    exact ⟨_, _, rfl, rfl, .verifying⟩
  | unverified entry reason stamp hentry hstate =>
    cases hrecord hr
    have h := hlive entry hentry (by rw [hstate]; nofun) (by rw [hstate]; nofun)
    rw [h, hstate]
    exact ⟨_, _, rfl, rfl, .aborted _ reason rfl⟩
  | ruled entry kind digest stamp hentry hstate =>
    cases hrecord hr
    have h := hlive entry hentry (by rw [hstate]; nofun) (by rw [hstate]; nofun)
    rw [h, hstate]
    exact ⟨_, _, rfl, rfl, .ruled kind⟩
  | opened entry stamp hentry hstate =>
    cases hrecord hr
    have h := hlive entry hentry (by rw [hstate]; nofun) (by rw [hstate]; nofun)
    rw [h, hstate]
    exact ⟨_, _, rfl, rfl, .ruled .Admit⟩
  | decided entry ruling stamp hentry hstate hdecision =>
    cases hrecord hr
    have h := hlive entry hentry (by rw [hstate]; nofun) (by rw [hstate]; nofun)
    rw [h, hstate]
    exact ⟨_, _, rfl, rfl, .decided _ hdecision⟩
  | canonicalized entry enforced stamp hentry hstate henforced =>
    cases hrecord hr
    rcases hstate with hstate | hstate
    · have h := hlive entry hentry (by rw [hstate]; nofun) (by rw [hstate]; nofun)
      rw [h, hstate]
      exact ⟨_, _, rfl, rfl, .admitted⟩
    · have h := hlive entry hentry (by rw [hstate]; nofun) (by rw [hstate]; nofun)
      rw [h, hstate]
      exact ⟨_, _, rfl, rfl, .denied⟩
  | committing entry stamp hentry hstate =>
    cases hrecord hr
    have h := hlive entry hentry (by rw [hstate]; nofun) (by rw [hstate]; nofun)
    rw [h, hstate]
    exact ⟨_, _, rfl, rfl, .committing⟩
  | provenance entry stamp hcommit =>
    cases hrecord hr
    exact hcommit.state
  | escrowed entry outcome pending stamp hcommit =>
    cases hrecord hr
    exact hcommit.state
  | announced entry delta stamp hcommit =>
    cases hrecord hr
    exact hcommit.state
  | announcedAgain row cid stamp hresume hid =>
    cases hrecord hr
    exact hid ▸ hresume.state
  | observed entry cid stamp hcommit =>
    cases hrecord hr
    exact hcommit.state
  | completed inverse stamp hstate =>
    cases hrecord hr
    exact hstate
  | committed leaf stamp hleaf hstate =>
    cases hrecord hr
    rw [hstate]
    exact ⟨_, _, rfl, rfl, .committed⟩
  | aborted reason rollback stamp hmay =>
    cases hrecord hr
    obtain ⟨state, hstate, hterminal⟩ := hmay.nonterminal hs
    rw [hstate]
    exact ⟨_, _, rfl, rfl, .aborted state reason hterminal⟩
  | superseded by_ stamp horiginal hcommitted =>
    cases hrecord hr
    obtain ⟨entry, hentry, hstate⟩ := committed_of_supersededOriginal horiginal
    have h := hlive entry hentry (by rw [hstate]; nofun) (by rw [hstate]; nofun)
    rw [h, hstate]
    exact ⟨_, _, rfl, rfl, .superseded⟩

theorem Lawful.step (hs : Synced s.engine) (hstep : Step pol w id s s')
    (h : ∀ other, Lawful (s.engine.notes other)) (other : TransformationId) :
    Lawful (s'.engine.notes other) := by
  rcases hstep.notes other with hsame | ⟨rfl, n, t, hr, hnotes⟩
  · rw [hsame]
    exact h other
  · rw [hnotes]
    exact (h other).append (hstep.legal hs hr)

end Tracefold
