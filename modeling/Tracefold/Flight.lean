import Mathlib.Tactic.Common
import Tracefold.Ideal
import Tracefold.Mirror
import Tracefold.Runs

/-! Rows in flight on one subject: the conflict check of T-3, and the road past it. -/

namespace Tracefold

open Library Engine
open Std (ExtTreeMap)

/-- A row that is on its way from its verification to its commit. -/
def Lifecycle.flying : Lifecycle → Bool
  | .verifying | .admitted | .escalated | .canonicalized | .committing => true
  | _ => false

theorem Lifecycle.inFlight_of_flying {state : Lifecycle} (h : state.flying = true) :
    inFlight state .enforce = true := by
  cases state <;> first | rfl | cases h

/-- The adapters answer a commutation, when they answer, by one symmetric function of the deltas. -/
structure Commuting (w : World) (conflicts : PlannedDelta → PlannedDelta → Bool) : Prop where
  symm : ∀ d d', conflicts d d' = conflicts d' d
  commutes : ∀ {h kind d d'}, (w h).commutation kind d d' = .ok .commutes → conflicts d d' = false
  conflicts : ∀ {h kind d d' residual}, (w h).commutation kind d d' = .ok (.conflicts residual) →
    conflicts d d' = true

/-- No other row in flight on the subject of this one conflicts with it. -/
def Alone (conflicts : PlannedDelta → PlannedDelta → Bool) (e : Engine) (id : TransformationId)
    (entry : Entry) : Prop :=
  ∀ other row, e.table[other]? = some row → other ≠ id →
    row.transformation.subject = entry.transformation.subject → row.state.flying = true →
    conflicts row.delta entry.delta = false

/-- No two rows in flight on one subject conflict. -/
def Undisputed (conflicts : PlannedDelta → PlannedDelta → Bool) (e : Engine) : Prop :=
  ∀ id entry, e.table[id]? = some entry → entry.state.flying = true → Alone conflicts e id entry

theorem forall_row {e : Engine} {P : TransformationId → Entry → Prop} :
    (∀ row ∈ e.table.toList, P row.1 row.2) ↔ ∀ id entry, e.table[id]? = some entry → P id entry := by
  refine ⟨fun h id entry hentry => ?_, fun h row hrow => ?_⟩
  · exact h (id, entry) (ExtTreeMap.mem_toList_iff_getElem?_eq_some.mpr hentry)
  · exact h row.1 row.2 (ExtTreeMap.mem_toList_iff_getElem?_eq_some.mp hrow)

instance (conflicts : PlannedDelta → PlannedDelta → Bool) (e : Engine) (id : TransformationId)
    (entry : Entry) : Decidable (Alone conflicts e id entry) :=
  decidable_of_iff _ (forall_row (P := fun other row => other ≠ id →
    row.transformation.subject = entry.transformation.subject → row.state.flying = true →
    conflicts row.delta entry.delta = false))

instance (conflicts : PlannedDelta → PlannedDelta → Bool) (e : Engine) :
    Decidable (Undisputed conflicts e) :=
  decidable_of_iff _ (forall_row (P := fun id entry => entry.state.flying = true →
    Alone conflicts e id entry))

/-- What the journal has in flight has a live row. -/
def Seated (e : Engine) : Prop :=
  ∀ id state, stateOf? (e.notes id) = some state → state.flying = true → id ∈ e.table

/-- The notes that put a row in flight. -/
def Note.launches : Note → Bool
  | .verifyStarted | .verdict _ _ _ | .humanDecision _ _ _ _ | .canonicalized _ _
  | .committingStarted => true
  | _ => false

theorem Note.launches_or_stays {n : Note} {o : Option Lifecycle} {state : Lifecycle}
    (h : n.next o = some state) (hflying : state.flying = true) :
    n.launches = true ∨ o = some state := by
  cases n with
  | verifyStarted | verdict | humanDecision | canonicalized | committingStarted => exact .inl rfl
  | planned | committed | aborted | superseded =>
    cases h
    cases hflying
  | _ => exact .inr h

variable {conflicts : PlannedDelta → PlannedDelta → Bool} {e e' : Engine} {id : TransformationId}

theorem Undisputed.change (hsymm : ∀ d d', conflicts d d' = conflicts d' d)
    (h : Undisputed conflicts e) (id : TransformationId) (hother : ∀ other, other ≠ id → e'.table[other]? = e.table[other]?)
    (hrow : ∀ entry, e'.table[id]? = some entry → entry.state.flying = true →
      Alone conflicts e id entry) : Undisputed conflicts e' := by
  intro a entry hentry hflying b row hb hne hsubject hrowflying
  by_cases ha : a = id
  · subst ha
    rw [hother b hne] at hb
    exact hrow entry hentry hflying b row hb hne hsubject hrowflying
  · rw [hother a ha] at hentry
    by_cases hbid : b = id
    · subst hbid
      rw [hsymm]
      exact hrow row hb hrowflying a entry hentry ha hsubject.symm hflying
    · rw [hother b hbid] at hb
      exact h a entry hentry hflying b row hb hne hsubject hrowflying

section Kept

variable [Canon]

variable {pol : Policy} {w : World} {s s' : Sys}

/-- What a move does to the table. -/
inductive TableMove (pol : Policy) (w : World) (id : TransformationId) (s s' : Sys) : Prop where
  | same (h : s'.engine.table = s.engine.table)
  | live (f : Entry → Entry) (h : s'.engine.table = s.engine.table.modify id f)
      (hbody : ∀ e : Entry, (f e).transformation = e.transformation ∧ (f e).delta = e.delta)
      (hstate : ∀ entry, s.engine.table[id]? = some entry → (f entry).state.flying = true →
        entry.state.flying = true ∨ Unopposed w s.engine id entry ∨
          entry.state = .denied ∧ pol.carries s.engine id)
  | seats (entry : Entry) (h : s'.engine.table = s.engine.table.insert id entry)
      (hstate : entry.state.flying = false ∨ id ∉ s.engine.table ∧
        entry.state = (stateOf? (s.engine.notes id)).getD .candidate)

theorem Step.tableMove (h : Step pol w id s s') : TableMove pol w id s s' := by
  cases h with
  | asked | failed | crashed | blob | observation | filed | headed | drafted | planned | undone
  | counted | explained | resumed | indexed | escrowed | escrowHeld | announcedAgain | applied
  | observed | completed | leafed | leafedAgain | committed => exact .same rfl
  | seated => exact .seats _ rfl (.inl rfl)
  | rehydrated intent shape stamp hid hsound halready hre =>
    refine .seats _ rfl (.inr ⟨?_, ?_⟩)
    · exact (of_decide_eq_true hre).2
    · rw [(state_rehydrated _ _ _ _).1]
      exact congrArg (Option.getD · Lifecycle.candidate) (Engine.journalState_eq s.engine id)
  | restored row planned createdAt t delta fp0 pre intentId provenance habsent hrow hstate =>
    refine .seats _ rfl (.inl ?_)
    rcases hstate with hstate | hstate <;>
      (simp only [Entry.ofRow, hstate, Option.getD_some]; rfl)
  | idle f hf _ =>
    refine .live f rfl (fun e => ⟨(hf.same e).transformation.symm, (hf.same e).delta.symm⟩) ?_
    intro entry _ hflying
    have hsame : (f entry).state = entry.state :=
      Option.some.inj (congrArg StateRow.state (hf.row id entry))
    rw [hsame] at hflying
    exact .inl hflying
  | verifyStarted entry stamp hlive _ hclear =>
    refine .live _ rfl (fun _ => ⟨rfl, rfl⟩) fun now hnow _ => .inr (.inl ?_)
    rw [← Option.some.inj (hlive.symm.trans hnow)]
    exact hclear
  | canonicalized entry enforced stamp hlive hstate _ hcarries =>
    refine .live _ rfl (fun _ => ⟨rfl, rfl⟩) fun now hnow _ => ?_
    rw [← Option.some.inj (hlive.symm.trans hnow)]
    rcases hstate with hadmitted | hdenied
    · exact .inl (by rw [hadmitted]; rfl)
    · exact .inr (.inr ⟨hdenied, hcarries hdenied⟩)
  | ruled entry kind digest stamp hlive hstate =>
    refine .live _ rfl (fun _ => ⟨rfl, rfl⟩) fun now hnow _ => .inl ?_
    rw [← Option.some.inj (hlive.symm.trans hnow), hstate]
    rfl
  | opened entry stamp hlive hstate =>
    refine .live _ rfl (fun _ => ⟨rfl, rfl⟩) fun now hnow _ => .inl ?_
    rw [← Option.some.inj (hlive.symm.trans hnow), hstate]
    rfl
  | decided entry ruling stamp hlive hstate =>
    refine .live _ rfl (fun _ => ⟨rfl, rfl⟩) fun now hnow _ => .inl ?_
    rw [← Option.some.inj (hlive.symm.trans hnow), hstate]
    rfl
  | committing entry stamp hlive hstate =>
    refine .live _ rfl (fun _ => ⟨rfl, rfl⟩) fun now hnow _ => .inl ?_
    rw [← Option.some.inj (hlive.symm.trans hnow), hstate]
    rfl
  | provenance | announced | observationNamed =>
    exact .live _ rfl (fun _ => ⟨rfl, rfl⟩) fun _ _ hflying => .inl hflying
  | unverified | aborted | superseded =>
    refine .live _ rfl (fun _ => ⟨rfl, rfl⟩) fun _ _ hflying => ?_
    cases hflying
  | closed f stamp hstate hf _ =>
    refine .live f rfl (fun e => by rw [hf e]; exact ⟨rfl, rfl⟩) fun entry _ hflying => ?_
    rw [hf entry] at hflying
    cases hflying

theorem Step.live_of_launches (h : Step pol w id s s') {n : Note} {t : Timestamp}
    (hr : s'.engine.records = s.engine.records ++ [.about id n t]) (hn : n.launches = true) :
    id ∈ s.engine.table := by
  have hrecord : ∀ {n'} {t'}, s.engine.records ++ [.about id n' t'] =
      s.engine.records ++ [.about id n t] → n' = n := fun heq => by
    cases List.append_cancel_left heq
    rfl
  have hnone : s.engine.records ≠ s.engine.records ++ [.about id n t] := by simp
  have hlive : ∀ {entry}, s.engine.table[id]? = some entry → id ∈ s.engine.table := fun hentry =>
    ExtTreeMap.mem_iff_isSome_getElem?.mpr (by rw [hentry]; rfl)
  cases h with
  | asked | failed | crashed | blob | observation | filed | headed | seated | rehydrated | idle
  | restored | counted | explained | resumed | indexed | escrowHeld | applied | observationNamed
  | closed | leafed | leafedAgain => exact absurd hr hnone
  | drafted => cases List.append_cancel_left hr
  | verifyStarted _ _ hentry => exact hlive hentry
  | ruled _ _ _ _ hentry => exact hlive hentry
  | opened _ _ hentry => exact hlive hentry
  | decided _ _ _ hentry => exact hlive hentry
  | canonicalized _ _ _ hentry => exact hlive hentry
  | committing _ _ hentry => exact hlive hentry
  | _ =>
    cases hrecord hr
    cases hn

omit [Canon] in
theorem TableMove.mem (h : TableMove pol w id s s') {other : TransformationId}
    (hmem : other ∈ s.engine.table) : other ∈ s'.engine.table := by
  cases h with
  | same ht => rwa [ht]
  | live f ht => rwa [ht, ExtTreeMap.mem_modify]
  | seats entry ht =>
    rw [ht, ExtTreeMap.mem_insert]
    exact .inr hmem

theorem Seated.step (h : Seated s.engine) (hstep : Step pol w id s s') : Seated s'.engine := by
  intro other state hstate hflying
  apply hstep.tableMove.mem
  rcases hstep.notes other with hsame | ⟨rfl, n, t, hr, hnotes⟩
  · rw [hsame] at hstate
    exact h other state hstate hflying
  · rw [hnotes, stateOf?_append] at hstate
    rcases Note.launches_or_stays hstate hflying with hn | hbefore
    · exact hstep.live_of_launches hr hn
    · exact h other state hbefore hflying

/-- A row denied under record-only is taken on only where it is alone. -/
def carriesAlone (conflicts : PlannedDelta → PlannedDelta → Bool) : Policy :=
  { Policy.any with
    carries := fun e id => ∀ entry, e.table[id]? = some entry → Alone conflicts e id entry }

theorem Undisputed.step (hw : Commuting w conflicts) (h : Undisputed conflicts s.engine)
    (hseated : Seated s.engine) (hstep : Step (carriesAlone conflicts) w id s s') :
    Undisputed conflicts s'.engine := by
  cases hstep.tableMove with
  | same ht =>
    intro a entry hentry hflying b row hb
    rw [ht] at hentry hb
    exact h a entry hentry hflying b row hb
  | live f ht hbody hstate =>
    refine h.change hw.symm id (fun other hne => ?_) fun entry hentry hflying => ?_
    · rw [ht, getElem?_modify_ne (Ne.symm hne)]
    · rw [ht, ExtTreeMap.getElem?_modify_self] at hentry
      obtain ⟨before, hbefore, rfl⟩ := Option.map_eq_some_iff.mp hentry
      obtain ⟨htransformation, hdelta⟩ := hbody before
      have halone : Alone conflicts s.engine id before := by
        rcases hstate before hbefore hflying with hold | hclear | ⟨_, hcarries⟩
        · exact h id before hbefore hold
        · intro other row hrow hne hsubject hrowflying
          obtain ⟨now, hanswer⟩ := hclear other row hrow hne hsubject
            (Lifecycle.inFlight_of_flying hrowflying)
          exact hw.commutes hanswer
        · exact hcarries before hbefore
      intro other row hrow hne hsubject hrowflying
      rw [htransformation] at hsubject
      rw [hdelta]
      exact halone other row hrow hne hsubject hrowflying
  | seats new ht hstate =>
    refine h.change hw.symm id (fun other hne => ?_) fun entry hentry hflying => ?_
    · rw [ht, ExtTreeMap.getElem?_insert]
      simp [Ne.symm hne]
    · rw [ht, ExtTreeMap.getElem?_insert_self] at hentry
      obtain rfl := Option.some.inj hentry
      rcases hstate with hidle | ⟨habsent, hjournal⟩
      · rw [hidle] at hflying
        cases hflying
      · cases hnotes : stateOf? (s.engine.notes id) with
        | none =>
          rw [hnotes] at hjournal
          rw [hjournal] at hflying
          cases hflying
        | some state =>
          rw [hnotes, Option.getD_some] at hjournal
          rw [hjournal] at hflying
          exact absurd (hseated id state hnotes hflying) habsent

/-- A call of the one process of a project, under any mode, that takes no denied row on while a
row in flight on its subject conflicts with it. -/
def CarriesAlone (conflicts : PlannedDelta → PlannedDelta → Bool) (p : Project) (a : Action) :
    Prop :=
  (∃ op, a = .call 0 op) ∧ ∀ s id stamp mode, p.calls a = some (s, .canonicalize id stamp mode) →
    mode.getD s.engine.config.mode = .recordOnly →
    ∀ entry, s.engine.table[id]? = some entry → entry.state = .denied →
      Alone conflicts s.engine id entry

/-- In the life of one process on a new project no two rows in flight on one subject conflict. -/
theorem flights_never_conflict {w : World} {conflicts : PlannedDelta → PlannedDelta → Bool}
    (hw : Commuting w conflicts) {config : Config} {p : Project}
    (h : (Project.empty.step w (.start 0 config)).Reaches w (CarriesAlone conflicts) p)
    {e : Engine} (he : p.process 0 = some e) : Undisputed conflicts e := by
  have hkept : Undisputed conflicts e ∧ Seated e := by
    refine Project.each_process (E := fun e => Undisputed conflicts e ∧ Seated e)
      (carriesAlone conflicts) h ?_ (fun p config ha => ?_) (fun p op e ha => ?_)
      (fun id s s' hstep hs => ⟨hs.1.step hw hs.2 hstep, hs.2.step hstep⟩) ?_
      (fun _ => trivial) e he
    · intro e he
      rw [Project.step, Project.process_set] at he
      obtain rfl := Option.some.inj he
      refine ⟨fun id entry hentry => ?_, fun id state hstate => ?_⟩
      · cases hentry
      · cases hstate
    · obtain ⟨⟨op, hop⟩, _⟩ := ha
      cases hop
    · obtain ⟨⟨op, hop⟩, _⟩ := ha
      cases hop
    · intro p a ha _ s op hcalls
      cases op with
      | canonicalize id stamp mode =>
        intro entry hentry hdenied hmode row hrow
        rw [← Option.some.inj (hentry.symm.trans hrow)]
        exact ha.2 s id stamp mode hcalls hmode entry hentry hdenied
      | plan => exact fun _ _ _ _ _ => trivial
      | undo => exact fun _ _ _ _ _ _ => trivial
      | commit => exact fun _ _ _ _ _ _ => trivial
      | recover => exact fun _ _ _ _ _ => trivial
      | _ => trivial
  exact hkept.1

end Kept

section RecordOnly

open Tracefold.Ideal

/-- A gate that denies one of two goals over deltas of which no two commute. -/
def denying : World := fun _ =>
  { envAt 1 with
    commutation := fun _ _ _ => .ok (.conflicts ⟨.fs, ⟨[]⟩⟩)
    gate := fun input => .ok ⟨if input.planned = [1] then .Deny else .Admit, some ⟨[7]⟩⟩ }

theorem denying_commuting : Commuting denying fun _ _ => true :=
  ⟨fun _ _ => rfl, nofun, fun _ => rfl⟩

/-- Two intents over one object, the first of them denied. -/
def denied : List Action :=
  [.call 0 (.submit (intentFor 1) 0 0), .call 0 (.plan (intentFor 1) 0),
    .call 0 (.submit (intentFor 2) 0 0), .call 0 (.plan (intentFor 2) 0),
    .call 0 (.verify (idFor 1 1) 1 "k" none)]

/-- The denied row is taken on before the other one asks, which then waits for it. -/
theorem flights_never_conflict_denied :
    let start := Project.empty.step denying (.start 0 Ideal.config)
    let p := start.run denying (denied ++
      [.call 0 (.canonicalize (idFor 1 1) 2 (some .recordOnly)),
        .call 0 (.verify (idFor 2 1) 2 "k" none)])
    ∀ e, p.process 0 = some e → Undisputed (fun _ _ => true) e := by
  have hother : ∀ {p : Project} {op : Op}, (∀ id stamp mode, op ≠ .canonicalize id stamp mode) →
      CarriesAlone (fun _ _ => true) p (.call 0 op) := by
    intro p op hop
    refine ⟨⟨op, rfl⟩, fun s id stamp mode hcalls => ?_⟩
    exact absurd (Option.some.inj (Project.calls_op hcalls)) (hop id stamp mode)
  intro start p e he
  have hdenied : start.Reaches denying (CarriesAlone fun _ _ => true) (start.run denying denied) := by
    refine Project.reaches_run fun a ha p => ?_
    simp only [denied, List.mem_cons, List.not_mem_nil, or_false] at ha
    rcases ha with rfl | rfl | rfl | rfl | rfl <;> exact hother (by simp)
  have hcarried : CarriesAlone (fun _ _ => true) (start.run denying denied)
      (.call 0 (.canonicalize (idFor 1 1) 2 (some .recordOnly))) := by
    refine ⟨⟨_, rfl⟩, fun s id stamp mode hcalls _ entry hentry _ => ?_⟩
    have halone : ((start.run denying denied).calls
        (.call 0 (.canonicalize (idFor 1 1) 2 (some .recordOnly)))).all (fun called =>
          (called.1.engine.table[idFor 1 1]?).all fun entry =>
            Alone (fun _ _ => true) called.1.engine (idFor 1 1) entry) = true := by
      decide
    cases Project.calls_op hcalls
    rw [hcalls, Option.all_some, hentry] at halone
    exact of_decide_eq_true halone
  have hverify : ∀ p : Project, CarriesAlone (fun _ _ => true) p
      (.call 0 (.verify (idFor 2 1) 2 "k" none)) := fun _ => hother (by simp)
  have hrun := (hdenied.step hcarried).step (hverify _)
  refine flights_never_conflict denying_commuting hrun ?_
  rw [← he]
  simp only [p, Project.run, List.foldl_append, List.foldl_cons, List.foldl_nil]

/-- The other row is verified while the first is denied, and then the denied one is taken on:
both are in flight on one object and conflict. -/
theorem denied_row_rejoins_a_conflict :
    let p := (Project.empty.step denying (.start 0 Ideal.config)).run denying (denied ++
      [.call 0 (.verify (idFor 2 1) 2 "k" none),
        .call 0 (.canonicalize (idFor 1 1) 2 (some .recordOnly))])
    Commuting denying (fun _ _ => true) ∧
      ∃ e, p.process 0 = some e ∧ ¬ Undisputed (fun _ _ => true) e := by
  intro p
  have hdisputed : (p.process 0).any (fun e => ¬ Undisputed (fun _ _ => true) e) = true := by
    decide
  obtain ⟨e, he, hnot⟩ := (Option.any_eq_true ..).mp hdisputed
  exact ⟨denying_commuting, e, he, of_decide_eq_true hnot⟩

end RecordOnly

end Tracefold
