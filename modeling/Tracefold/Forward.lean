import Mathlib.Tactic.Common
import Tracefold.Ideal
import Tracefold.Lawful

/-! No lifecycle rewind: the state the journal gives a transformation moves along the lifecycle. -/

namespace Tracefold

open Library Engine
open Std (ExtTreeMap)

/-- What one record does to the state of one transformation. -/
inductive Advances (id : TransformationId) (r : Record) :
    Option Lifecycle → Option Lifecycle → Prop where
  | stays (o : Option Lifecycle) : Advances id r o o
  | moves {o : Option Lifecycle} {state : Lifecycle} (h : Lifecycle.Edge o state) :
      Advances id r o (some state)
  | replanned (reason : AbortReason) (body : PlannedBody) (t : Timestamp)
      (hr : r = .about id (.planned body) t) (hundo : body.parents ≠ []) :
      Advances id r (some (.aborted reason)) (some .candidate)

/-- Every record of the journal moves every transformation along the lifecycle. -/
def Forward (journal : List Record) : Prop :=
  EveryEntry (fun before r => ∀ id,
    Advances id r (sigmaState before id) (sigmaState (before ++ [r]) id)) journal

theorem Forward.plan {journal before after : List Record} {id : TransformationId}
    {body : PlannedBody} {t : Timestamp} (h : Forward journal)
    (hj : journal = before ++ .about id (.planned body) t :: after) (hparents : body.parents = []) :
    sigmaState before id = none ∨ sigmaState before id = some .candidate := by
  have hadvances := h before _ after hj id
  have hafter : sigmaState (before ++ [.about id (.planned body) t]) id = some .candidate := by
    rw [sigmaState_eq, notesOf_append, notesOf_about, stateOf?_append]
    rfl
  rw [hafter] at hadvances
  generalize sigmaState before id = o at hadvances
  cases hadvances with
  | stays => exact .inr rfl
  | moves hedge => exact .inl (hedge.to_candidate rfl)
  | replanned reason body' t' hr hundo =>
    cases hr
    exact absurd hparents hundo

theorem advances_other {journal : List Record} {r : Record} {id : TransformationId}
    (h : notesOf id [r] = []) : Advances id r (sigmaState journal id)
      (sigmaState (journal ++ [r]) id) := by
  rw [sigmaState_eq, sigmaState_eq, notesOf_append, h, List.append_nil]
  exact .stays _

/-- A plan is a plan of what was not there, of a candidate again, or of an aborted undo. -/
def Replans (o : Option Lifecycle) (body : PlannedBody) : Prop :=
  o = none ∨ o = some .candidate ∨ (∃ reason, o = some (.aborted reason)) ∧ body.parents ≠ []

theorem Replans.advances {o : Option Lifecycle} {body : PlannedBody} (h : Replans o body)
    (id : TransformationId) (t : Timestamp) :
    Advances id (.about id (.planned body) t) o (some .candidate) := by
  rcases h with rfl | rfl | ⟨⟨reason, rfl⟩, hundo⟩
  · exact .moves .planned
  · exact .stays _
  · exact .replanned reason body t rfl hundo

theorem Legal.advances {o : Option Lifecycle} {n : Note} (h : Legal o n)
    (hn : ∀ body, n = .planned body → Replans o body) (id : TransformationId) (t : Timestamp) :
    Advances id (.about id n t) o (n.next o) := by
  cases n with
  | planned body => exact (hn body rfl).advances id t
  | provenanceDerived | inverseEscrowed | applyStarted | applyObserved | inverseCompleted =>
    exact .stays o
  | _ =>
    obtain ⟨_, state, _, hnext, hedge⟩ := h
    rw [hnext]
    exact .moves hedge

section Kept

variable [Canon]

variable {pol : Policy} {w : World} {id : TransformationId} {s s' : Sys}

/-- A run whose plans do not rewind: `plan` journals no row that the journal has past
`Candidate`. -/
def forwardOnly : Policy where
  plans e id := e.journalState id = none ∨ e.journalState id = some .candidate
  undos _ _ := True
  reapplies _ _ := True
  commits _ _ := True

theorem Step.replans [Canon.CollisionFree] (hs : Synced s.engine) (hi : Indexed s.engine)
    (hl : Lawful (s.engine.notes id)) (hstep : Step forwardOnly w id s s') {body : PlannedBody}
    {t : Timestamp} (hr : s'.engine.records = s.engine.records ++ [.about id (.planned body) t]) :
    Replans (stateOf? (s.engine.notes id)) body := by
  have hnone : s.engine.records ≠ s.engine.records ++ [.about id (.planned body) t] := by simp
  cases hstep with
  | planned intent shape stamp hid hsound hdraft halready hresolved hanew hpol =>
    rw [← Engine.journalState_eq]
    exact hpol.imp_right .inl
  | undone original entry inverse fp0 pre t' stage witness stamp horiginal hcommitted hescrow hid
      hmints hpre hstate =>
    cases List.append_cancel_left hr
    have hundo : (undoBody (Canon.intent (undoIntent entry inverse)) t' inverse fp0 pre stage
        witness).parents ≠ [] := by
      rw [show (undoBody (Canon.intent (undoIntent entry inverse)) t' inverse fp0 pre stage
        witness).parents = t'.parents from rfl, hmints.parents_eq]
      nofun
    rcases undo_replans hs hi (hid ▸ hmints.names) hl hstate with h | h | h
    · exact .inl h
    · exact .inr (.inl h)
    · exact .inr (.inr ⟨h, hundo⟩)
  | _ =>
    first
    | exact absurd hr hnone
    | cases List.append_cancel_left hr

/-- One move takes every transformation forward. -/
theorem Forward.step [Canon.CollisionFree] (hs : Synced s.engine) (hi : Indexed s.engine)
    (hl : ∀ id, Lawful (s.engine.notes id)) (hstep : Step forwardOnly w id s s')
    (h : Forward s.engine.records) : Forward s'.engine.records := by
  cases hw : hstep.writes with
  | nothing hr | leaf _ hr =>
    rw [hr]
    exact h
  | record r hr =>
    rw [hr]
    refine EveryEntry.append h fun other => ?_
    cases r with
    | draftCreated => exact advances_other rfl
    | about t n stamp =>
      by_cases hne : t = other
      · subst hne
        by_cases hid : id = t
        · subst hid
          rw [sigmaState_eq, sigmaState_eq, notesOf_append, notesOf_about, stateOf?_append]
          refine (hstep.legal hs hr).advances (fun body hbody => ?_) id stamp
          subst hbody
          exact hstep.replans hs hi (hl id) hr
        · have hframe := (hstep.frame hid).notes
          rw [Engine.notes, Engine.notes, hr, notesOf_append, notesOf_about] at hframe
          simp at hframe
      · exact advances_other (notesOf_other hne n stamp)

/-- What the files of a project keep of the lifecycle. -/
structure JournalForward (journal : List Record) : Prop where
  forward : Forward journal
  lawful : ∀ id, Lawful (notesOf id journal)
  named : ∀ id body, .planned body ∈ notesOf id journal → Named id body

theorem forward_kept [Canon.CollisionFree] (w : World) :
    Project.Kept w forwardOnly (fun _ disk => JournalForward disk.journal)
      (fun s => Synced s.engine ∧ Indexed s.engine) where
  init := ⟨EveryEntry.nil, fun _ => .nil, fun _ _ h => nomatch h⟩
  opens _ disk config hd := ⟨Synced.openThrough config disk, Indexed.openThrough config hd.named⟩
  step id s s' hin hd he hstep := by
    obtain ⟨hs, hi⟩ := he
    obtain ⟨hforward, hlawful, hnamed⟩ := hd
    rw [← hin.records] at hforward hlawful hnamed
    have hi' := hi.step hstep
    refine ⟨?_, hs.step hstep, hi'⟩
    rw [← (hin.writes hstep.writes).records]
    exact ⟨hforward.step hs hi hlawful hstep, Lawful.step hs hstep hlawful, hi'.named⟩

/-- `plan` does not mint the id of a transformation that the journal has past `Candidate`, where
neither of its guards stops it and it does not rehydrate the last resolution of the intent. -/
def PlansForward (w : World) (p : Project) (a : Action) : Prop :=
  ∀ s intent stamp, p.calls a = some (s, .plan intent stamp) →
    ∀ shape, (planShape intent stamp).answer w s = .ok shape →
      s.engine.plannedAlready (Canon.intent intent) = none →
      s.engine.resolvedAlready (Canon.intent intent) shape.id = none →
      s.engine.rehydrating (Canon.intent intent) shape.id = false →
      sigmaState s.engine.records shape.id = none ∨
        sigmaState s.engine.records shape.id = some .candidate

/-- In a run of one process, however often it is started again, in which no plan mints the id of
a transformation past `Candidate`, every transformation only moves along the lifecycle. -/
theorem journal_moves_forward [Canon.CollisionFree] {w : World} {p : Project}
    (h : Project.empty.Reaches w (fun p a => a.Solo ∧ PlansForward w p a) p) : Forward p.disk.journal := by
  have hkept := (forward_kept w).solo h (fun _ _ ha => ha.1) fun p a ha s op hcalls => ?_
  · exact hkept.1.forward
  · cases op with
    | plan intent stamp => exact ha.2 s intent stamp hcalls
    | undo original witness rngSeed stamp => exact fun _ _ _ _ _ _ => trivial
    | commit id stamp key => exact fun _ _ _ _ _ _ => trivial
    | recover stamp key => exact fun _ _ _ _ _ => trivial
    | canonicalize => exact fun _ _ _ _ => trivial
    | _ => trivial

end Kept

section Rewind

open Tracefold.Ideal

/-- The object goes to its second version and back. -/
def backAndForth : World := fun history =>
  if history.length < 5 then envAt 1 else if history.length < 10 then envAt 2 else envAt 1

/-- The intent is planned over both versions, the first plan is cancelled, and after a restart the
intent is planned over the first version again. -/
def replanning : List Action :=
  [.start 0 config, .call 0 (.submit intent 0 0), .call 0 (.plan intent 0), .call 0 (.plan intent 0),
    .call 0 (.cancel (idAt 1) 1), .start 0 config, .call 0 (.plan intent 1)]

/-- A transformation that was aborted is a candidate again, and no undo planned it. -/
theorem journal_can_rewind :
    ¬ ∀ (w : World) (p : Project), Project.empty.Reaches w (fun _ a => a.Solo) p →
      Forward p.disk.journal := by
  intro h
  have hforward := h backAndForth (Project.empty.run backAndForth replanning)
    (Project.reaches_run fun a ha _ => (by decide : ∀ a ∈ replanning, a.Solo) a ha)
  have hjournal : (Project.empty.run backAndForth replanning).disk.journal =
      (Project.empty.run backAndForth replanning).disk.journal.take 4 ++
        [.about (idAt 1) (.planned (bodyAt 1)) 1] := by decide
  have hbefore : sigmaState ((Project.empty.run backAndForth replanning).disk.journal.take 4)
      (idAt 1) = some (.aborted .ownerCancelled) := by decide
  rcases hforward.plan hjournal rfl with hnone | hcandidate
  · rw [hbefore] at hnone
    cases hnone
  · rw [hbefore] at hcandidate
    cases hcandidate

theorem plansForward_of_op {w : World} {p : Project} {a : Action}
    (h : ∀ intent stamp, a.op? ≠ some (.plan intent stamp)) : PlansForward w p a :=
  fun _ intent stamp hcalls => absurd (Project.calls_op hcalls) (h intent stamp)

theorem plansForward_of_new {w : World} {p : Project} {pid : ℕ} {intent : Intent} {stamp : Timestamp}
    (h : (p.calls (.call pid (.plan intent stamp))).all (fun called =>
      ((planShape intent stamp).answer w called.1).toOption.all fun shape =>
        sigmaState called.1.engine.records shape.id = none) = true) :
    PlansForward w p (.call pid (.plan intent stamp)) := by
  intro s intent' stamp' hcalls shape hshape _ _ _
  obtain ⟨rfl, rfl⟩ := Op.plan.inj (Option.some.inj (Project.calls_op hcalls))
  rw [hcalls] at h
  rw [Option.all_some, hshape] at h
  exact .inl (of_decide_eq_true h)

/-- A change is committed, and after a restart the next one is planned. -/
def restarted : List Action :=
  committed 1 ++
    [.start 0 config, .call 0 (.submit (intentFor 5) 0 3), .call 0 (.plan (intentFor 5) 3)]

theorem journal_moves_forward_restarted :
    let w := objectFrom 1 fun _ env => env
    sigmaState (Project.empty.run w restarted).disk.journal (idAt 1) = some .committed ∧
      sigmaState (Project.empty.run w restarted).disk.journal (idFor 5 2) = some .candidate ∧
      Forward (Project.empty.run w restarted).disk.journal := by
  intro w
  have hplain : ∀ (p : Project) (a : Action), a.Solo →
      (∀ intent stamp, a.op? ≠ some (.plan intent stamp)) → a.Solo ∧ PlansForward w p a :=
    fun _ _ hsolo hop => ⟨hsolo, plansForward_of_op hop⟩
  have hreached : Project.empty.Reaches w (fun p a => a.Solo ∧ PlansForward w p a)
      (Project.empty.run w restarted) := by
    refine Project.Reaches.refl.run ⟨hplain _ _ rfl ?_, hplain _ _ rfl ?_, ⟨rfl, ?_⟩,
      hplain _ _ rfl ?_, hplain _ _ rfl ?_, hplain _ _ rfl ?_, hplain _ _ rfl ?_, hplain _ _ rfl ?_,
      ⟨rfl, ?_⟩, trivial⟩
    case refine_3 => exact plansForward_of_new (by decide)
    case refine_9 => exact plansForward_of_new (by decide)
    all_goals simp [Action.op?]
  exact ⟨by decide, by decide, journal_moves_forward hreached⟩

end Rewind

end Tracefold
