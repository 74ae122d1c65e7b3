import Mathlib.Tactic.Common
import Tracefold.Ends
import Tracefold.Ideal

/-! The HTTP face over an engine: the rebuilding of a body a process does not hold, which the two
read handlers and every write handler go through, and what it writes. -/

namespace Tracefold

open Library Engine

/-- `DraftArchive::load`: the intents a server was given to rebuild bodies from. -/
abbrev Drafts := IntentId → Option Intent

namespace Engine

/-- A program whose refusal is dropped, as `let _ =` does. -/
def dropped (x : M α) : M Unit := fun w s =>
  match x w s with
  | (.error .crash, s') => (.error .crash, s')
  | (_, s') => (.ok (), s')

variable [Canon]

/-- `Engine::catch_up_unlocked`, which repairs neither file. -/
def refreshed : M Unit := Prog.modify fun s => s.withEngine fun e => e.catchUp s.disk

/-- `Engine::planned_id`. -/
def plannedId (intent : Intent) (at_ : Timestamp) : M TransformationId := do
  let shape ← planShape intent at_
  return shape.id

end Engine

namespace Handlers

variable [Canon]

/-- `handlers::rebuilt` over the intent the archive holds. -/
def rebuiltFrom (id : TransformationId) (intent : Intent) (lifecycle : Lifecycle)
    (at_ : Timestamp) : M Bool := do
  if lifecycle = .committed ∨ lifecycle = .superseded then rehydrateCommitted id intent
  else if lifecycle.isTerminal then return false
  else
    let planned ← plannedId intent at_
    refuseIf (planned ≠ id) (.invalidState lifecycle.name "re-plan; it names another one now")
    let replanned ← plan intent at_
    refuseIf (replanned ≠ id) .notIdempotent
    return true

/-- `handlers::rebuilt`. -/
def rebuilt (drafts : Drafts) (id : TransformationId) (at_ : Timestamp) : M Bool := do
  let e ← self
  match e.state id with
  | none => return false
  | some lifecycle =>
    match (e.intentOf id).bind drafts with
    | none => return false
    | some intent => rebuiltFrom id intent lifecycle at_

/-- `handlers::with_a_body`: a body held or rebuilt, or the refusal that names the state. A row
the journal never named is left to the engine's own answer. -/
def withABody (drafts : Drafts) (id : TransformationId) (at_ : Timestamp) : M Unit := do
  let e ← self
  if id ∈ e.table then pure ()
  else
    if ← rebuilt drafts id at_ then pure ()
    else whenSome (e.state id) fun state => fail (.invalidState state.name "write")

/-- What both read handlers do first. -/
def readFace (drafts : Drafts) (id : TransformationId) (at_ : Timestamp) : M Unit := do
  refreshed
  let e ← self
  if id ∈ e.table then pure () else dropped (rebuilt drafts id at_)

/-- The answer of `GET /candidates/{id}`. -/
structure CandidateView where
  transformation : Option Transformation
  state : Option String
  verdict : Option VerdictKind
  fingerprint : Option FingerprintRecord

/-- The answer of `GET /transformations/{id}`. -/
structure TransformationBody where
  transformation : Option Transformation
  state : Option Lifecycle
  receipt : Option Receipt
  supersededBy : Option TransformationId
  rollback : Option Rollback
  inverseStatus : Option InverseStatus

/-- A row neither the table nor the journal has. -/
def requireKnown (e : Engine) (id : TransformationId) : M Unit :=
  refuseIf (e.state id = none ∧ id ∉ e.table) (.notFound "transformation")

def getCandidate (drafts : Drafts) (id : TransformationId) (at_ : Timestamp) :
    M CandidateView := do
  readFace drafts id at_
  let e ← self
  requireKnown e id
  return {
    transformation := e.table[id]?.map (·.transformation)
    state := (e.state id).map (·.name)
    verdict := e.verdict id
    fingerprint := e.table[id]?.map fun entry => .ofFingerprint entry.fp0 }

def getTransformation (drafts : Drafts) (id : TransformationId) (at_ : Timestamp) :
    M TransformationBody := do
  readFace drafts id at_
  let s ← Prog.get
  requireKnown s.engine id
  return {
    transformation := s.engine.table[id]?.map (·.transformation)
    state := s.engine.state id
    receipt := s.engine.table[id]?.bind (·.receipt) <|> s.disk.receipts[id]?
    supersededBy := s.engine.supersededBy id
    rollback := s.engine.rollback id
    inverseStatus := s.engine.inverseStatus s.disk id }

end Handlers

/-- Neither of the two files that make up Σ was written to. -/
structure Unwritten (s s' : Sys) : Prop where
  journal : s'.disk.journal = s.disk.journal
  ledger : s'.disk.ledger = s.disk.ledger
  sigma : reconstruct s'.disk.journal = reconstruct s.disk.journal

theorem Unwritten.of_files {s s' : Sys} (hj : s'.disk.journal = s.disk.journal)
    (hl : s'.disk.ledger = s.disk.ledger) : Unwritten s s' :=
  ⟨hj, hl, congrArg reconstruct hj⟩

theorem Unwritten.of_disk {s s' : Sys} (h : s'.disk = s.disk) : Unwritten s s' :=
  .of_files (by rw [h]) (by rw [h])

theorem Unwritten.trans {s s' s'' : Sys} (h : Unwritten s s') (h' : Unwritten s' s'') :
    Unwritten s s'' :=
  .of_files (h'.journal.trans h.journal) (h'.ledger.trans h.ledger)

theorem Unwritten.withEngine {s s' : Sys} (h : Unwritten s s') (f : Engine → Engine) :
    Unwritten s (s'.withEngine f) :=
  .of_files h.journal h.ledger

/-- A record stands in the journal that was not there. -/
def Written (s s' : Sys) : Prop := s.disk.journal.length < s'.disk.journal.length

instance (s s' : Sys) : Decidable (Written s s') := inferInstanceAs (Decidable (_ < _))

theorem Written.not_unwritten {s s' : Sys} (h : Written s s') : ¬ Unwritten s s' := by
  intro hu
  rw [Written, hu.journal] at h
  exact Nat.lt_irrefl _ h

theorem Written.after {s s' s'' : Sys} (h' : Written s' s'') (h : Unwritten s s') :
    Written s s'' := by
  rw [Written, h.journal] at h'
  exact h'

section Kept

variable [Canon]

variable {w : World} {s : Sys} {E : Sys → Prop}

namespace Engine

theorem ends_blobPut_any {d : PlannedDelta} {Q : Unit → Sys → Prop}
    (hstop : ∀ s', Unwritten s s' → E s') (h : ∀ s', Unwritten s s' → Q () s') :
    Prog.Ends w (blobPut d) s E Q := by
  refine ends_blobPut_still (fun s' _ hj hl => ?_) fun s' _ hj hl => ?_
  · exact hstop s' (.of_files hj hl)
  · exact h s' (.of_files hj hl)

theorem ends_planShape {intent : Intent} {stamp : Timestamp} {Q : PlanShape → Sys → Prop}
    (hstop : ∀ s', s'.disk = s.disk → s'.engine = s.engine → E s')
    (h : ∀ shape s', s'.disk = s.disk → s'.engine = s.engine → Q shape s') :
    Prog.Ends w (planShape intent stamp) s E Q := by
  refine .bind (ends_adapter (hstop _ rfl rfl) fun _ => ?_)
  refine .bind (ends_queryOr (hstop _ rfl rfl) fun pre _ => ?_)
  refine .bind (ends_queryOr (hstop _ rfl rfl) fun delta _ => ?_)
  refine .bind (ends_queryOr (hstop _ rfl rfl) fun fp0 _ => ?_)
  exact .bind (.orThrow (fun _ => hstop _ rfl rfl) fun t _ => .pure (h _ _ rfl rfl))

theorem planShape_reads (intent : Intent) (stamp : Timestamp) (w : World) (s : Sys) :
    ((planShape intent stamp).final w s).disk = s.disk ∧
      ((planShape intent stamp).final w s).engine = s.engine :=
  Prog.Ends.final (E := fun s' => s'.disk = s.disk ∧ s'.engine = s.engine)
    (ends_planShape (fun _ hd he => ⟨hd, he⟩) fun _ _ hd he => ⟨hd, he⟩)

end Engine

/-- `plan` gets through to a `Planned` record that the journal takes: the intent is drafted, none
of its rows answers for it, and what it names is not the last id it resolved to. -/
structure PlansAnew (w : World) (s : Sys) (intent : Intent) (stamp : Timestamp) : Prop where
  drafted : Canon.intent intent ∈ s.engine.drafted
  planned : s.engine.plannedAlready (Canon.intent intent) = none
  shape : ∃ shape, (planShape intent stamp).answer w s = .ok shape ∧
    s.engine.resolvedAlready (Canon.intent intent) shape.id = none ∧
    s.engine.rehydrating (Canon.intent intent) shape.id = false
  lands : (w ((planShape intent stamp).final w s).history).fault = .none

theorem planAnew_writes {intent : Intent} {shape : PlanShape} {stamp : Timestamp}
    (hlands : (w s.history).fault = .none) :
    Prog.Ends w (planAnew intent shape stamp) s (Written s) fun _ s' => Written s s' := by
  have hno : ∀ {fault : Fault} {P : Prop}, fault ≠ .none → (w s.history).fault = fault → P := by
    intro fault P hne hfault
    exact absurd (hfault.symm.trans hlands) hne
  refine .bind (ends_self (.bind (ends_noteThen_any (hno nofun) (hno nofun) fun _ => ?_)))
  have hwritten : ∀ {s₁ s₂ : Sys} {record : Record}, s₁.disk.journal = s.disk.journal ++ [record] →
      Unwritten s₁ s₂ → Written s s₂ := by
    intro s₁ s₂ record h₁ h₂
    rw [Written, h₂.journal, h₁, List.length_append]
    exact Nat.lt_succ_self _
  refine .bind (ends_blobPut_any (fun _ hs₁ => hwritten rfl hs₁) fun s₁ hs₁ => ?_)
  exact .bind (ends_update (.pure (hwritten rfl (hs₁.withEngine _))))

theorem planAnew_reads {intent : Intent} {shape : PlanShape} {stamp : Timestamp}
    (hfault : (w s.history).fault ≠ .none) :
    Prog.Ends w (planAnew intent shape stamp) s (Unwritten s) fun _ s' => Unwritten s s' := by
  refine .bind (ends_self (.bind (ends_noteThen_any ?_ ?_ fun hnone => ?_)))
  · exact fun _ => .of_disk rfl
  · exact fun _ => .of_disk rfl
  · exact absurd hnone hfault

theorem plan_writes {intent : Intent} {stamp : Timestamp} (h : PlansAnew w s intent stamp) :
    Prog.Ends w (plan intent stamp) s (Written s) fun _ s' => Written s s' := by
  obtain ⟨hdraft, hplanned, ⟨shape, hshape, hresolved, hanew⟩, hlands⟩ := h
  obtain ⟨hdisk, hengine⟩ := planShape_reads intent stamp w s
  refine .bind (ends_self (.bind (ends_refuseIf (fun hno => absurd hdraft hno) fun _ => ?_)))
  rw [hplanned]
  refine .bind (.of_outcome (fun e he => ?_) fun shape' hshape' => ?_)
  · rw [hshape] at he
    cases he
  obtain rfl : shape = shape' := Except.ok.inj (hshape.symm.trans hshape')
  refine .bind (ends_self ?_)
  rw [hengine, hresolved]
  refine .ite (fun hre => ?_) fun _ => ?_
  · rw [hanew] at hre
    cases hre
  have hread : Unwritten s ((planShape intent stamp).final w s) := .of_disk hdisk
  exact (planAnew_writes hlands).weaken (fun _ hs' => hs'.after hread) fun _ _ hs' => hs'.after hread

theorem plan_reads {intent : Intent} {stamp : Timestamp} (h : ¬ PlansAnew w s intent stamp) :
    Prog.Ends w (plan intent stamp) s (Unwritten s) fun _ s' => Unwritten s s' := by
  have hsame : Unwritten s s := .of_disk rfl
  obtain ⟨hdisk, hengine⟩ := planShape_reads intent stamp w s
  have hread : Unwritten s ((planShape intent stamp).final w s) := .of_disk hdisk
  refine .bind (ends_self (.bind (ends_refuseIf (fun _ => hsame) fun hdraft => ?_)))
  split
  next => exact ends_fail hsame
  next hplanned =>
    refine .bind (.of_outcome (fun _ _ => hread) fun shape hshape => .bind (ends_self ?_))
    rw [hengine]
    split
    next => exact ends_fail hread
    next hresolved =>
      refine .ite (fun _ => ?_) fun hanew => ?_
      · refine .bind (ends_blobPut_any (fun s' hs' => hread.trans hs') fun s' hs' => ?_)
        exact .bind (ends_self (.bind (ends_update (.pure (hread.trans (hs'.withEngine _))))))
      · refine (planAnew_reads fun hlands => ?_).weaken (fun _ hs' => hread.trans hs')
          fun _ _ hs' => hread.trans hs'
        exact h ⟨not_not.mp hdraft, hplanned, ⟨shape, hshape, hresolved, by simpa using hanew⟩,
          hlands⟩

omit [Canon] in
theorem ends_rebuiltTarget {kind : SubstrateKind} {intent : Intent} {pre : ObjectSnapshot}
    {parents : List TransformationId} {Q : Option Cid → Sys → Prop}
    (hstop : ∀ s', s'.disk = s.disk → E s') (h : ∀ target s', s'.disk = s.disk → Q target s') :
    Prog.Ends w (rebuiltTarget kind intent pre parents) s E Q := by
  refine .ite (fun _ => ?_) fun _ => .pure (h none s rfl)
  exact .bind (ends_queryOr (hstop _ rfl) fun delta _ => .pure (h _ _ rfl))

theorem rehydrateCommitted_reads {id : TransformationId} {intent : Intent} :
    Prog.Ends w (rehydrateCommitted id intent) s (Unwritten s) fun _ s' => Unwritten s s' := by
  have hsame : ∀ {s' : Sys}, s'.disk = s.disk → Unwritten s s' := .of_disk
  refine .bind (ends_self (.ite (fun _ => .pure (hsame rfl)) fun _ => ?_))
  split
  next => exact .pure (hsame rfl)
  next row _ =>
    refine .ite (fun _ => .bind ?_) fun _ => .pure (hsame rfl)
    refine .bind (ends_self (.bind (.orThrow (fun _ => hsame rfl) fun provenance _ => ?_)))
    refine .bind (.orThrow (fun _ => hsame rfl) fun intentId _ => ?_)
    refine .bind (.orThrow (fun _ => hsame rfl) fun deltaCid _ => ?_)
    refine .bind (ends_blobGet (hsame rfl) fun delta _ => ?_)
    refine .bind (.orThrow (fun _ => hsame rfl) fun fp0 _ => ?_)
    refine .bind (.orThrow (fun _ => hsame rfl) fun planned _ => ?_)
    refine .bind (.orThrow (fun _ => hsame rfl) fun subject _ => ?_)
    refine .bind (ends_adapter (hsame rfl) fun _ => ?_)
    refine .bind (ends_queryOr (hsame rfl) fun pre _ => ?_)
    refine .bind (ends_rebuiltTarget (fun _ hs₁ => hsame hs₁) fun target s₁ hs₁ => ?_)
    refine .bind (.orThrow (fun _ => hsame hs₁) fun t _ => ?_)
    refine .bind (ends_refuseIf (fun _ => hsame hs₁) fun _ => ?_)
    exact ends_update (.pure ((hsame hs₁).withEngine _))

namespace Handlers

/-- A request for a row without a live body gets through to a new `Planned` record: the row is in
a state that is not terminal, the archive has its intent, planning that intent names the row, and
planning it again writes. -/
structure Replans (w : World) (s : Sys) (drafts : Drafts) (id : TransformationId)
    (at_ : Timestamp) : Prop where
  absent : id ∉ s.engine.table
  open_ : ∃ state, s.engine.state id = some state ∧ state.isTerminal = false
  replanned : ∃ intent, (s.engine.intentOf id).bind drafts = some intent ∧
    (∃ shape, (planShape intent at_).answer w s = .ok shape ∧ shape.id = id) ∧
    PlansAnew w ((planShape intent at_).final w s) intent at_

variable {drafts : Drafts} {id : TransformationId} {at_ : Timestamp}

/-- Rebuilding a body writes exactly where the row is planned again. -/
theorem rebuiltFrom_ends {intent : Intent} {state : Lifecycle} {E : Sys → Prop}
    (hre : state.isTerminal = true → ∀ s', Unwritten s s' → E s')
    (hstop : (∀ shape, (planShape intent at_).answer w s = .ok shape → shape.id ≠ id) →
      E ((planShape intent at_).final w s))
    (hplan : state.isTerminal = false →
      (∃ shape, (planShape intent at_).answer w s = .ok shape ∧ shape.id = id) →
      Prog.Ends w (plan intent at_) ((planShape intent at_).final w s) E fun _ s' => E s') :
    Prog.Ends w (rebuiltFrom id intent state at_) s E fun _ s' => E s' := by
  refine .ite (fun hclosed => ?_) fun _ => .ite (fun hterminal => ?_) fun hopen => ?_
  · have hterminal : state.isTerminal = true := by
      rcases hclosed with rfl | rfl <;> rfl
    exact rehydrateCommitted_reads.weaken (hre hterminal) fun _ => hre hterminal
  · exact .pure (hre hterminal s (.of_disk rfl))
  · refine .bind (.bind (.of_outcome (fun e he => ?_) fun shape hshape => .pure ?_))
    · exact hstop fun shape hshape => by rw [he] at hshape; cases hshape
    refine .bind (ends_refuseIf (fun hother => ?_) fun hsame => .bind ?_)
    · refine hstop fun shape' hshape' => ?_
      rw [← Except.ok.inj (hshape.symm.trans hshape')]
      exact hother
    · refine (hplan (by simpa using hopen) ⟨shape, hshape, not_not.mp hsame⟩).mono fun id' s' hs' => ?_
      exact .bind (ends_refuseIf (fun _ => hs') fun _ => .pure hs')

theorem rebuilt_reads (habsent : id ∉ s.engine.table) (h : ¬ Replans w s drafts id at_) :
    Prog.Ends w (rebuilt drafts id at_) s (Unwritten s) fun _ s' => Unwritten s s' := by
  have hsame : Unwritten s s := .of_disk rfl
  refine .bind (ends_self ?_)
  split
  next => exact .pure hsame
  next state hstate =>
    split
    next => exact .pure hsame
    next intent hintent =>
      have hread : Unwritten s ((planShape intent at_).final w s) :=
        .of_disk (planShape_reads intent at_ w s).1
      refine rebuiltFrom_ends (fun _ _ hs' => hs') (fun _ => hread) fun hopen hshape => ?_
      refine (plan_reads fun hanew => ?_).weaken (fun _ hs' => hread.trans hs')
        fun _ _ hs' => hread.trans hs'
      exact h ⟨habsent, ⟨state, hstate, hopen⟩, intent, hintent, hshape, hanew⟩

theorem rebuilt_writes (h : Replans w s drafts id at_) :
    Prog.Ends w (rebuilt drafts id at_) s (Written s) fun _ s' => Written s s' := by
  obtain ⟨habsent, ⟨state, hstate, hopen⟩, intent, hintent, ⟨shape, hshape, hid⟩, hanew⟩ := h
  refine .bind (ends_self ?_)
  rw [hstate, hintent]
  have hread : Unwritten s ((planShape intent at_).final w s) :=
    .of_disk (planShape_reads intent at_ w s).1
  refine rebuiltFrom_ends (fun hterminal => ?_) (fun hother => ?_) fun _ _ => ?_
  · rw [hopen] at hterminal
    cases hterminal
  · exact absurd hid (hother shape hshape)
  · exact (plan_writes hanew).weaken (fun _ hs' => hs'.after hread) fun _ _ hs' => hs'.after hread

omit [Canon] in
theorem ends_dropped {α : Type} {x : M α} {P : Sys → Prop} {Q : Unit → Sys → Prop}
    (h : Prog.Ends w x s P fun _ s' => P s') (hstop : ∀ s', P s' → E s')
    (hanswer : ∀ s', P s' → Q () s') : Prog.Ends w (dropped x) s E Q := by
  have hfinal := h.final
  unfold Prog.Ends dropped
  rcases hx : x w s with ⟨r, s'⟩
  rw [Prog.final, hx] at hfinal
  cases r with
  | ok a => exact hanswer s' hfinal
  | error stop =>
    cases stop with
    | crash => exact hstop s' hfinal
    | err why => exact hanswer s' hfinal

/-- The engine a read handler answers from. -/
abbrev caughtUp (s : Sys) : Sys := s.withEngine fun e => e.catchUp s.disk

/-- What a read handler leaves is what the rebuilding leaves, from the engine it has caught up. -/
theorem ends_readFace {P : Sys → Prop} {Q : Unit → Sys → Prop}
    (hheld : id ∈ (caughtUp s).engine.table → P (caughtUp s))
    (hrebuilt : id ∉ (caughtUp s).engine.table →
      Prog.Ends w (rebuilt drafts id at_) (caughtUp s) P fun _ s' => P s')
    (hstop : ∀ s', P s' → E s') (hanswer : ∀ s', P s' → Q () s') :
    Prog.Ends w (readFace drafts id at_) s E Q := by
  refine .bind (.modify (.bind (ends_self (.ite (fun hin => ?_) fun hout => ?_))))
  · exact .pure (hanswer _ (hheld hin))
  · exact ends_dropped (hrebuilt hout) hstop hanswer

theorem readFace_reads (h : ¬ Replans w (caughtUp s) drafts id at_) :
    Prog.Ends w (readFace drafts id at_) s (Unwritten s) fun _ s' => Unwritten s s' := by
  have hcaught : Unwritten s (caughtUp s) := .of_disk rfl
  exact ends_readFace (P := Unwritten (caughtUp s)) (fun _ => .of_disk rfl)
    (fun hout => rebuilt_reads hout h) (fun _ hs' => hcaught.trans hs') fun _ hs' => hcaught.trans hs'

theorem readFace_writes (h : Replans w (caughtUp s) drafts id at_) :
    Prog.Ends w (readFace drafts id at_) s (Written s) fun _ s' => Written s s' :=
  ends_readFace (P := Written (caughtUp s)) (fun hin => absurd hin h.absent)
    (fun _ => rebuilt_writes h) (fun _ hs' => hs') fun _ hs' => hs'

omit [Canon] in
theorem ends_requireKnown {e : Engine} {Q : Unit → Sys → Prop} (hstop : E s) (h : Q () s) :
    Prog.Ends w (requireKnown e id) s E Q :=
  ends_refuseIf (fun _ => hstop) fun _ => h

theorem ends_getCandidate {P : Sys → Prop}
    (h : Prog.Ends w (readFace drafts id at_) s P fun _ s' => P s') :
    P ((getCandidate drafts id at_).final w s) :=
  Prog.Ends.final (.bind (h.mono fun _ _ hs' =>
    .bind (ends_self (.bind (ends_requireKnown hs' (.pure hs'))))))

theorem ends_getTransformation {P : Sys → Prop}
    (h : Prog.Ends w (readFace drafts id at_) s P fun _ s' => P s') :
    P ((getTransformation drafts id at_).final w s) :=
  Prog.Ends.final (.bind (h.mono fun _ _ hs' =>
    .bind (.get (.bind (ends_requireKnown hs' (.pure hs'))))))

theorem ends_withABody {P : Sys → Prop} (hheld : id ∈ s.engine.table → P s)
    (h : id ∉ s.engine.table → Prog.Ends w (rebuilt drafts id at_) s P fun _ s' => P s') :
    P ((withABody drafts id at_).final w s) := by
  refine Prog.Ends.final (.bind (ends_self (.ite (fun hin => .pure (hheld hin)) fun hout => ?_)))
  refine .bind ((h hout).mono fun found s' hs' => .ite (fun _ => .pure hs') fun _ => ?_)
  exact ends_whenSome (fun _ _ => ends_fail hs') fun _ => hs'

/-- From every state of the engine and of the files, whatever the archive holds: a read request
writes to the journal or the ledger exactly when the row it is about is planned anew, and so does
the rebuilding a write handler starts with. -/
theorem requests_write_only_by_replanning (w : World) (s : Sys) (drafts : Drafts)
    (id : TransformationId) (at_ : Timestamp) :
    (Unwritten s ((getCandidate drafts id at_).final w s) ↔
        ¬ Replans w (caughtUp s) drafts id at_) ∧
      (Unwritten s ((getTransformation drafts id at_).final w s) ↔
        ¬ Replans w (caughtUp s) drafts id at_) ∧
      (Unwritten s ((withABody drafts id at_).final w s) ↔ ¬ Replans w s drafts id at_) := by
  refine ⟨⟨fun hu hre => ?_, fun hno => ?_⟩, ⟨fun hu hre => ?_, fun hno => ?_⟩,
    fun hu hre => ?_, fun hno => ?_⟩
  · exact (ends_getCandidate (readFace_writes hre)).not_unwritten hu
  · exact ends_getCandidate (readFace_reads hno)
  · exact (ends_getTransformation (readFace_writes hre)).not_unwritten hu
  · exact ends_getTransformation (readFace_reads hno)
  · have hwritten : Written s ((withABody drafts id at_).final w s) :=
      ends_withABody (fun hin => absurd hin hre.absent) fun _ => rebuilt_writes hre
    exact hwritten.not_unwritten hu
  · exact ends_withABody (fun _ => .of_disk rfl) fun hout => rebuilt_reads hout hno

end Handlers

end Kept

section Returned

open Tracefold.Ideal Handlers

/-- An object that moves on after the intent was planned, and comes back later. -/
def movedAndBack : World := fun history =>
  envAt (if history.length < 6 then 1 else if history.length < 10 then 2 else 1)

/-- An intent planned over two versions of its object, and a restart. -/
def plannedTwice : List Action :=
  [.start 0 Ideal.config, .call 0 (.submit intent 0 0), .call 0 (.plan intent 0),
    .call 0 (.plan intent 0), .start 0 Ideal.config]

/-- With the object back where the first plan saw it, a read of that candidate plans it anew. -/
theorem read_of_a_returned_candidate_writes :
    let p := Project.empty.run movedAndBack plannedTwice
    ∃ e, p.process 0 = some e ∧ ¬ Unwritten ⟨p.history, p.disk, e⟩
      ((getCandidate (fun _ => some intent) (idAt 1) 9).final movedAndBack
        ⟨p.history, p.disk, e⟩) := by
  intro p
  have hwritten : (p.process 0).any (fun e => Written ⟨p.history, p.disk, e⟩
      ((getCandidate (fun _ => some intent) (idAt 1) 9).final movedAndBack
        ⟨p.history, p.disk, e⟩)) = true := by
    decide
  obtain ⟨e, he, hlonger⟩ := (Option.any_eq_true ..).mp hwritten
  exact ⟨e, he, Written.not_unwritten (of_decide_eq_true hlonger)⟩

end Returned

end Tracefold
