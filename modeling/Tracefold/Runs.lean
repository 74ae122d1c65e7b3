import Mathlib.Tactic.Common
import Tracefold.Moves.Recover

/-! Runs of operations over the files of a project, with restarts, and what every run keeps. -/

namespace Tracefold

open Library Engine Relation

/-- A process that has read all of both files. -/
structure InStep (s : Sys) : Prop where
  records : s.engine.records = s.disk.journal
  ledger : s.engine.ledger = s.disk.ledger

/-- A move writes the same records to the file, to the history and to the process's copy. -/
inductive Writes (s s' : Sys) : Prop where
  | nothing (hr : s'.engine.records = s.engine.records) (hj : s'.disk.journal = s.disk.journal)
      (hl : s'.engine.ledger = s.engine.ledger) (hd : s'.disk.ledger = s.disk.ledger)
  | record (r : Record) (hr : s'.engine.records = s.engine.records ++ [r])
      (hj : s'.disk.journal = s.disk.journal ++ [r])
      (hl : s'.engine.ledger = s.engine.ledger) (hd : s'.disk.ledger = s.disk.ledger)
  | leaf (leaf : LedgerEntry) (hr : s'.engine.records = s.engine.records)
      (hj : s'.disk.journal = s.disk.journal)
      (hl : s'.engine.ledger = s.engine.ledger ++ [leaf])
      (hd : s'.disk.ledger = s.disk.ledger ++ [leaf])

theorem InStep.writes {s s' : Sys} (h : InStep s) (hw : Writes s s') : InStep s' := by
  cases hw with
  | nothing hr hj hl hd => exact ⟨by rw [hr, hj, h.records], by rw [hl, hd, h.ledger]⟩
  | record r hr hj hl hd => exact ⟨by rw [hr, hj, h.records], by rw [hl, hd, h.ledger]⟩
  | leaf leaf hr hj hl hd => exact ⟨by rw [hr, hj, h.records], by rw [hl, hd, h.ledger]⟩

instance (a : Action) : Decidable a.Solo := by
  cases a <;> unfold Action.Solo <;> infer_instance

instance (a : Action) : Decidable a.Locked := by
  cases a <;> unfold Action.Locked <;> infer_instance

@[simp]
theorem Project.process_set (p : Project) (pid : ℕ) (e : Option Engine) :
    (p.set pid e).process pid = e := if_pos rfl

theorem Project.process_set_ne {p : Project} {pid q : ℕ} {e : Option Engine} (h : q ≠ pid) :
    (p.set pid e).process q = p.process q := if_neg h

/-- The process an action is of. -/
def Action.pid : Action → ℕ
  | .start pid _ => pid
  | .call pid _ => pid
  | .locked pid _ => pid

/-- The operation of an action. -/
def Action.op? : Action → Option Op
  | .start _ _ => none
  | .call _ op => some op
  | .locked _ op => some op

def Op.recovers : Op → Bool
  | .recover _ _ => true
  | _ => false

/-- The rows an operation may record a head on: the one it commits, or those it resumes. -/
def Engine.Op.heads (e : Engine) : Op → TransformationId → Prop
  | .commit id _ _ => (· = id)
  | .recover _ _ => fun id => ∃ row ∈ (reconstruct e.records).transformations,
      row.state = some .committing ∧ row.transformation = id
  | _ => fun _ => False

variable [Canon]

/-- The operation, from where it starts, keeps to the policy. -/
def Policy.Allows (pol : Policy) (w : World) (s : Sys) : Op → Prop
  | .plan intent stamp => ∀ shape, (planShape intent stamp).answer w s = .ok shape →
      s.engine.plannedAlready (Canon.intent intent) = none →
      s.engine.resolvedAlready (Canon.intent intent) shape.id = none →
      s.engine.rehydrating (Canon.intent intent) shape.id = false → pol.plans s.engine shape.id
  | .undo original _ _ _ => ∀ entry inverse t, s.engine.table[original]? = some entry →
      Invertible s original inverse → Mints entry original inverse t →
      pol.undos t.id (s.engine.notes t.id)
  | .commit id _ _ => ∀ entry, s.engine.table[id]? = some entry → entry.state = .canonicalized →
      entry.canonicalCid.isSome →
      (receiptVerdict entry.verdict entry.verdictDigest entry.failPostureEngaged).isSome →
      (s.engine.config.adapters entry.delta.substrate).isSome → pol.commits s.engine id
  | .verify id _ _ _ => pol.rules id
  | .escalation id _ _ _ => pol.rules id
  | .canonicalize id _ mode => ∀ entry, s.engine.table[id]? = some entry →
      entry.state = .denied → mode.getD s.engine.config.mode = .recordOnly → pol.carries s.engine id
  | .recover _ _ => ∀ row ∈ (reconstruct s.engine.records).transformations,
      row.state = some .committing → leafOf s.engine.ledger row.transformation = none →
      row.applyStarted.isSome → pol.reapplies row.transformation (s.engine.notes row.transformation)
  | _ => True

variable {pol : Policy} {w : World}

theorem moves_discard {α : Type} {ids : TransformationId → Prop} {x : M α} {s : Sys}
    (h : Moves pol ids w x s fun _ _ => True) : Moves pol ids w (Engine.discard x) s fun _ _ => True :=
  Prog.Traces.bind (h.mono fun _ _ _ => Prog.Traces.pure trivial)

theorem moves_exec {s : Sys} {op : Op} (h : pol.Allows w s op)
    (hheads : ∀ id, op.heads s.engine id → pol.heads id) : Moves pol every w op.exec s fun _ _ => True := by
  cases op with
  | submit intent rngSeed stamp => exact moves_discard (moves_submit (every_holds Canon.unset))
  | plan intent stamp => exact moves_discard (moves_plan h)
  | verify id stamp key mode =>
    have hfact : Fact (pol.rules id) := ⟨h⟩
    exact moves_discard (moves_verify (every_holds id))
  | escalation id ruling stamp key =>
    have hfact : Fact (pol.rules id) := ⟨h⟩
    exact moves_discard (moves_escalation (every_holds id))
  | canonicalize id stamp mode => exact moves_discard (moves_canonicalize (every_holds id) h)
  | commit id stamp key =>
    have hfact : Fact (pol.heads id) := ⟨hheads id rfl⟩
    exact moves_discard (moves_commit h)
  | undo original witness rngSeed stamp => exact moves_discard (moves_undo h)
  | cancel id stamp => exact moves_discard (moves_cancel (every_holds id))
  | reap now => exact moves_discard moves_reap
  | recover stamp key =>
    exact moves_discard (moves_recover h
      (fun row hrow hstate => hheads _ ⟨row, hrow, hstate, rfl⟩) (fun _ _ _ => trivial) fun _ _ _ => trivial)
  | reissueReceipt id stamp key => exact moves_discard (moves_reissueReceipt (every_holds id))
  | rehydrateCommitted id intent =>
    exact moves_discard (moves_rehydrateCommitted (every_holds id))

theorem Policy.any_allows {s : Sys} {op : Op} : Policy.any.Allows w s op := by
  cases op with
  | plan => exact fun _ _ _ _ _ => trivial
  | undo => exact fun _ _ _ _ _ _ => trivial
  | commit => exact fun _ _ _ _ _ _ => trivial
  | recover => exact fun _ _ _ _ _ => trivial
  | canonicalize => exact fun _ _ _ _ => trivial
  | _ => trivial

theorem Step.writes {id : TransformationId} {s s' : Sys} (h : Step pol w id s s') :
    Writes s s' := by
  cases h with
  | asked | failed | crashed | blob | observation | filed | headed | seated | rehydrated | idle
  | restored | counted | explained | resumed | indexed | escrowHeld | applied | observationNamed
  | closed => exact .nothing rfl rfl rfl rfl
  | leafed => exact .leaf _ rfl rfl rfl rfl
  | leafedAgain => exact .leaf _ rfl rfl rfl rfl
  | _ => exact .record _ rfl rfl rfl rfl

theorem Engine.Moves.history_grows {α : Type} {ids : TransformationId → Prop} {x : M α} {s : Sys}
    {Q : α → Sys → Prop} (h : Moves pol ids w x s Q) : s.history <+: (x.final w s).history := by
  have hstep : ∀ {id : TransformationId} {s s' : Sys}, Step pol w id s s' →
      s.history <+: s'.history := by
    intro id s s' h
    cases h with
    | _ => first | exact List.prefix_rfl | exact List.prefix_append _ _
  have hsteps : ∀ {s s' : Sys}, ReflTransGen (Move pol ids w) s s' → s.history <+: s'.history := by
    intro s s' h
    induction h with
    | refl => exact List.prefix_rfl
    | tail _ hmove ih =>
      obtain ⟨_, _, hmove⟩ := hmove
      exact ih.trans (hstep hmove)
  exact hsteps h.steps

/-- A move writes one note at most, about the transformation it is on. -/
theorem Step.notes {id : TransformationId} {s s' : Sys} (h : Step pol w id s s')
    (other : TransformationId) : s'.engine.notes other = s.engine.notes other ∨
      other = id ∧ ∃ n t, s'.engine.records = s.engine.records ++ [.about id n t] ∧
        s'.engine.notes id = s.engine.notes id ++ [n] := by
  by_cases hne : id = other
  · subst hne
    cases h.writes with
    | nothing hr | leaf _ hr => exact .inl (congrArg (notesOf id) hr)
    | record r hr =>
      cases r with
      | draftCreated =>
        left
        rw [Engine.notes, hr, notesOf_append, notesOf_draft, List.append_nil]
      | about t n stamp =>
        by_cases ht : t = id
        · subst ht
          exact .inr ⟨rfl, n, stamp, hr, by rw [Engine.notes, hr, notesOf_append, notesOf_about]⟩
        · left
          rw [Engine.notes, hr, notesOf_append, notesOf_other ht, List.append_nil]
  · exact .inl (h.frame hne).notes

namespace Project

/-- The operation an action runs, and where it starts from. -/
def calls (p : Project) : Action → Option (Sys × Op)
  | .start _ _ => none
  | .call pid op => (p.process pid).map fun e => (⟨p.history, p.disk, e⟩, op)
  | .locked pid op => (p.process pid).map fun e => (⟨p.history, p.disk, e.catchUp p.disk⟩, op)

/-- The projects a run from `p₀` comes to whose actions are all as `ok` asks. -/
inductive Reaches (p₀ : Project) (w : World) (ok : Project → Action → Prop) : Project → Prop where
  | refl : Reaches p₀ w ok p₀
  | step {p : Project} {a : Action} (h : Reaches p₀ w ok p) (ha : ok p a) :
      Reaches p₀ w ok (p.step w a)

/-- Every action of a list is as `ok` asks, where the run has come to by then. -/
def Along (w : World) (ok : Project → Action → Prop) (p : Project) : List Action → Prop
  | [] => True
  | a :: rest => ok p a ∧ Along w ok (p.step w a) rest

theorem Reaches.run {ok : Project → Action → Prop} {p₀ p : Project} {actions : List Action}
    (h : p₀.Reaches w ok p) (ha : Along w ok p actions) : p₀.Reaches w ok (p.run w actions) := by
  induction actions generalizing p with
  | nil => exact h
  | cons a rest ih => exact ih (.step h ha.1) ha.2

theorem run_append (p : Project) (a b : List Action) : p.run w (a ++ b) = (p.run w a).run w b :=
  List.foldl_append

theorem run_concat (p : Project) (actions : List Action) (a : Action) :
    p.run w (actions ++ [a]) = (p.run w actions).step w a :=
  List.foldl_concat ..

theorem along_of_mem {ok : Project → Action → Prop} {actions : List Action}
    (h : ∀ a ∈ actions, ∀ p, ok p a) (p : Project) : Along w ok p actions := by
  induction actions generalizing p with
  | nil => trivial
  | cons a rest ih =>
    exact ⟨h a List.mem_cons_self p, ih (fun b hb => h b (List.mem_cons_of_mem _ hb)) _⟩

theorem reaches_run {ok : Project → Action → Prop} {p₀ : Project} {actions : List Action}
    (h : ∀ a ∈ actions, ∀ p, ok p a) : p₀.Reaches w ok (p₀.run w actions) :=
  Reaches.refl.run (along_of_mem h p₀)

theorem calls_op {p : Project} {a : Action} {s : Sys} {op : Op} (h : p.calls a = some (s, op)) :
    a.op? = some op := by
  cases a with
  | start => cases h
  | call pid op' =>
    obtain ⟨_, _, heq⟩ := Option.map_eq_some_iff.mp h
    cases heq
    rfl
  | locked pid op' =>
    obtain ⟨_, _, heq⟩ := Option.map_eq_some_iff.mp h
    cases heq
    rfl

theorem exec_cases (w : World) (p : Project) (pid : ℕ) (op : Op) (e : Engine) :
    let s' := op.exec.final w ⟨p.history, p.disk, e⟩
    (p.exec w pid op e).history = s'.history ∧ (p.exec w pid op e).disk = s'.disk ∧
      ((p.exec w pid op e).process = (p.set pid none).process ∨
        (p.exec w pid op e).process = (p.set pid (some s'.engine)).process) := by
  unfold Project.exec Prog.final
  split
  next s' heq => exact ⟨by rw [heq]; rfl, by rw [heq]; rfl, .inl rfl⟩
  next r s' heq => exact ⟨by rw [heq]; rfl, by rw [heq]; rfl, .inr (by rw [heq]; rfl)⟩

theorem process_step_ne {p : Project} {a : Action} {pid : ℕ} (h : a.pid ≠ pid) :
    (p.step w a).process pid = p.process pid := by
  have hexec : ∀ q op e, q ≠ pid → (p.exec w q op e).process pid = p.process pid := by
    intro q op e hne
    obtain ⟨_, _, hprocess⟩ := exec_cases w p q op e
    rcases hprocess with hnone | hsome
    · rw [hnone, process_set_ne (Ne.symm hne)]
    · rw [hsome, process_set_ne (Ne.symm hne)]
  cases a with
  | start q config => exact process_set_ne (Ne.symm h)
  | call q op =>
    cases hproc : p.process q with
    | none => simp only [Project.step, hproc]
    | some e =>
      simp only [Project.step, hproc]
      exact hexec q op e h
  | locked q op =>
    cases hproc : p.process q with
    | none => simp only [Project.step, hproc]
    | some e =>
      simp only [Project.step, hproc]
      exact hexec q op _ h

theorem process_run_ne {p : Project} {actions : List Action} {pid : ℕ}
    (h : ∀ a ∈ actions, a.pid ≠ pid) : (p.run w actions).process pid = p.process pid := by
  induction actions generalizing p with
  | nil => rfl
  | cons a rest ih =>
    have hrest := ih (p := p.step w a) fun b hb => h b (List.mem_cons_of_mem _ hb)
    exact hrest.trans (process_step_ne (h a List.mem_cons_self))

theorem step_grows (w : World) (p : Project) (a : Action) :
    p.disk.journal <+: (p.step w a).disk.journal ∧ p.disk.ledger <+: (p.step w a).disk.ledger := by
  have hmoves : ∀ {s s' : Sys}, ReflTransGen (Move .any every w) s s' →
      s.disk.journal <+: s'.disk.journal ∧ s.disk.ledger <+: s'.disk.ledger := by
    intro s s' h
    induction h with
    | refl => exact ⟨List.prefix_rfl, List.prefix_rfl⟩
    | tail _ hmove ih =>
      obtain ⟨id, _, hstep⟩ := hmove
      obtain ⟨hj, hl⟩ := ih
      cases hstep.writes with
      | nothing _ hj' _ hl' => exact ⟨hj'.symm ▸ hj, hl'.symm ▸ hl⟩
      | record r _ hj' _ hl' => exact ⟨hj'.symm ▸ hj.trans (List.prefix_append ..), hl'.symm ▸ hl⟩
      | leaf leaf _ hj' _ hl' => exact ⟨hj'.symm ▸ hj, hl'.symm ▸ hl.trans (List.prefix_append ..)⟩
  have hexec : ∀ pid op e, p.disk.journal <+: (p.exec w pid op e).disk.journal ∧
      p.disk.ledger <+: (p.exec w pid op e).disk.ledger := by
    intro pid op e
    obtain ⟨_, hdisk, _⟩ := exec_cases w p pid op e
    rw [hdisk]
    have hallows : Policy.any.Allows w ⟨p.history, p.disk, e⟩ op := Policy.any_allows
    have hsteps := (moves_exec hallows fun _ _ => trivial).steps
    exact hmoves hsteps
  cases a with
  | start pid config => exact ⟨List.prefix_rfl, List.prefix_rfl⟩
  | call pid op =>
    cases hproc : p.process pid with
    | none => simp only [Project.step, hproc, List.prefix_rfl, and_self]
    | some e =>
      simp only [Project.step, hproc]
      exact hexec pid op e
  | locked pid op =>
    cases hproc : p.process pid with
    | none => simp only [Project.step, hproc, List.prefix_rfl, and_self]
    | some e =>
      simp only [Project.step, hproc]
      exact hexec pid op _

/-- What every operation of one process keeps of its engine, the process keeps, whatever the other
processes do. -/
theorem each_process_ops {E : Engine → Prop} {ok : Project → Action → Prop} {p₀ p : Project}
    {pid : ℕ} (h : p₀.Reaches w ok p) (hinit : ∀ e, p₀.process pid = some e → E e)
    (hopen : ∀ p config, ok p (.start pid config) → E (Engine.openThrough config p.disk))
    (hcatch : ∀ p op e, ok p (.locked pid op) → p.process pid = some e → E e → E (e.catchUp p.disk))
    (hop : ∀ p a, ok p a → a.pid = pid → ∀ s op, p.calls a = some (s, op) → E s.engine →
      E (op.exec.final w s).engine) : ∀ e, p.process pid = some e → E e := by
  induction h with
  | refl => exact hinit
  | @step p a _ ha ih =>
    by_cases hpid : a.pid = pid
    · have hexec : ∀ op e, p.calls a = some (⟨p.history, p.disk, e⟩, op) → E e →
          ∀ e', (p.exec w pid op e).process pid = some e' → E e' := by
        intro op e hcalls he e' he'
        obtain ⟨_, _, hprocess⟩ := exec_cases w p pid op e
        rcases hprocess with hnone | hsome
        · rw [hnone, process_set] at he'
          cases he'
        · rw [hsome, process_set] at he'
          obtain rfl := Option.some.inj he'
          exact hop p a ha hpid _ op hcalls he
      subst hpid
      cases a with
      | start q config =>
        intro e he
        rw [Project.step, Action.pid, process_set] at he
        obtain rfl := Option.some.inj he
        exact hopen p config ha
      | call q op =>
        cases hproc : p.process q with
        | none =>
          simp only [Project.step, hproc]
          exact ih
        | some e =>
          simp only [Project.step, hproc]
          exact hexec op e (by simp only [calls, hproc]; rfl) (ih e hproc)
      | locked q op =>
        cases hproc : p.process q with
        | none =>
          simp only [Project.step, hproc]
          exact ih
        | some e =>
          simp only [Project.step, hproc]
          exact hexec op _ (by simp only [calls, hproc]; rfl) (hcatch p op e ha hproc (ih e hproc))
    · rw [process_step_ne hpid]
      exact ih

theorem each_process (pol : Policy) {E : Engine → Prop} {ok : Project → Action → Prop} {p₀ p : Project} {pid : ℕ}
    (h : p₀.Reaches w ok p) (hinit : ∀ e, p₀.process pid = some e → E e)
    (hopen : ∀ p config, ok p (.start pid config) → E (Engine.openThrough config p.disk))
    (hcatch : ∀ p op e, ok p (.locked pid op) → p.process pid = some e → E e → E (e.catchUp p.disk))
    (hstep : ∀ id s s', Step pol w id s s' → E s.engine → E s'.engine)
    (hpol : ∀ p a, ok p a → a.pid = pid → ∀ s op, p.calls a = some (s, op) → pol.Allows w s op)
    (hheads : ∀ id, pol.heads id) : ∀ e, p.process pid = some e → E e := by
  have hmoves : ∀ {s s'}, ReflTransGen (Move pol every w) s s' → E s.engine → E s'.engine := by
    intro s s' hreach hs
    induction hreach with
    | refl => exact hs
    | tail _ hmove ih =>
      obtain ⟨id, _, hmove⟩ := hmove
      exact hstep id _ _ hmove ih
  apply each_process_ops h hinit hopen hcatch
  intro p a ha hpid s op hcalls he
  exact hmoves (moves_exec (hpol p a ha hpid s op hcalls) fun id _ => hheads id).steps he

/-- An invariant of the files and of the engine of the one process over them. -/
structure Kept (w : World) (pol : Policy) (D : List Event → Disk → Prop) (E : Sys → Prop) :
    Prop where
  init : D [] .empty
  opens : ∀ history disk config, D history disk →
    E ⟨history, disk, Engine.openThrough config disk⟩
  step : ∀ id s s', InStep s → D s.history s.disk → E s → Step pol w id s s' →
    D s'.history s'.disk ∧ E s'

theorem Kept.moves {D : List Event → Disk → Prop} {E : Sys → Prop} (hk : Kept w pol D E)
    {s s' : Sys} (hs : InStep s) (hd : D s.history s.disk) (he : E s)
    (h : ReflTransGen (Move pol every w) s s') :
    InStep s' ∧ D s'.history s'.disk ∧ E s' := by
  induction h with
  | refl => exact ⟨hs, hd, he⟩
  | tail _ hmove ih =>
    obtain ⟨id, _, hstep⟩ := hmove
    obtain ⟨hs₁, hd₁, he₁⟩ := ih
    exact ⟨hs₁.writes hstep.writes, hk.step id _ _ hs₁ hd₁ he₁ hstep⟩

/-- The files of a project and the one process over them, as an invariant has them. -/
def Holds (D : List Event → Disk → Prop) (E : Sys → Prop) (p : Project) : Prop :=
  D p.history p.disk ∧
    ∀ e, p.process 0 = some e → InStep ⟨p.history, p.disk, e⟩ ∧ E ⟨p.history, p.disk, e⟩

theorem Kept.act {D : List Event → Disk → Prop} {E : Sys → Prop} (hk : Kept w pol D E)
    {p : Project} {a : Action} (h : p.Holds D E) (hs : a.Solo)
    (hp : ∀ s op, p.calls a = some (s, op) → pol.Allows w s op)
    (hheads : ∀ id, pol.heads id := by exact fun _ => trivial) : (p.step w a).Holds D E := by
  obtain ⟨hd, he⟩ := h
  cases a with
  | locked pid op => exact hs.elim
  | start pid config =>
    obtain rfl : pid = 0 := hs
    refine ⟨hd, fun e hproc => ?_⟩
    rw [Project.step, process_set] at hproc
    obtain rfl := Option.some.inj hproc
    exact ⟨⟨rfl, rfl⟩, hk.opens _ _ config hd⟩
  | call pid op =>
    obtain rfl : pid = 0 := hs
    cases hproc : p.process 0 with
    | none =>
      have hstep : p.step w (.call 0 op) = p := by simp only [Project.step, hproc]
      rw [hstep]
      exact ⟨hd, he⟩
    | some e =>
      have hstep : p.step w (.call 0 op) = p.exec w 0 op e := by
        simp only [Project.step, hproc]
      obtain ⟨hin, hE⟩ := he e hproc
      have hmoves := moves_exec (hp ⟨p.history, p.disk, e⟩ op (by simp only [calls, hproc]; rfl))
        fun id _ => hheads id
      obtain ⟨hin', hd', hE'⟩ := hk.moves hin hd hE hmoves.steps
      obtain ⟨hh, hdisk, hprocess⟩ := exec_cases w p 0 op e
      rw [hstep, Holds, hh, hdisk]
      refine ⟨hd', fun e' he' => ?_⟩
      rcases hprocess with hnone | hsome
      · rw [hnone, process_set] at he'
        cases he'
      · rw [hsome, process_set] at he'
        obtain rfl := Option.some.inj he'
        exact ⟨hin', hE'⟩

/-- What one process over the files of a project keeps, whatever it does and however often it is
started again, where its operations keep to the policy as long as it does. -/
theorem Kept.solo_of {D : List Event → Disk → Prop} {E : Sys → Prop} (hk : Kept w pol D E)
    {ok : Project → Action → Prop} {p : Project} (h : Project.empty.Reaches w ok p)
    (hsolo : ∀ p a, ok p a → a.Solo)
    (hpol : ∀ p a, ok p a → p.Holds D E → ∀ s op, p.calls a = some (s, op) → pol.Allows w s op)
    (hheads : ∀ id, pol.heads id := by exact fun _ => trivial) : p.Holds D E := by
  induction h with
  | refl =>
    refine ⟨hk.init, fun e he => ?_⟩
    cases he
  | @step p a _ ha ih => exact hk.act ih (hsolo p a ha) (hpol p a ha ih) hheads

theorem Kept.solo {D : List Event → Disk → Prop} {E : Sys → Prop} (hk : Kept w pol D E)
    {ok : Project → Action → Prop} {p : Project} (h : Project.empty.Reaches w ok p)
    (hsolo : ∀ p a, ok p a → a.Solo)
    (hpol : ∀ p a, ok p a → ∀ s op, p.calls a = some (s, op) → pol.Allows w s op)
    (hheads : ∀ id, pol.heads id := by exact fun _ => trivial) :
    D p.history p.disk ∧
      ∀ e, p.process 0 = some e → InStep ⟨p.history, p.disk, e⟩ ∧ E ⟨p.history, p.disk, e⟩ :=
  hk.solo_of h hsolo (fun p a ha _ => hpol p a ha) hheads

end Project

end Tracefold
