import Mathlib.Tactic.Common
import Tracefold.Deadlines
import Tracefold.Ideal
import Tracefold.Leaves
import Tracefold.Windows

/-! Any number of processes over the files of one project, each of which catches up with the files
under the project lock before it runs an operation. -/

namespace Tracefold

open Library Engine Relation
open Std (ExtTreeMap)

section Kept

variable [Canon]

/-- A process that has read both files up to some point. -/
structure Behind (disk : Disk) (e : Engine) : Prop where
  records : e.records <+: disk.journal
  ledger : e.ledger <+: disk.ledger

section CatchUp

variable {disk : Disk} {e : Engine}

omit [Canon] in
theorem Behind.mono (h : Behind disk e) {disk' : Disk} (hj : disk.journal <+: disk'.journal)
    (hl : disk.ledger <+: disk'.ledger) : Behind disk' e :=
  ⟨h.records.trans hj, h.ledger.trans hl⟩

theorem Behind.inStep (h : Behind disk e) (history : List Event) :
    InStep ⟨history, disk, e.catchUp disk⟩ where
  records := by
    obtain ⟨more, hmore⟩ := h.records
    have hall : e.records ++ e.arrived disk = disk.journal := by
      rw [Engine.arrived, ← hmore, List.drop_left]
    rw [records_catchUp, hall]
  ledger := catchUp_ledger disk e

theorem getElem?_catchUp {id : TransformationId} {entry : Entry}
    (h : (e.catchUp disk).table[id]? = some entry) :
    e.table[id]? = some entry ∧ (e.catchUp disk).notes id = e.notes id := by
  rw [table_catchUp] at h
  obtain ⟨hlive, hstays⟩ := getElem?_dropped h
  refine ⟨hlive, ?_⟩
  have hheld : id ∈ e.table := ExtTreeMap.mem_iff_isSome_getElem?.mpr (by rw [hlive]; rfl)
  have hnone : notesOf id (e.arrived disk) = [] := by
    apply List.eq_nil_iff_forall_not_mem.mpr
    intro n hn
    obtain ⟨t, ht⟩ := mem_notesOf.mp hn
    exact hstays (mem_evicted hheld ht)
  rw [notes_catchUp, hnone, List.append_nil]

omit [Canon] in
theorem Lags.foldl {id : TransformationId} {shadow : SigmaShadow} {notes : List Note}
    (h : Lags (shadow.state id) (stateOf? notes)) (records : List Record) :
    Lags ((records.foldl SigmaShadow.fold shadow).state id)
      (stateOf? (notes ++ notesOf id records)) := by
  induction records generalizing shadow notes with
  | nil =>
    rw [show notesOf id [] = [] from rfl, List.append_nil]
    exact h
  | cons r rest ih =>
    rw [List.foldl_cons, ← List.singleton_append, notesOf_append, ← List.append_assoc]
    apply ih
    cases r with
    | draftCreated intentId rngSeed t =>
      rw [notesOf_draft, List.append_nil]
      exact h
    | about other n t =>
      by_cases hne : other = id
      · subst hne
        rw [notesOf_about, stateOf?_append, SigmaShadow.state_fold]
        exact h.next n
      · rw [notesOf_other hne, List.append_nil, SigmaShadow.state_fold_ne _ _ _ hne]
        exact h

omit [Canon] in
theorem stateOf?_grows {notes more : List Note} (h : stateOf? notes ≠ none) :
    stateOf? (notes ++ more) ≠ none := by
  induction more using List.reverseRecOn with
  | nil => rwa [List.append_nil]
  | append_singleton more n ih =>
    rw [← List.append_assoc, stateOf?_append]
    cases n with
    | provenanceDerived | inverseEscrowed | applyStarted | applyObserved | inverseCompleted =>
      exact ih
    | _ => nofun

theorem Synced.catchUp (h : Synced e) (disk : Disk) : Synced (e.catchUp disk) where
  row id := by
    refine ⟨fun entry hentry => ?_, fun entry hentry => ?_, ?_⟩
    · obtain ⟨hlive, _⟩ := getElem?_catchUp hentry
      exact (h.row id).names entry hlive
    · obtain ⟨hlive, hsame⟩ := getElem?_catchUp hentry
      rw [hsame]
      exact (h.row id).state entry hlive
    · rw [shadow_catchUp, notes_catchUp]
      exact (h.row id).shadow.foldl _
  resolved i id hid := by
    rw [resolvedAll, resolved_catchUp] at hid
    rw [notes_catchUp]
    exact stateOf?_grows (h.resolved i id hid)

end CatchUp

namespace Project

variable {pol : Policy} {w : World}

/-- An invariant of the files and of every process over them, whatever the other processes have
written since it last looked. -/
structure Shared (w : World) (pol : Policy) (D : List Event → Disk → Prop) (E : Engine → Prop) :
    Prop where
  init : D [] .empty
  opens : ∀ config disk, E (Engine.openThrough config disk)
  catches : ∀ disk e, E e → E (e.catchUp disk)
  step : ∀ id s s', InStep s → D s.history s.disk → E s.engine → Step pol w id s s' →
    D s'.history s'.disk ∧ E s'.engine

/-- The files and all processes, as an invariant has them. -/
def Carries (D : List Event → Disk → Prop) (E : Engine → Prop) (p : Project) : Prop :=
  D p.history p.disk ∧ ∀ pid e, p.process pid = some e → Behind p.disk e ∧ E e

variable {D : List Event → Disk → Prop} {E : Engine → Prop}

theorem Shared.moves (hk : Shared w pol D E) {s s' : Sys} (hs : InStep s)
    (hd : D s.history s.disk) (he : E s.engine) (h : ReflTransGen (Move pol every w) s s') :
    InStep s' ∧ D s'.history s'.disk ∧ E s'.engine := by
  induction h with
  | refl => exact ⟨hs, hd, he⟩
  | tail _ hmove ih =>
    obtain ⟨id, _, hstep⟩ := hmove
    obtain ⟨hs₁, hd₁, he₁⟩ := ih
    exact ⟨hs₁.writes hstep.writes, hk.step id _ _ hs₁ hd₁ he₁ hstep⟩

/-- One process under the lock: the files stay as the invariant has them, and every other process
is only left further behind. -/
theorem Shared.act (hk : Shared w pol D E) {p : Project} {a : Action} (h : p.Carries D E)
    (hlocked : a.Locked) (hp : ∀ s op, p.calls a = some (s, op) → pol.Allows w s op)
    (hheads : ∀ id, pol.heads id) : (p.step w a).Carries D E := by
  obtain ⟨hd, hall⟩ := h
  cases a with
  | call pid op => exact hlocked.elim
  | start pid config =>
    refine ⟨hd, fun q e hproc => ?_⟩
    by_cases hpid : q = pid
    · subst hpid
      rw [Project.step, process_set] at hproc
      obtain rfl := Option.some.inj hproc
      exact ⟨⟨List.prefix_rfl, List.prefix_rfl⟩, hk.opens config p.disk⟩
    · rw [Project.step, process_set_ne hpid] at hproc
      exact hall q e hproc
  | locked pid op =>
    cases hproc : p.process pid with
    | none =>
      have hsame : p.step w (.locked pid op) = p := by simp only [Project.step, hproc]
      rw [hsame]
      exact ⟨hd, hall⟩
    | some e =>
      have hstep : p.step w (.locked pid op) = p.exec w pid op (e.catchUp p.disk) := by
        simp only [Project.step, hproc]
      obtain ⟨hbehind, he⟩ := hall pid e hproc
      have hmoves := moves_exec
        (hp ⟨p.history, p.disk, e.catchUp p.disk⟩ op (by simp only [calls, hproc]; rfl))
        fun id _ => hheads id
      obtain ⟨hin, hd', he'⟩ :=
        hk.moves (hbehind.inStep p.history) hd (hk.catches p.disk e he) hmoves.steps
      obtain ⟨hhistory, hdisk, hprocess⟩ := exec_cases w p pid op (e.catchUp p.disk)
      obtain ⟨hjournal, hledger⟩ := step_grows w p (.locked pid op)
      rw [hstep] at hjournal hledger
      have hothers : ∀ q e', q ≠ pid → p.process q = some e' →
          Behind (p.exec w pid op (e.catchUp p.disk)).disk e' ∧ E e' := by
        intro q e' _ hq
        obtain ⟨hb, he⟩ := hall q e' hq
        exact ⟨hb.mono hjournal hledger, he⟩
      rw [hstep]
      refine ⟨by rw [hhistory, hdisk]; exact hd', fun q e' hq => ?_⟩
      by_cases hpid : q = pid
      · subst hpid
        rcases hprocess with hnone | hsome
        · rw [hnone, process_set] at hq
          cases hq
        · rw [hsome, process_set] at hq
          obtain rfl := Option.some.inj hq
          exact ⟨⟨⟨[], by simp [hdisk, hin.records]⟩, ⟨[], by simp [hdisk, hin.ledger]⟩⟩, he'⟩
      · rcases hprocess with hnone | hsome
        · rw [hnone, process_set_ne hpid] at hq
          exact hothers q e' hpid hq
        · rw [hsome, process_set_ne hpid] at hq
          exact hothers q e' hpid hq

/-- What any number of processes keep that take the lock and catch up before every operation. -/
theorem Shared.locked (hk : Shared w pol D E) {ok : Project → Action → Prop} {p : Project}
    (h : Project.empty.Reaches w ok p) (hlocked : ∀ p a, ok p a → a.Locked)
    (hp : ∀ p a, ok p a → ∀ s op, p.calls a = some (s, op) → pol.Allows w s op)
    (hheads : ∀ id, pol.heads id) : p.Carries D E := by
  induction h with
  | refl => exact ⟨hk.init, fun pid e he => nomatch he⟩
  | @step p a _ ha ih => exact hk.act ih (hlocked p a ha) (hp p a ha) hheads

end Project

/-- The notes of every transformation follow the lifecycle, and the ledger and the journal agree
on the leaves. -/
structure FilesLawful (disk : Disk) : Prop where
  lawful : ∀ id, Lawful (notesOf id disk.journal)
  numbered : Numbered disk.ledger
  leaves : RecordsLeaves disk.journal disk.ledger

omit [Canon] in
theorem FilesLawful.empty : FilesLawful .empty where
  lawful _ := .nil
  numbered := .nil
  leaves _ _ h := nomatch h

theorem FilesLawful.step {pol : Policy} {w : World} {id : TransformationId} {s s' : Sys}
    (h : FilesLawful s.disk) (hin : InStep s) (hs : Synced s.engine)
    (hstep : Step pol w id s s') : FilesLawful s'.disk := by
  obtain ⟨hlawful, hnumbered, hleaves⟩ := h
  have hin' := hin.writes hstep.writes
  rw [← hin.records] at hlawful hleaves
  rw [← hin.ledger] at hnumbered hleaves
  refine ⟨?_, ?_, ?_⟩
  · rw [← hin'.records]
    exact Lawful.step hs hstep hlawful
  · rw [← hin'.ledger]
    exact hnumbered.step hstep
  · rw [← hin'.records, ← hin'.ledger]
    exact hleaves.step hstep

theorem lawful_shared [Canon.CollisionFree] (w : World) :
    Project.Shared w .any (fun _ disk => FilesLawful disk) (fun e => Synced e) where
  init := .empty
  opens config disk := Synced.openThrough config disk
  catches disk _ h := h.catchUp disk
  step _ _ _ hin hd hs hstep := ⟨hd.step hin hs hstep, hs.step hstep⟩

/-- Whatever any number of processes do to one project under its lock, dying and starting again at
any point: but for rows planned again the notes of every transformation follow the lifecycle, every
leaf stands at its index and no transformation has two, every commit record names its leaf, and no
process holds a record or a leaf that is not in the files. -/
theorem locked_runs_are_lawful [Canon.CollisionFree] {w : World} {p : Project}
    (h : Project.empty.Reaches w (fun _ a => a.Locked) p) :
    FilesLawful p.disk ∧ ∀ pid e, p.process pid = some e → Behind p.disk e ∧ Synced e :=
  (lawful_shared w).locked h (fun _ _ ha => ha) (fun _ _ _ _ _ _ => Policy.any_allows)
    fun _ => trivial

end Kept

section Twice

open Tracefold.Ideal

/-- An intent of one goal, from its submission to its commit, by one process under the lock. -/
def committedUnderLock (pid : ℕ) (goal : UInt8) : List Action :=
  [.locked pid (.submit (intentFor goal) 0 0), .locked pid (.plan (intentFor goal) 0),
    .locked pid (.verify (idFor goal 1) 1 "k" none),
    .locked pid (.canonicalize (idFor goal 1) 1 none), .locked pid (.commit (idFor goal 1) 2 "k")]

theorem locked_runs_are_lawful_twice :
    let actions := [.start 0 config, .start 1 config] ++ committedUnderLock 0 1 ++
      committedUnderLock 1 2
    let p := Project.empty.run (fun _ => envAt 1) actions
    (p.disk.ledger.length = 2 ∧ (p.process 0).isSome) ∧
      FilesLawful p.disk ∧ ∀ pid e, p.process pid = some e → Behind p.disk e ∧ Synced e :=
  ⟨by decide, locked_runs_are_lawful (Project.reaches_run fun a ha _ =>
    (by decide : ∀ a ∈ [.start 0 config, .start 1 config] ++ committedUnderLock 0 1 ++
      committedUnderLock 1 2, a.Locked) a ha)⟩

end Twice

end Tracefold
