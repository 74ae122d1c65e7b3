import Mathlib.Tactic.Common
import Tracefold.Ideal
import Tracefold.Mirror.Commit

/-! The live state of a process and the state replayed from its journal. -/

namespace Tracefold

open Library Engine
open Std (ExtTreeMap)

theorem foldl_insert_held {V : Type} {m : BTreeMap Cid V} {rows : List (Cid × V)}
    (h : ∀ id row, (id, row) ∈ rows → m[id]? = some row) :
    rows.foldl (fun merged (id, row) => merged.insert id row) m = m := by
  induction rows with
  | nil => rfl
  | cons row rest ih =>
    obtain ⟨id, v⟩ := row
    have hsame : m.insert id v = m := by
      apply ExtTreeMap.ext_getElem?
      intro other
      rw [ExtTreeMap.getElem?_insert]
      by_cases hne : id = other
      · subst hne
        rw [if_pos (by simp), h id v List.mem_cons_self]
      · rw [if_neg (by simpa using hne)]
    refine (congrArg (fun merged => rest.foldl _ merged) hsame).trans (ih ?_)
    exact fun id row hmem => h id row (List.mem_cons_of_mem _ hmem)

/-- The operations of a process over a journal it began. -/
def Engine.Op.live : Op → Bool
  | .recover _ _ => false
  | .reissueReceipt _ _ _ => false
  | .rehydrateCommitted _ _ => false
  | _ => true

section Replay

variable [Canon]

/-- Tables that are what the journal says make the Σ the journal makes. -/
theorem Mirrored.sigma {e : Engine} (h : Mirrored e) : e.sigma = reconstruct e.records := by
  have hrows : e.table.map (fun id entry => entry.stateRow id) =
      (SigmaShadow.ofRecords e.records).rows := by
    apply ExtTreeMap.ext_getElem?
    intro id
    rw [ExtTreeMap.getElem?_map, SigmaShadow.rows_ofRecords]
    exact h.rows id
  have hshadow : e.shadow.escrow = (SigmaShadow.ofRecords e.records).escrow := by
    apply ExtTreeMap.ext_getElem?
    intro id
    rw [SigmaShadow.escrow_ofRecords]
    exact h.escrow id
  have hescrow : e.escrowView =
      (SigmaShadow.ofRecords e.records).escrow.toList.map Prod.snd := by
    rw [escrowView, ← hshadow, foldl_insert_held]
    intro id row hmem
    rw [h.escrow]
    exact h.held id row (ExtTreeMap.mem_toList_iff_getElem?_eq_some.mp hmem)
  have hcommitted : e.committed = (SigmaShadow.ofRecords e.records).ledger := by
    apply ExtTreeMap.ext_getElem?
    intro id
    rw [SigmaShadow.ledger_ofRecords]
    exact h.committed id
  rw [Engine.sigma, reconstruct, SigmaShadow.sigma, hescrow, hcommitted, h.drafts, ← hrows,
    ExtTreeMap.toList_map, List.map_map]
  rfl

theorem head_of_rollbackOf {floor : HeadFloor} {e : Engine} (h : rollbackOf floor e = false) :
    floor.treeSize ≤ e.ledger.length ∧
      (0 < floor.treeSize → rootAt e.ledger floor.treeSize = some floor.rootHash) := by
  unfold rollbackOf at h
  split at h
  · cases h
  next hlength =>
    split at h
    · cases h
    next hroot =>
      refine ⟨Nat.not_lt.mp hlength, fun hpos => ?_⟩
      by_contra hne
      exact hroot ⟨hpos, hne⟩

theorem Mirrored.openThrough (config : Config) {disk : Disk} (hdisk : disk.journal = []) :
    Mirrored (Engine.openThrough config disk) := by
  have hrecords : (Engine.openThrough config disk).records = [] := hdisk
  have hnotes : ∀ id, (Engine.openThrough config disk).notes id = [] := by
    intro id
    rw [Engine.notes, hrecords]
    rfl
  have hnil : (SigmaShadow.ofRecords disk.journal).rows = ∅ ∧
      (SigmaShadow.ofRecords disk.journal).escrow = ∅ ∧
      (SigmaShadow.ofRecords disk.journal).ledger = ∅ := by
    rw [hdisk]
    exact ⟨rfl, rfl, rfl⟩
  refine ⟨?_, fun id => ?_, fun id hsome => ?_, fun i id hmem => ?_, fun id => ?_,
    fun id row hrow => ?_, fun id => ?_, fun id entry hentry => ?_, ?_⟩
  · rw [hrecords, show (Engine.openThrough config disk).drafted = draftsOf disk.journal from rfl,
      hdisk]
    rfl
  · rw [hnotes id]
    exact congrArg (Option.map _) ExtTreeMap.getElem?_empty
  · rw [show (Engine.openThrough config disk).shadow.rows = _ from hnil.1,
      ExtTreeMap.getElem?_empty] at hsome
    cases hsome
  · rw [show (Engine.openThrough config disk).resolvedAll i =
      (resolutionsOf disk.journal)[i]?.getD [] from rfl, hdisk] at hmem
    rw [show resolutionsOf [] = ∅ from rfl, ExtTreeMap.getElem?_empty] at hmem
    cases hmem
  · rw [hnotes id, show (Engine.openThrough config disk).shadow.escrow = _ from hnil.2.1]
    exact ExtTreeMap.getElem?_empty
  · rw [show (Engine.openThrough config disk).escrow = ∅ from rfl,
      ExtTreeMap.getElem?_empty] at hrow
    cases hrow
  · rw [hnotes id, show (Engine.openThrough config disk).committed = _ from hnil.2.2]
    exact ExtTreeMap.getElem?_empty
  · rw [show (Engine.openThrough config disk).table = ∅ from rfl,
      ExtTreeMap.getElem?_empty] at hentry
    cases hentry
  · cases hrolled : (Engine.openThrough config disk).rolledBack with
    | true => exact .inl rfl
    | false =>
      refine .inr fun floor hfloor => ?_
      rw [Engine.openThrough] at hrolled hfloor
      dsimp only at hrolled hfloor
      rw [hfloor] at hrolled
      exact head_of_rollbackOf hrolled

theorem mirrors_discard {α : Type} {w : World} {x : M α} {s : Sys}
    (h : Mirrors w x s fun _ s' => Mirrored s'.engine) :
    Mirrors w (Engine.discard x) s fun _ s' => Mirrored s'.engine :=
  .bind (h.mono fun _ _ h' => .pure h')

theorem mirrors_exec [Canon.CollisionFree] {w : World} (hw : WritesLand w) (hb : BodiesFit w)
    {s : Sys} {op : Op} (h : Mirrored s.engine) (hlive : op.live = true)
    (hundo : ∀ original witness rngSeed stamp, op = .undo original witness rngSeed stamp →
      UndoesBlank s original) :
    Mirrors w op.exec s fun _ s' => Mirrored s'.engine := by
  cases op with
  | submit intent rngSeed stamp => exact mirrors_discard (mirrors_submit hw h)
  | plan intent stamp => exact mirrors_discard (mirrors_plan hw hb h)
  | verify id stamp key mode => exact mirrors_discard (mirrors_verify hw h)
  | escalation id ruling stamp key => exact mirrors_discard (mirrors_escalation hw h)
  | canonicalize id stamp mode => exact mirrors_discard (mirrors_canonicalize hw h)
  | commit id stamp key => exact mirrors_discard (mirrors_commit hw hb h)
  | undo original witness rngSeed stamp =>
    exact mirrors_discard (mirrors_undo hw h (hundo _ _ _ _ rfl))
  | cancel id stamp => exact mirrors_discard (mirrors_cancel hw h)
  | reap now => exact mirrors_discard (mirrors_reap hw h)
  | recover stamp key => cases hlive
  | reissueReceipt id stamp key => cases hlive
  | rehydrateCommitted id intent => cases hlive

/-- A call of one process, of an operation other than those that rebuild rows. -/
def LiveCall (pid : ℕ) : Action → Prop
  | .call q op => q = pid ∧ op.live = true
  | .start _ _ => False
  | .locked _ _ => False

instance (pid : ℕ) : (a : Action) → Decidable (LiveCall pid a)
  | .call q op => inferInstanceAs (Decidable (q = pid ∧ op.live = true))
  | .start _ _ => inferInstanceAs (Decidable False)
  | .locked _ _ => inferInstanceAs (Decidable False)

omit [Canon] in
theorem LiveCall.call {pid : ℕ} {a : Action} (h : LiveCall pid a) :
    ∃ op : Op, a = .call pid op ∧ op.live = true := by
  cases a with
  | call q op =>
    obtain ⟨rfl, hlive⟩ := h
    exact ⟨op, rfl, hlive⟩
  | start => cases h
  | locked => cases h

/-- A live call that plans no undo again over what the journal keeps of an aborted one. -/
def BlankCall (pid : ℕ) (p : Project) (a : Action) : Prop :=
  LiveCall pid a ∧ ∀ s original witness rngSeed stamp,
    p.calls a = some (s, .undo original witness rngSeed stamp) → UndoesBlank s original

/-- From the start of a process on an empty journal on, its live state is the state replayed from
the journal, component by component, where every body fits a blob and no aborted undo that was
ruled on is planned again. -/
theorem live_state_is_replayed [Canon.CollisionFree] {w : World} (hw : WritesLand w)
    (hb : BodiesFit w) {p₀ p : Project} {pid : ℕ} {config : Config} (hempty : p₀.disk.journal = [])
    (h : (p₀.step w (.start pid config)).Reaches w (BlankCall pid) p) {e : Engine}
    (he : p.process pid = some e) :
    e.sigma.drafts = (reconstruct e.records).drafts ∧
      e.sigma.transformations = (reconstruct e.records).transformations ∧
      e.sigma.escrow = (reconstruct e.records).escrow ∧
      e.sigma.ledger = (reconstruct e.records).ledger := by
  have hmirrored : ∀ e, p.process pid = some e → Mirrored e := by
    clear he
    induction h with
    | refl =>
      intro e he
      rw [Project.step, Project.process_set] at he
      obtain rfl := Option.some.inj he
      exact Mirrored.openThrough config hempty
    | @step p a _ ha ih =>
      obtain ⟨hcall, hundo⟩ := ha
      obtain ⟨op, rfl, hlive⟩ := hcall.call
      intro e' he'
      cases hproc : p.process pid with
      | none =>
        have hsame : p.step w (.call pid op) = p := by simp only [Project.step, hproc]
        rw [hsame, hproc] at he'
        cases he'
      | some e =>
        have hsame : p.step w (.call pid op) = p.exec w pid op e := by
          simp only [Project.step, hproc]
        obtain ⟨_, _, hprocess⟩ := Project.exec_cases w p pid op e
        rw [hsame] at he'
        rcases hprocess with hnone | hsome
        · rw [hnone, Project.process_set] at he'
          cases he'
        · rw [hsome, Project.process_set] at he'
          obtain rfl := Option.some.inj he'
          refine (mirrors_exec hw hb (s := ⟨p.history, p.disk, e⟩) (ih e hproc) hlive ?_).final
          intro original witness rngSeed stamp hop
          exact hundo _ original witness rngSeed stamp (by rw [Project.calls, hproc, hop]; rfl)
  rw [(hmirrored e he).sigma]
  exact ⟨rfl, rfl, rfl, rfl⟩

end Replay

section Replanned

open Tracefold.Ideal

/-- An intent committed, and its undo ruled on, cancelled and asked for again. -/
def undoneTwice : List Action :=
  [.call 0 (.submit intent 0 0), .call 0 (.plan intent 0)] ++ committing (idAt 2) ++
    [.call 0 (.undo (idAt 2) (.attested ⟨[3]⟩) 0 3), .call 0 (.verify (undoAt 2) 4 "k" none),
      .call 0 (.cancel (undoAt 2) 5), .call 0 (.undo (idAt 2) (.attested ⟨[3]⟩) 0 6)]

def verdictOf (rows : List StateRow) (id : TransformationId) : Option VerdictKind :=
  (rows.find? fun row => row.transformation = id).bind (·.verdict)

/-- The second undo seats a row without a verdict, and the journal keeps the verdict of the
first. -/
theorem replanned_undo_is_not_replayed :
    ¬ ∀ (w : World) (p₀ p : Project) (config : Config) (e : Engine), WritesLand w →
      p₀.disk.journal = [] →
      (p₀.step w (.start 0 config)).Reaches w (fun _ a => LiveCall 0 a) p →
      p.process 0 = some e →
      e.sigma.transformations = (reconstruct e.records).transformations := by
  intro h
  let w : World := objectFrom 2 fun _ env => env
  have hsome : (((Project.empty.step w (.start 0 config)).run w undoneTwice).process 0).isSome := by
    decide +kernel
  obtain ⟨e, he⟩ := Option.isSome_iff_exists.mp hsome
  have heq := h w .empty _ config e (fun _ => rfl) rfl
    (Project.reaches_run fun a ha _ => (by decide : ∀ a ∈ undoneTwice, LiveCall 0 a) a ha) he
  have hlive : (((Project.empty.step w (.start 0 config)).run w undoneTwice).process 0).map
      (fun e => verdictOf e.sigma.transformations (undoAt 2)) = some none := by decide +kernel
  have hjournal : (((Project.empty.step w (.start 0 config)).run w undoneTwice).process 0).map
      (fun e => verdictOf (reconstruct e.records).transformations (undoAt 2)) =
        some (some .Admit) := by decide +kernel
  rw [he, Option.map_some, heq] at hlive
  rw [he, Option.map_some, hlive] at hjournal
  cases hjournal

/-- An adapter that plans one body, whatever it is asked for. -/
def oneBody : World := objectFrom 2 fun _ env =>
  { env with plan := fun kind _ _ => .ok ⟨kind, [1], none⟩ }

/-- An intent, from its submission to its commit, in a process already started. -/
def committedLive : List Action :=
  [.call 0 (.submit intent 0 0), .call 0 (.plan intent 0)] ++ committing (idAt 2)

theorem live_state_is_replayed_committed :
    ∃ e, ((Project.empty.step oneBody (.start 0 config)).run oneBody committedLive).process 0 =
        some e ∧ e.state (idAt 2) = some .committed ∧
      e.sigma.transformations = (reconstruct e.records).transformations := by
  have hstate : (((Project.empty.step oneBody (.start 0 config)).run oneBody committedLive).process
      0).map (fun e => e.state (idAt 2)) = some (some .committed) := by decide
  obtain ⟨e, he, hcommitted⟩ := Option.map_eq_some_iff.mp hstate
  have hfit : BodiesFit oneBody := by
    refine ⟨fun history kind intent pre d hd => ?_, fun history kind delta pre outcome d ho hd => ?_,
      fun history inverse bytes d hd => ?_⟩
    · obtain rfl := Except.ok.inj hd
      exact (by decide : 1 ≤ maxBlobBytes)
    · obtain rfl := Except.ok.inj ho
      obtain rfl := Option.some.inj hd
      exact (by decide : 1 ≤ maxBlobBytes)
    · cases Except.ok.inj hd
  have hempty : Project.empty.disk.journal = [] := rfl
  have hreached : (Project.empty.step oneBody (.start 0 config)).Reaches oneBody (BlankCall 0)
      ((Project.empty.step oneBody (.start 0 config)).run oneBody committedLive) := by
    refine Project.reaches_run fun a ha p => ⟨?_, fun s original witness rngSeed stamp hcalls => ?_⟩
    · exact (by decide : ∀ a ∈ committedLive, LiveCall 0 a) a ha
    · have hop := (by decide : ∀ a ∈ committedLive, a.op?.all fun
          | .undo _ _ _ _ => false
          | _ => true) a ha
      rw [Project.calls_op hcalls] at hop
      cases hop
  exact ⟨e, he, hcommitted, (live_state_is_replayed (fun _ => rfl) hfit hempty hreached he).2.1⟩

end Replanned

end Tracefold
