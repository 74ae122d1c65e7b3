import Mathlib.Tactic.Common
import Tracefold.Ideal
import Tracefold.Runs

/-! The Σ-shadow of a process against the fold over the journal it has read. -/

namespace Tracefold

open Library Engine
open Std (ExtTreeMap)

section Kept

variable [Canon]

/-- The shadow is the fold over every record the process has read. -/
def ShadowInStep (e : Engine) : Prop := e.shadow = SigmaShadow.ofRecords e.records

theorem ShadowInStep.openThrough (config : Config) (disk : Disk) :
    ShadowInStep (Engine.openThrough config disk) := rfl

theorem ShadowInStep.catchUp {e : Engine} (h : ShadowInStep e) (disk : Disk) :
    ShadowInStep (e.catchUp disk) := by
  rw [ShadowInStep, shadow_catchUp, records_catchUp, h, SigmaShadow.foldl_fold]

/-- A process in which no commit gets past its guards. -/
def noCommits : Policy where
  plans _ _ := True
  undos _ _ := True
  reapplies _ _ := True
  commits _ _ := False

variable {w : World} {id : TransformationId} {s s' : Sys}

theorem ShadowInStep.step (h : ShadowInStep s.engine) (hstep : Step noCommits w id s s') :
    ShadowInStep s'.engine := by
  have hrecord : ∀ r {e : Engine}, e.shadow = s.engine.shadow.fold r →
      e.records = s.engine.records ++ [r] → ShadowInStep e := by
    intro r e hshadow hrecords
    rw [ShadowInStep, hshadow, hrecords, SigmaShadow.ofRecords_append, ← h]
  cases hstep with
  | committing entry stamp hlive hstate hcanonical hverdict hpol => exact hpol.elim
  | provenance entry stamp hcommit hpol =>
    obtain ⟨_, hpol⟩ := hpol
    exact hpol.elim
  | asked | failed | crashed | blob | observation | filed | headed | seated | rehydrated | idle
  | restored | counted | explained | resumed | indexed | escrowHeld | applied | observationNamed
  | closed | leafed | leafedAgain => exact h
  | _ => exact hrecord _ rfl rfl

/-- The commit of a row would get past its guards, to T-9. -/
def CommitStarts (e : Engine) (id : TransformationId) : Prop :=
  ∃ entry, e.table[id]? = some entry ∧ entry.state = .canonicalized ∧ entry.canonicalCid.isSome ∧
    (receiptVerdict entry.verdict entry.verdictDigest entry.failPostureEngaged).isSome ∧
    (e.config.adapters entry.delta.substrate).isSome

/-- No call of this process commits a row past the guards of the commit. -/
def NoCommitStarts (pid : ℕ) (p : Project) (a : Action) : Prop :=
  a.pid = pid → ∀ s id stamp key, p.calls a = some (s, .commit id stamp key) →
    ¬ CommitStarts s.engine id

section Held

/-- A note the escrow row of its transformation shows. -/
def Note.movesEscrow : Note → Bool
  | .inverseEscrowed _ => true
  | .inverseCompleted _ => true
  | .superseded _ => true
  | _ => false

/-- Of a transformation it has no body of, the process holds no escrow row but the one the journal
folds to, and none that waits for its completion; and it names no successor but the journal's. -/
structure HeldInStep (e : Engine) (id : TransformationId) : Prop where
  escrow : id ∉ e.table → ∀ row, e.escrow[id]? = some row →
    escrowOf? id (e.notes id) = some row ∧ row.status ≠ .pending
  edge : ∀ by_, e.supersedes[id]? = some by_ → (rowOf id (e.notes id)).supersededBy = some by_

variable {e e' : Engine} {n : Note}

omit [Canon]

theorem EscrowRow.absorb_eq (held : Option EscrowRow) (hn : n.movesEscrow = false) :
    EscrowRow.absorb held id n = held := by
  cases n with
  | inverseEscrowed | inverseCompleted | superseded => cases hn
  | _ => rfl

theorem StateRow.supersededBy_absorb (row : StateRow) (hn : ∀ by_, n ≠ .superseded by_) :
    (row.absorb n).supersededBy = row.supersededBy := by
  cases n with
  | superseded by_ => exact absurd rfl (hn by_)
  | verdict kind digest engaged => cases engaged <;> rfl
  | _ => rfl

theorem escrowOf?_silent {notes more : List Note} (h : ∀ n ∈ more, n.movesEscrow = false) :
    escrowOf? id (notes ++ more) = escrowOf? id notes := by
  induction more using List.reverseRecOn with
  | nil => rw [List.append_nil]
  | append_singleton more n ih =>
    rw [← List.append_assoc, escrowOf?_append, EscrowRow.absorb_eq _ (h n (by simp))]
    exact ih fun m hm => h m (List.mem_append_left _ hm)

theorem supersededBy_named {notes more : List Note} {by_ : TransformationId}
    (hnow : (rowOf id notes).supersededBy = some by_)
    (h : ∀ other, .superseded other ∈ more → other = by_) :
    (rowOf id (notes ++ more)).supersededBy = some by_ := by
  induction more using List.reverseRecOn with
  | nil => rwa [List.append_nil]
  | append_singleton more n ih =>
    have hbefore := ih fun other hother => h other (List.mem_append_left _ hother)
    rw [← List.append_assoc, rowOf_append]
    by_cases hn : ∃ other, n = .superseded other
    · obtain ⟨other, rfl⟩ := hn
      exact congrArg some (h other (by simp))
    · rw [StateRow.supersededBy_absorb _ fun other hother => hn ⟨other, hother⟩]
      exact hbefore

theorem HeldInStep.same (h : HeldInStep e id) (hnotes : e'.notes id = e.notes id)
    (htable : id ∈ e.table → id ∈ e'.table) (hescrow : e'.escrow[id]? = e.escrow[id]?)
    (hedge : e'.supersedes[id]? = e.supersedes[id]?) : HeldInStep e' id where
  escrow hid row hrow := by
    rw [hescrow] at hrow
    rw [hnotes]
    exact h.escrow (fun hold => hid (htable hold)) row hrow
  edge by_ hby := by
    rw [hedge] at hby
    rw [hnotes]
    exact h.edge by_ hby

/-- A note of what neither the escrow row nor the edge shows. -/
theorem HeldInStep.noted (h : HeldInStep e id) (hnotes : e'.notes id = e.notes id ++ [n])
    (hn : n.movesEscrow = false) (htable : id ∈ e.table → id ∈ e'.table)
    (hescrow : e'.escrow[id]? = e.escrow[id]?) (hedge : e'.supersedes[id]? = e.supersedes[id]?) :
    HeldInStep e' id where
  escrow hid row hrow := by
    rw [hescrow] at hrow
    rw [hnotes, escrowOf?_append, EscrowRow.absorb_eq _ hn]
    exact h.escrow (fun hold => hid (htable hold)) row hrow
  edge by_ hby := by
    have hsilent : ∀ by_, n ≠ .superseded by_ := by
      rintro by_ rfl
      cases hn
    rw [hedge] at hby
    rw [hnotes, rowOf_append, StateRow.supersededBy_absorb _ hsilent]
    exact h.edge by_ hby

end Held

theorem HeldInStep.own {pol : Policy} (h : HeldInStep s.engine id) (hstep : Step pol w id s s') :
    HeldInStep s'.engine id := by
  have hlive : ∀ (m : BTreeMap Cid Entry) (f : Entry → Entry), id ∈ m → id ∈ m.modify id f :=
    fun m f hid => ExtTreeMap.mem_modify.mpr hid
  have hnotes : ∀ n stamp, (s.note id n stamp).engine.notes id = s.engine.notes id ++ [n] :=
    fun n stamp => Sys.notes_note s id n stamp
  cases hstep with
  | asked | failed | crashed | blob | observation | filed | headed | counted | explained | resumed
  | indexed | applied | leafed | leafedAgain => exact h.same rfl (fun hid => hid) rfl rfl
  | drafted =>
    exact h.same ((notesOf_append id _ _).trans (List.append_nil _)) (fun hid => hid) rfl rfl
  | seated | rehydrated =>
    exact h.same rfl (fun hid => ExtTreeMap.mem_insert.mpr (.inr hid)) rfl rfl
  | idle | observationNamed | closed => exact h.same rfl (hlive _ _) rfl rfl
  | planned | undone | announcedAgain | observed | committed =>
    exact h.noted (hnotes _ _) rfl (fun hid => hid) rfl rfl
  | verifyStarted | unverified | ruled | opened | decided | canonicalized | announced | aborted
  | committing | provenance => exact h.noted (hnotes _ _) rfl (hlive _ _) rfl rfl
  | restored row planned createdAt t delta fp0 pre intentId provenance _ hrow =>
    refine ⟨fun hid => absurd ExtTreeMap.mem_insert_self hid, fun by_ hby => ?_⟩
    cases hnew : row.supersededBy with
    | none =>
      rw [hnew] at hby
      exact h.edge by_ hby
    | some edge =>
      rw [hnew] at hby
      have hedge : (s.engine.supersedes.insertIfNew id edge)[id]? = some by_ := hby
      rw [ExtTreeMap.getElem?_insertIfNew] at hedge
      split at hedge
      next =>
        obtain rfl := Option.some.inj hedge
        exact (congrArg StateRow.supersededBy (rowOf_of_rowOf? hrow)).trans hnew
      next => exact h.edge by_ hedge
  | escrowed entry outcome pending stamp hcommit =>
    refine ⟨fun hid => absurd hcommit.mem_table hid, fun by_ hby => ?_⟩
    rw [hnotes, rowOf_append]
    exact h.edge by_ hby
  | escrowHeld row hrow hpending =>
    refine ⟨fun hid held hheld => ?_, h.edge⟩
    obtain rfl := Option.some.inj (ExtTreeMap.getElem?_insert_self.symm.trans hheld)
    exact ⟨hrow, fun hwaits => hid (hpending hwaits)⟩
  | completed inverse stamp _ hpending =>
    obtain ⟨row, hrow, hwaits⟩ := hpending
    refine ⟨fun hid held hheld => ?_, fun by_ hby => ?_⟩
    · obtain ⟨hjournal, hsettled⟩ := h.escrow hid held hheld
      rw [Option.some.inj (hrow.symm.trans hjournal)] at hwaits
      exact absurd hwaits hsettled
    · rw [hnotes, rowOf_append]
      exact h.edge by_ hby
  | superseded by_ stamp horiginal =>
    obtain ⟨_, entry, _, _, hentry, _, _, _, _, _, hfirst⟩ := supersededOriginal_spec horiginal
    refine ⟨fun hid => ?_, fun held hheld => ?_⟩
    · have htable : id ∈ s.engine.table :=
        ExtTreeMap.mem_iff_isSome_getElem?.mpr (by rw [hentry]; rfl)
      exact absurd (hlive _ _ htable) hid
    · have hedge : (s.engine.supersedes.insertIfNew id by_)[id]? = some held := hheld
      rw [ExtTreeMap.getElem?_insertIfNew, if_pos ⟨Std.ReflCmp.compare_self, hfirst⟩] at hedge
      rw [← hedge]
      exact congrArg StateRow.supersededBy
        ((congrArg (rowOf id) (hnotes (.superseded by_) stamp)).trans (rowOf_append id _ _))

theorem HeldInStep.step {pol : Policy} (h : ∀ id, HeldInStep s.engine id)
    (hstep : Step pol w id s s') (other : TransformationId) : HeldInStep s'.engine other := by
  by_cases hne : id = other
  · subst hne
    exact (h id).own hstep
  · have hframe := hstep.frame hne
    refine (h other).same hframe.notes (fun hid => ?_) hframe.escrow hframe.supersedes
    rw [ExtTreeMap.mem_iff_isSome_getElem?, hframe.table]
    exact ExtTreeMap.mem_iff_isSome_getElem?.mp hid

theorem HeldInStep.openThrough (config : Config) (disk : Disk) (id : TransformationId) :
    HeldInStep (Engine.openThrough config disk) id := by
  refine ⟨fun _ row hrow => ?_, fun by_ hby => ?_⟩
  · have hnone : (Engine.openThrough config disk).escrow[id]? = none := ExtTreeMap.getElem?_empty
    rw [hnone] at hrow
    cases hrow
  · have hnone : (Engine.openThrough config disk).supersedes[id]? = none :=
      ExtTreeMap.getElem?_empty
    rw [hnone] at hby
    cases hby

/-- No record reached the journal that moves an escrow row the process holds without the body, and
none that names another successor than the one the process knows. -/
structure Spares (disk : Disk) (e : Engine) : Prop where
  escrow : ∀ id n stamp, .about id n stamp ∈ e.arrived disk → id ∉ e.table → id ∈ e.escrow →
    n.movesEscrow = false
  edge : ∀ id by_ stamp held, .about id (.superseded by_) stamp ∈ e.arrived disk →
    e.supersedes[id]? = some held → by_ = held

/-- Whenever the process catches up, what it has not read spares what it holds. -/
def ArrivalsSpare (pid : ℕ) (p : Project) (a : Action) : Prop :=
  ∀ op, a = .locked pid op → ∀ e, p.process pid = some e → Spares p.disk e

theorem HeldInStep.catchUp {e : Engine} {disk : Disk} (h : HeldInStep e id)
    (hspares : Spares disk e) : HeldInStep (e.catchUp disk) id := by
  refine ⟨fun hid row hrow => ?_, fun by_ hby => ?_⟩
  · rw [escrow_catchUp] at hrow
    obtain ⟨hheld, hstays⟩ := getElem?_dropped hrow
    have hbody : id ∉ e.table := by
      intro hbody
      rw [ExtTreeMap.mem_iff_isSome_getElem?, table_catchUp, getElem?_kept hstays] at hid
      exact hid (ExtTreeMap.mem_iff_isSome_getElem?.mp hbody)
    have hescrow : id ∈ e.escrow :=
      ExtTreeMap.mem_iff_isSome_getElem?.mpr (by rw [hheld]; rfl)
    rw [notes_catchUp, escrowOf?_silent fun n hn => ?_]
    · exact h.escrow hbody row hheld
    · obtain ⟨t, ht⟩ := mem_notesOf.mp hn
      exact hspares.escrow id n t ht hbody hescrow
  · rw [supersedes_catchUp] at hby
    rw [notes_catchUp]
    refine supersededBy_named (h.edge by_ hby) fun other hother => ?_
    obtain ⟨t, ht⟩ := mem_notesOf.mp hother
    exact hspares.edge id other t by_ ht hby

section Afresh

variable {e : Engine}

omit [Canon] in
theorem HeldInStep.escrow_eq (h : HeldInStep e id) (hshadow : ShadowInStep e) (hid : id ∉ e.table) :
    (e.escrow[id]? <|> e.shadow.escrow[id]?) = e.shadow.escrow[id]? := by
  cases hheld : e.escrow[id]? with
  | none => rfl
  | some row =>
    rw [hshadow, SigmaShadow.escrow_ofRecords]
    exact (h.escrow hid row hheld).1.symm

omit [Canon] in
theorem HeldInStep.edge_eq (h : HeldInStep e id) (hshadow : ShadowInStep e) :
    e.supersededBy id = e.shadow.rows[id]?.bind (·.supersededBy) := by
  rw [supersededBy]
  cases hedge : e.supersedes[id]? with
  | none => rfl
  | some by_ =>
    have hjournal := h.edge by_ hedge
    rw [hshadow, SigmaShadow.rows_ofRecords, rowOf?]
    split
    next hnil =>
      rw [Engine.notes, hnil] at hjournal
      cases hjournal
    next => exact hjournal.symm

/-- Every answer about a row: of its body, which neither process has, or of the shadow. -/
structure AnsweredAfresh (disk : Disk) (e fresh : Engine) (id : TransformationId) : Prop where
  body : e.table[id]? = fresh.table[id]?
  state : e.state id = fresh.state id
  intentOf : e.intentOf id = fresh.intentOf id
  plannedDelta : e.plannedDelta disk id = fresh.plannedDelta disk id
  verdict : e.verdict id = fresh.verdict id
  enforced : e.enforced id = fresh.enforced id
  failPostureEngaged : e.failPostureEngaged id = fresh.failPostureEngaged id
  canonicalCid : e.canonicalCid id = fresh.canonicalCid id
  rollback : e.rollback id = fresh.rollback id
  escrowedInverse : e.escrowedInverse id = fresh.escrowedInverse id
  supersededBy : e.supersededBy id = fresh.supersededBy id
  inverseStatus : e.inverseStatus disk id = fresh.inverseStatus disk id
  deadline : e.deadline id = fresh.deadline id

theorem ShadowInStep.answeredAfresh (h : ShadowInStep e) (hheld : HeldInStep e id) {disk : Disk}
    (hdisk : disk.journal = e.records) (hid : id ∉ e.table) :
    AnsweredAfresh disk e (Engine.openThrough e.config disk) id := by
  have hnone : e.table[id]? = none := ExtTreeMap.getElem?_eq_none hid
  have hempty : (Engine.openThrough e.config disk).table[id]? = none := ExtTreeMap.getElem?_empty
  have hfresh : ShadowInStep (Engine.openThrough e.config disk) := .openThrough e.config disk
  have hshadow : (Engine.openThrough e.config disk).shadow = e.shadow := by
    rw [h, ← hdisk]
    rfl
  have hescrow := (HeldInStep.openThrough e.config disk id).escrow_eq hfresh
    (ExtTreeMap.not_mem_empty)
  have hedge := (HeldInStep.openThrough e.config disk id).edge_eq hfresh
  rw [hshadow] at hescrow hedge
  constructor
  · rw [hnone, hempty]
  · rw [Engine.state, Engine.state, hnone, hempty, hshadow]
  · rw [Engine.intentOf, Engine.intentOf, hnone, hempty, hshadow]
  · rw [Engine.plannedDelta, Engine.plannedDelta, hnone, hempty, hshadow]
  · rw [Engine.verdict, Engine.verdict, hnone, hempty, hshadow]
  · rw [Engine.enforced, Engine.enforced, hnone, hempty, hshadow]
  · rw [Engine.failPostureEngaged, Engine.failPostureEngaged, hnone, hempty, hshadow]
  · rw [Engine.canonicalCid, Engine.canonicalCid, hnone, hempty, hshadow]
  · rw [Engine.rollback, Engine.rollback, hnone, hempty, hshadow]
  · rw [Engine.escrowedInverse, Engine.escrowedInverse, hheld.escrow_eq h hid, hshadow, hescrow]
  · rw [hheld.edge_eq h, hedge]
  · rw [Engine.inverseStatus, Engine.inverseStatus, hheld.escrow_eq h hid, hshadow, hescrow]
  · rw [Engine.deadline, Engine.deadline, hnone, hempty, shadowDeadline, shadowDeadline, hshadow]
    rfl

/-- From the start of a process on, whatever other processes write: its shadow is the journal it
has read, and a row it has no body of is answered for as a process just started on that journal
would, as long as no commit of it gets past its guards, and no record reaches it that moves what
it holds of such a row. -/
theorem shadow_is_the_journal {w : World} {p₀ p : Project} {pid : ℕ} {config : Config}
    (h : (p₀.step w (.start pid config)).Reaches w
      (fun p a => NoCommitStarts pid p a ∧ ArrivalsSpare pid p a) p) {e : Engine}
    (he : p.process pid = some e) :
    e.shadow = SigmaShadow.ofRecords e.records ∧
      ∀ disk : Disk, disk.journal = e.records → ∀ id, id ∉ e.table →
        AnsweredAfresh disk e (Engine.openThrough e.config disk) id := by
  have hkept : ShadowInStep e ∧ ∀ id, HeldInStep e id := by
    refine Project.each_process (E := fun e => ShadowInStep e ∧ ∀ id, HeldInStep e id) noCommits h
      ?_ (fun p config _ => ⟨.openThrough config p.disk, .openThrough config p.disk⟩)
      (fun p op e ha hproc hs =>
        ⟨hs.1.catchUp p.disk, fun id => (hs.2 id).catchUp (ha.2 op rfl e hproc)⟩)
      (fun id s s' hstep hs => ⟨hs.1.step hstep, HeldInStep.step hs.2 hstep⟩) ?_
      (fun _ => trivial) e he
    · intro e he
      rw [Project.step, Project.process_set] at he
      obtain rfl := Option.some.inj he
      exact ⟨.openThrough config _, .openThrough config _⟩
    · intro p a ha hpid s op hcalls
      cases op with
      | commit id stamp key =>
        intro entry hentry hstate hcanonical hverdict hadapter
        exact ha.1 hpid s id stamp key hcalls
          ⟨entry, hentry, hstate, hcanonical, hverdict, hadapter⟩
      | plan intent stamp => exact fun _ _ _ _ _ => trivial
      | undo original witness rngSeed stamp => exact fun _ _ _ _ _ _ => trivial
      | recover stamp key => exact fun _ _ _ _ _ => trivial
      | canonicalize => exact fun _ _ _ _ => trivial
      | _ => trivial
  exact ⟨hkept.1, fun disk hdisk id hid => hkept.1.answeredAfresh (hkept.2 id) hdisk hid⟩

end Afresh

end Kept

section Bypass

open Tracefold.Ideal

/-- After one commit the shadow has no provenance for the row, and the journal has one. -/
theorem shadow_misses_a_commit :
    ¬ ∀ (w : World) (p : Project) (e : Engine), Project.empty.Reaches w (fun _ _ => True) p →
      p.process 0 = some e → e.shadow = SigmaShadow.ofRecords e.records := by
  intro h
  have hsome : ((Project.empty.run (fun _ => envAt 1) (committed 1)).process 0).isSome := by
    decide
  obtain ⟨e, he⟩ := Option.isSome_iff_exists.mp hsome
  have heq := h (fun _ => envAt 1) _ e (Project.reaches_run fun _ _ _ => trivial) he
  have hshadow : ((Project.empty.run (fun _ => envAt 1) (committed 1)).process 0).bind
      (fun e => e.shadow.rows[idAt 1]?.bind (·.provenance)) = none := by decide
  have hjournal : ((Project.empty.run (fun _ => envAt 1) (committed 1)).process 0).bind
      (fun e => (SigmaShadow.ofRecords e.records).rows[idAt 1]?.bind (·.provenance)) ≠ none := by
    decide
  rw [he, Option.bind_some] at hshadow hjournal
  rw [heq] at hshadow
  exact hjournal hshadow

/-- An object whose inverses wait for what was observed of the apply; the first process dies once
that is kept. -/
def interrupting : World := fun history =>
  { envAt 1 with
    apply := fun _ delta => .ok ⟨delta.reference, fingerprintAt 2, ⟨[2]⟩, 0, some [9]⟩
    needsCompletion := fun _ _ => .ok true
    completeInverse := fun inverse _ => .ok (some inverse)
    fault :=
      if history.any (fun | .observation _ => true | _ => false) &&
          !history.any (fun | .crashed => true | _ => false) then .crash
      else .none }

/-- A second process recovers the commit, and the first, started again, undoes it. -/
def outlived : Project :=
  let waiting : Config := { Ideal.config with completions := fun _ => true }
  Project.empty.run interrupting <|
    [.start 0 waiting, .call 0 (.submit intent 0 0), .call 0 (.plan intent 0)] ++
      committing (idAt 1) ++ [.start 1 waiting, .locked 1 (.recover 3 "k"), .start 0 waiting,
        .locked 0 (.rehydrateCommitted (idAt 1) intent),
        .locked 0 (.undo (idAt 1) (.unobservable .noPostcondition) 0 4)] ++
      committing (undoAt 1) ++ [.locked 1 (.cancel (idAt 1) 5)]

/-- Of the row it recovered, the second process then has the escrow row that is used up. -/
theorem escrow_outlives_its_undo :
    (outlived.process 1).map (fun e =>
      (decide (outlived.disk.journal = e.records), e.table.isEmpty,
        e.inverseStatus outlived.disk (idAt 1),
        (Engine.openThrough e.config outlived.disk).inverseStatus outlived.disk (idAt 1))) =
      some (true, true, some .available, some (.consumed (undoAt 1))) := by
  decide +kernel

/-- A process commits a change and plans the next one, and another process, started before it,
reads on. -/
def watched : Project :=
  (((Project.empty.step (fun _ => envAt 1) (.start 1 config)).run (fun _ => envAt 1)
    (committed 1 ++ [.call 0 (.submit (intentFor 5) 0 3), .call 0 (.plan (intentFor 5) 3)])).step
    (fun _ => envAt 1) (.locked 1 (.cancel (idAt 1) 4)))

/-- The second process has a row, an escrow row and a deadline out of its shadow. -/
theorem shadow_is_the_journal_watched :
    ∃ e, watched.process 1 = some e ∧ e.shadow = SigmaShadow.ofRecords e.records ∧
      e.state (idAt 1) = some .committed ∧
      e.inverseStatus watched.disk (idAt 1) = some .available ∧
      e.deadline (idFor 5 1) = some 1003 ∧
      AnsweredAfresh watched.disk e (Engine.openThrough e.config watched.disk) (idAt 1) ∧
      AnsweredAfresh watched.disk e (Engine.openThrough e.config watched.disk) (idFor 5 1) := by
  have hseen : (watched.process 1).map (fun e =>
      (e.state (idAt 1), e.inverseStatus watched.disk (idAt 1), e.deadline (idFor 5 1),
        decide (watched.disk.journal = e.records), e.table.isEmpty)) =
      some (some .committed, some .available, some 1003, true, true) := by decide
  obtain ⟨e, he, hseen⟩ := Option.map_eq_some_iff.mp hseen
  simp only [Prod.mk.injEq, decide_eq_true_eq] at hseen
  obtain ⟨hstate, hstatus, hdeadline, hjournal, hempty⟩ := hseen
  have hothers : ∀ a ∈ committed 1 ++
      [.call 0 (.submit (intentFor 5) 0 3), .call 0 (.plan (intentFor 5) 3)], a.pid = 0 := by
    decide
  have hreached : (Project.empty.step (fun _ => envAt 1) (.start 1 config)).Reaches
      (fun _ => envAt 1) (fun p a => NoCommitStarts 1 p a ∧ ArrivalsSpare 1 p a) watched := by
    refine .step (Project.reaches_run fun a ha p => ⟨fun hpid => ?_, ?_⟩) ⟨fun _ => ?_, ?_⟩
    · rw [hothers a ha] at hpid
      cases hpid
    · rintro op rfl
      cases hothers _ ha
    · intro s id stamp key hcalls
      cases Project.calls_op hcalls
    · intro op _ e he
      rw [Project.process_run_ne fun a ha => by rw [hothers a ha]; decide] at he
      obtain rfl := Option.some.inj he
      refine ⟨fun id n stamp _ _ hheld => absurd hheld ExtTreeMap.not_mem_empty, ?_⟩
      intro id by_ stamp held _ hheld
      exact absurd (ExtTreeMap.getElem?_empty.symm.trans hheld) (Option.some_ne_none held).symm
  obtain ⟨hshadow, hafresh⟩ := shadow_is_the_journal hreached he
  have hbody : ∀ id, id ∉ e.table := by
    intro id hid
    rw [ExtTreeMap.isEmpty_iff.mp hempty] at hid
    exact ExtTreeMap.not_mem_empty hid
  exact ⟨e, he, hshadow, hstate, hstatus, hdeadline, hafresh _ hjournal _ (hbody _),
    hafresh _ hjournal _ (hbody _)⟩

end Bypass

end Tracefold
