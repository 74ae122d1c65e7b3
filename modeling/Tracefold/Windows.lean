import Mathlib.Tactic.Common
import Tracefold.Ideal
import Tracefold.Verdicts

/-! The windows of a verdict log against the rulings of the journal: when they lie end to end and
each counts what falls in it. -/

namespace Tracefold

open Library Engine

namespace VerdictTally

theorem count_add (t u : VerdictTally) (kind : Option VerdictKind) :
    (t.add u).count kind = t.add (u.count kind) := by
  cases kind with
  | none => rfl
  | some kind => cases kind <;> rfl

theorem total_count (t : VerdictTally) (kind : Option VerdictKind) :
    (t.count kind).total = t.total + 1 := by
  cases kind with
  | none => simp only [count, total]; omega
  | some kind => cases kind <;> (simp only [count, total]; omega)

theorem add_sub (t u : VerdictTally) : (t.add u).sub t = u := by
  simp [add, sub]

end VerdictTally

/-- The count of a list of rulings. -/
def tallyOf (kinds : List (Option VerdictKind)) : VerdictTally :=
  kinds.foldl VerdictTally.count .empty

theorem tallyOf_concat (kinds : List (Option VerdictKind)) (kind : Option VerdictKind) :
    tallyOf (kinds ++ [kind]) = (tallyOf kinds).count kind := by
  rw [tallyOf, List.foldl_append]
  rfl

theorem tallyOf_append (kinds more : List (Option VerdictKind)) :
    tallyOf (kinds ++ more) = (tallyOf kinds).add (tallyOf more) := by
  induction more using List.reverseRecOn with
  | nil => rw [List.append_nil]; rfl
  | append_singleton more kind ih =>
    rw [← List.append_assoc, tallyOf_concat, tallyOf_concat, ih, VerdictTally.count_add]

theorem total_tallyOf (kinds : List (Option VerdictKind)) :
    (tallyOf kinds).total = kinds.length := by
  induction kinds using List.reverseRecOn with
  | nil => rfl
  | append_singleton kinds kind ih =>
    rw [tallyOf_concat, VerdictTally.total_count, ih, List.length_append]
    rfl

theorem tallyFromTheJournal_eq (records : List Record) :
    tallyFromTheJournal records = tallyOf (ruledOf records) := by
  induction records using List.reverseRecOn with
  | nil => rfl
  | append_singleton records record ih =>
    rw [ruledOf_append, tallyOf_append, ← ih, tallyFromTheJournal, List.foldl_append]
    cases record with
    | draftCreated => rfl
    | about id note stamp =>
      cases note with
      | verdict kind digest engaged =>
        cases digest with
        | none => rfl
        | some digest => cases kind <;> rfl
      | humanDecision kind reason actor digest => cases kind <;> rfl
      | _ => rfl

/-- The windows of a log lie end to end from the first ruling up to some point, and each counts
the rulings that fall in it. -/
inductive Tiled (ruled : List (Option VerdictKind)) : ℕ → List VerdictCheckpoint → Prop where
  | nil : Tiled ruled 0 []
  | append {reach : ℕ} {log : List VerdictCheckpoint} {c : VerdictCheckpoint}
      (h : Tiled ruled reach log) (hstart : c.windowStart = reach) (hle : reach ≤ c.windowEnd)
      (hend : c.windowEnd ≤ ruled.length)
      (htally : c.tally = tallyOf ((ruled.take c.windowEnd).drop reach)) :
      Tiled ruled c.windowEnd (log ++ [c])

namespace Tiled

variable {ruled : List (Option VerdictKind)} {reach : ℕ} {log : List VerdictCheckpoint}

theorem reach_le (h : Tiled ruled reach log) : reach ≤ ruled.length := by
  cases h with
  | nil => exact Nat.zero_le _
  | append _ _ _ hend _ => exact hend

/-- The tally of one window after those before it. -/
theorem tally_window {a b : ℕ} (hle : a ≤ b) :
    (tallyOf (ruled.take a)).add (tallyOf ((ruled.take b).drop a)) = tallyOf (ruled.take b) := by
  have htake : ruled.take a = (ruled.take b).take a := by
    rw [List.take_take, Nat.min_eq_left hle]
  rw [htake, ← tallyOf_append, List.take_append_drop]

theorem publishedBy_eq (h : Tiled ruled reach log) :
    publishedBy log = tallyOf (ruled.take reach) := by
  induction h with
  | nil => rfl
  | append _ _ hle _ htally ih =>
    rw [publishedBy, List.foldl_append]
    simp only [List.foldl_cons, List.foldl_nil]
    rw [← publishedBy, ih, htally, tally_window hle]

theorem mono (h : Tiled ruled reach log) (more : List (Option VerdictKind)) :
    Tiled (ruled ++ more) reach log := by
  induction h with
  | nil => exact .nil
  | append _ hstart hle hend htally ih =>
    refine .append ih hstart hle ?_ ?_
    · rw [List.length_append]
      omega
    · rw [List.take_append_of_le_length hend]
      exact htally

theorem windowEnd_le (h : Tiled ruled reach log) {c : VerdictCheckpoint} (hc : c ∈ log) :
    c.windowEnd ≤ reach := by
  induction h with
  | nil => cases hc
  | append _ _ hle _ _ ih =>
    rcases List.mem_append.mp hc with hbefore | hlast
    · exact (ih hbefore).trans hle
    · rw [List.mem_singleton.mp hlast]

theorem tally_eq (h : Tiled ruled reach log) {c : VerdictCheckpoint} (hc : c ∈ log) :
    c.tally = tallyOf ((ruled.take c.windowEnd).drop c.windowStart) := by
  induction h with
  | nil => cases hc
  | append _ hstart _ _ htally ih =>
    rcases List.mem_append.mp hc with hbefore | hlast
    · exact ih hbefore
    · rw [List.mem_singleton.mp hlast, hstart]
      exact htally

theorem pairwise (h : Tiled ruled reach log) :
    log.Pairwise fun a b => a.windowEnd ≤ b.windowStart := by
  induction h with
  | nil => exact .nil
  | append h hstart _ _ _ ih =>
    refine List.pairwise_append.mpr ⟨ih, List.pairwise_singleton .., fun a ha b hb => ?_⟩
    rw [List.mem_singleton.mp hb, hstart]
    exact h.windowEnd_le ha

end Tiled

theorem detectVerdictEquivocation_eq_nil {log : List VerdictCheckpoint}
    (h : log.Pairwise fun a b => contradictions a b = []) : detectVerdictEquivocation log = [] := by
  induction h with
  | nil => rfl
  | cons hfirst _ ih =>
    rw [detectVerdictEquivocation, ih, List.append_nil]
    exact List.flatMap_eq_nil_iff.mpr hfirst

theorem contradictions_eq_nil {a b : VerdictCheckpoint}
    (hapart : a.windowStart < b.windowEnd → b.windowStart < a.windowEnd →
      a.windowStart = b.windowStart ∧ a.windowEnd = b.windowEnd)
    (hquiet : a.windowStart = b.windowStart → a.windowEnd = b.windowEnd → a.tally = b.tally)
    (hroot : a.ledgerTreeSize = b.ledgerTreeSize → a.ledgerRootHash = b.ledgerRootHash) :
    contradictions a b = [] := by
  have hforked : forkedLedgerHead a b = none := by
    unfold forkedLedgerHead
    split
    next => rfl
    next hsize =>
      rw [hroot (not_not.mp hsize)]
      cases b.ledgerRootHash with
      | none => rfl
      | some root => exact if_pos rfl
  unfold contradictions
  split
  next => rfl
  next =>
    rw [hforked]
    split
    next hsame => simp [hquiet hsame.1 hsame.2]
    next hdiffer =>
      rw [if_neg fun hoverlap => hdiffer (hapart hoverlap.1 hoverlap.2)]
      rfl

section Kept

variable [Canon]

/-- Every checkpoint is bound to the ledger as it was when it had as many leaves. -/
def Anchored (ledger : List LedgerEntry) (log : List VerdictCheckpoint) : Prop :=
  ∀ c ∈ log, c.ledgerTreeSize ≤ ledger.length ∧
    c.ledgerRootHash = mth ((ledger.take c.ledgerTreeSize).map (·.leafCid))

theorem Anchored.mono {ledger ledger' : List LedgerEntry} {log : List VerdictCheckpoint}
    (h : Anchored ledger log) (hle : ledger <+: ledger') : Anchored ledger' log := by
  obtain ⟨more, rfl⟩ := hle
  intro c hc
  obtain ⟨hsize, hroot⟩ := h c hc
  refine ⟨?_, ?_⟩
  · rw [List.length_append]
    omega
  · rw [List.take_append_of_le_length hsize]
    exact hroot

theorem Tiled.detects_nothing {ruled : List (Option VerdictKind)} {reach : ℕ}
    {log : List VerdictCheckpoint} {ledger : List LedgerEntry} (h : Tiled ruled reach log)
    (hanchored : Anchored ledger log) : detectVerdictEquivocation log = [] := by
  refine detectVerdictEquivocation_eq_nil (h.pairwise.imp_of_mem fun {a b} ha hb hapart => ?_)
  refine contradictions_eq_nil (by omega) (fun hstart hend => ?_) fun hsize => ?_
  · rw [h.tally_eq ha, h.tally_eq hb, hstart, hend]
  · rw [(hanchored a ha).2, (hanchored b hb).2, hsize]

/-- A turn of a process that catches up under the lock before it rules or publishes. -/
def Turn.Disciplined : Turn → Prop
  | .act (.call _ (.verify _ _ _ _)) => False
  | .act (.call _ (.escalation _ _ _ _)) => False
  | .act _ => True
  | .checkpoint _ _ _ _ _ => False
  | .lockedCheckpoint _ _ _ _ _ => True

instance : ∀ t : Turn, Decidable t.Disciplined
  | .act (.call _ op) => by
    cases op <;> unfold Turn.Disciplined <;> infer_instance
  | .act (.start _ _) | .act (.locked _ _) => isTrue trivial
  | .checkpoint _ _ _ _ _ => isFalse id
  | .lockedCheckpoint _ _ _ _ _ => isTrue trivial

/-- A process that publishes has counted every ruling of the journal, and takes as published what
the log speaks for: both as a process started now would. -/
def CountsAll (d : Deployment) (t : Turn) : Prop :=
  ∀ pid e, d.publishes t = some (pid, e) →
    e.verdicts = tallyFromTheJournal d.project.disk.journal ∧
      d.published pid = publishedBy d.verdictLog

instance (d : Deployment) (t : Turn) : Decidable (CountsAll d t) :=
  match hpublishes : d.publishes t with
  | none => isTrue fun _ _ h => nomatch hpublishes.symm.trans h
  | some (pid, e) =>
    decidable_of_iff (e.verdicts = tallyFromTheJournal d.project.disk.journal ∧
        d.published pid = publishedBy d.verdictLog) <| by
      unfold CountsAll
      rw [hpublishes]
      simp

/-- The checkpoints of a deployment, over the rulings of its journal and over its ledger. -/
structure Accounted (d : Deployment) : Prop where
  tiled : ∃ reach, Tiled (ruledOf d.project.disk.journal) reach d.verdictLog
  anchored : Anchored d.project.disk.ledger d.verdictLog

theorem Accounted.empty : Accounted .empty := ⟨⟨0, .nil⟩, fun _ hc => nomatch hc⟩

theorem Accounted.act {w : World} {d : Deployment} (h : Accounted d) (a : Action) :
    Accounted (d.step w (.act a)) := by
  obtain ⟨⟨reach, htiled⟩, hanchored⟩ := h
  obtain ⟨⟨records, hjournal⟩, hledger⟩ := Project.step_grows w d.project a
  refine ⟨⟨reach, ?_⟩, hanchored.mono hledger⟩
  have hruled : ruledOf (d.project.step w a).disk.journal =
      ruledOf d.project.disk.journal ++ ruledOf records := by
    rw [← hjournal, ruledOf_append]
  exact (congrArg (Tiled · reach d.verdictLog) hruled).mpr (htiled.mono _)

/-- A checkpoint from full counts over the whole ledger closes the next window. -/
theorem Accounted.publish {d : Deployment} (h : Accounted d) {pid : ℕ} {e : Engine}
    (hverdicts : e.verdicts = tallyFromTheJournal d.project.disk.journal)
    (hpublished : d.published pid = publishedBy d.verdictLog)
    (hledger : e.ledger = d.project.disk.ledger) (origin : String) (at_ : Timestamp) (key : KeyId)
    (fault : Fault) : Accounted (d.publish pid e origin at_ key fault) := by
  obtain ⟨⟨reach, htiled⟩, hanchored⟩ := h
  rw [tallyFromTheJournal_eq] at hverdicts
  rw [htiled.publishedBy_eq] at hpublished
  unfold Deployment.publish
  split
  next => exact ⟨⟨reach, htiled⟩, hanchored⟩
  next => exact ⟨⟨reach, htiled⟩, hanchored⟩
  next => exact ⟨⟨reach, htiled⟩, hanchored⟩
  next c hc =>
    unfold Engine.verdictCheckpoint at hc
    split at hc
    next =>
      obtain rfl := Except.ok.inj hc
      have hreach : (d.published pid).total = reach := by
        rw [hpublished, total_tallyOf, List.length_take, Nat.min_eq_left htiled.reach_le]
      have hend : e.verdicts.total = (ruledOf d.project.disk.journal).length := by
        rw [hverdicts, total_tallyOf]
      have htally : e.verdicts.sub (d.published pid) =
          tallyOf (((ruledOf d.project.disk.journal).take e.verdicts.total).drop reach) := by
        rw [hend, List.take_length, hpublished, hverdicts,
          ← List.take_append_drop reach (ruledOf d.project.disk.journal), tallyOf_append,
          List.take_append_drop, VerdictTally.add_sub]
      refine ⟨⟨_, .append htiled hreach ?_ (Nat.le_of_eq hend) htally⟩, ?_⟩
      · exact hend ▸ htiled.reach_le
      · intro c hc
        rcases List.mem_append.mp hc with hbefore | hlast
        · exact hanchored c hbefore
        · rw [List.mem_singleton.mp hlast, hledger]
          exact ⟨Nat.le_refl _, (congrArg (mth ∘ List.map _) (List.take_length)).symm⟩
    next => cases hc

theorem catchUp_ledger (disk : Disk) (e : Engine) : (e.catchUp disk).ledger = disk.ledger := by
  unfold Engine.catchUp
  simp only
  split <;> rfl

/-- Every process rules and publishes under the lock, after it has caught up, from counts no other
process has moved past: the windows of the verdict log tile the count. -/
theorem windows_tile {w : World} {d : Deployment}
    (h : Deployment.Reaches w (fun d t => t.Disciplined ∧ CountsAll d t) d) :
    (∃ reach, Tiled (ruledOf d.project.disk.journal) reach d.verdictLog) ∧
      detectVerdictEquivocation d.verdictLog = [] := by
  have haccounted : Accounted d := by
    induction h with
    | empty => exact .empty
    | @step d t _ ht ih =>
      obtain ⟨hdisciplined, hcounts⟩ := ht
      cases t with
      | act a => exact ih.act a
      | checkpoint => exact hdisciplined.elim
      | lockedCheckpoint pid origin at_ key fault =>
        cases hproc : d.project.process pid with
        | none =>
          have hsame : d.step w (.lockedCheckpoint pid origin at_ key fault) = d := by
            simp only [Deployment.step, hproc]
          rw [hsame]
          exact ih
        | some e =>
          have hstep : d.step w (.lockedCheckpoint pid origin at_ key fault) =
              d.publish pid (e.catchUp d.project.disk) origin at_ key fault := by
            simp only [Deployment.step, hproc]
          have hpublishes : d.publishes (.lockedCheckpoint pid origin at_ key fault) =
              some (pid, e.catchUp d.project.disk) := by
            simp only [Deployment.publishes, hproc, Option.map_some]
          obtain ⟨hverdicts, hpublished⟩ := hcounts _ _ hpublishes
          rw [hstep]
          exact ih.publish hverdicts hpublished (catchUp_ledger ..) origin at_ key fault
  obtain ⟨⟨reach, htiled⟩, hanchored⟩ := haccounted
  exact ⟨⟨reach, htiled⟩, htiled.detects_nothing hanchored⟩

end Kept

section Two

open Tracefold.Ideal

/-- A process takes an intent to its verdict under the lock. -/
def ruling (pid : ℕ) (goal : UInt8) : List Turn :=
  [.act (.locked pid (.submit (intentFor goal) 0 0)), .act (.locked pid (.plan (intentFor goal) 0)),
    .act (.locked pid (.verify (idFor goal 1) 1 "k" none))]

def publishing (pid : ℕ) : List Turn := [.lockedCheckpoint pid "o" 2 "k" .none]

/-- One process rules and publishes, and another one is started after it and does the same. -/
def inTurn : Deployment :=
  Deployment.empty.run (objectFrom 1 fun _ env => env)
    ([.act (.start 0 Ideal.config)] ++ ruling 0 1 ++ publishing 0 ++
      [.act (.start 1 Ideal.config)] ++ ruling 1 2 ++ publishing 1)

theorem windows_tile_in_turn :
    inTurn.verdictLog.map (fun c => (c.windowStart, c.windowEnd)) = [(0, 1), (1, 2)] ∧
      (∃ reach, Tiled (ruledOf inTurn.project.disk.journal) reach inTurn.verdictLog) ∧
      detectVerdictEquivocation inTurn.verdictLog = [] := by
  have hwindows : inTurn.verdictLog.map (fun c => (c.windowStart, c.windowEnd)) =
      [(0, 1), (1, 2)] := by decide
  have halong : Deployment.empty.Along (objectFrom 1 fun _ env => env)
      (fun d t => t.Disciplined ∧ CountsAll d t)
      ([.act (.start 0 Ideal.config)] ++ ruling 0 1 ++ publishing 0 ++
        [.act (.start 1 Ideal.config)] ++ ruling 1 2 ++ publishing 1) := by
    decide
  exact ⟨hwindows, windows_tile (Deployment.Reaches.empty.run halong)⟩

/-- Both processes are started first. Each has counted only its own verdict when it publishes, and
takes nothing as published: two windows over the first ruling, one of them for the second. -/
def atOnce : Deployment :=
  Deployment.empty.run (objectFrom 1 fun _ env => env)
    ([.act (.start 0 Ideal.config), .act (.start 1 Ideal.config)] ++ ruling 0 1 ++ publishing 0 ++
      ruling 1 2 ++ publishing 1)

theorem windows_overlap :
    Deployment.Reaches (objectFrom 1 fun _ env => env) (fun _ t => t.Disciplined) atOnce ∧
      atOnce.verdictLog.map (fun c => (c.windowStart, c.windowEnd)) = [(0, 1), (0, 1)] ∧
      (ruledOf atOnce.project.disk.journal).length = 2 ∧
      ¬ ∃ reach, Tiled (ruledOf atOnce.project.disk.journal) reach atOnce.verdictLog := by
  have halong : Deployment.empty.Along (objectFrom 1 fun _ env => env)
      (fun _ t => t.Disciplined)
      ([.act (.start 0 Ideal.config), .act (.start 1 Ideal.config)] ++ ruling 0 1 ++ publishing 0 ++
        ruling 1 2 ++ publishing 1) := by
    decide
  have hwindows : atOnce.verdictLog.map (fun c => (c.windowStart, c.windowEnd)) =
      [(0, 1), (0, 1)] := by decide
  have hruled : (ruledOf atOnce.project.disk.journal).length = 2 := by decide
  refine ⟨Deployment.Reaches.empty.run halong, hwindows, hruled, ?_⟩
  rintro ⟨reach, htiled⟩
  have hpairs : (atOnce.verdictLog.map fun c => (c.windowStart, c.windowEnd)).Pairwise
      fun a b => a.2 ≤ b.1 := List.pairwise_map.mpr htiled.pairwise
  rw [hwindows] at hpairs
  exact absurd hpairs (by decide)

end Two

end Tracefold
