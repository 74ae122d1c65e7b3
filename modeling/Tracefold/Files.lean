import Mathlib.Tactic.Common
import Tracefold.Runs

/-! The files of a project against what has happened to it: the journal and the ledger are what
the history wrote, and a head that was recorded is never ahead of them. -/

namespace Tracefold

open Library Engine

/-- The records a history wrote. -/
def journalOf (history : List Event) : List Record :=
  history.filterMap fun
    | .journal record => some record
    | _ => none

/-- The leaves a history wrote. -/
def leavesOf (history : List Event) : List LedgerEntry :=
  history.filterMap fun
    | .leaf entry => some entry
    | _ => none

/-- What was applied for one transformation, and the answers. -/
def appliesOf (id : TransformationId) (history : List Event) :
    List (PlannedDelta × Except String AppliedDelta) :=
  history.filterMap fun
    | .apply t delta answer => if t = id then some (delta, answer) else none
    | _ => none

theorem journalOf_append (h h' : List Event) : journalOf (h ++ h') = journalOf h ++ journalOf h' :=
  List.filterMap_append

theorem leavesOf_append (h h' : List Event) : leavesOf (h ++ h') = leavesOf h ++ leavesOf h' :=
  List.filterMap_append

theorem appliesOf_append (id : TransformationId) (h h' : List Event) :
    appliesOf id (h ++ h') = appliesOf id h ++ appliesOf id h' :=
  List.filterMap_append

/-- The files are what the history wrote. -/
structure Told (history : List Event) (disk : Disk) : Prop where
  journal : journalOf history = disk.journal
  ledger : leavesOf history = disk.ledger

theorem Told.empty : Told [] .empty := ⟨rfl, rfl⟩

variable [Canon]

variable {pol : Policy} {w : World} {id : TransformationId} {s s' : Sys}

/-- What a move adds to the history: nothing, or one event, of the file it wrote. -/
inductive Happens (id : TransformationId) (s s' : Sys) : Prop where
  | nothing (hh : s'.history = s.history) (hd : s'.disk = s.disk)
  | journal (r : Record) (hh : s'.history = s.history ++ [.journal r])
      (hr : s'.engine.records = s.engine.records ++ [r])
      (hd : s'.disk = { s.disk with journal := s.disk.journal ++ [r] })
  | leaf (leaf : LedgerEntry) (hh : s'.history = s.history ++ [.leaf leaf])
      (hd : s'.disk = { s.disk with ledger := s.disk.ledger ++ [leaf] })
  | applied (delta : PlannedDelta) (answer : Except String AppliedDelta) (stamp : Timestamp)
      (hlast : s.engine.records.getLast? = some (.about id (.applyStarted delta.cid) stamp))
      (hh : s'.history = s.history ++ [.apply id delta answer]) (hd : s'.disk = s.disk)
  | other (ev : Event) (hh : s'.history = s.history ++ [ev]) (hjournal : journalOf [ev] = [])
      (hleaves : leavesOf [ev] = []) (happlies : ∀ t, appliesOf t [ev] = [])
      (hj : s'.disk.journal = s.disk.journal) (hl : s'.disk.ledger = s.disk.ledger)

theorem Step.happens (h : Step pol w id s s') : Happens id s s' := by
  cases h with
  | asked | failed | crashed | blob | observation | filed | headed => exact .other _ rfl rfl rfl (fun _ => rfl) rfl rfl
  | seated | rehydrated | idle | restored | counted | explained | resumed | indexed | escrowHeld
  | observationNamed | closed => exact .nothing rfl rfl
  | applied kind delta stamp hlast => exact .applied _ _ stamp hlast rfl rfl
  | leafed => exact .leaf _ rfl rfl
  | leafedAgain => exact .leaf _ rfl rfl
  | _ => exact .journal _ rfl rfl rfl

theorem Step.mem_attemptEvents (hstep : Step pol w id s s') {other : TransformationId} {ev : Event}
    (hmem : ev ∈ attemptEvents other s.history)
    (hn : ∀ n t, s'.engine.records = s.engine.records ++ [.about other n t] → n.starts = false) :
    ev ∈ attemptEvents other s'.history := by
  have happend : ∀ ev', Event.starts other ev' = false →
      ev ∈ attemptEvents other (s.history ++ [ev']) := by
    intro ev' hstarts
    rw [attemptEvents, afterLast_unmarked hstarts]
    exact List.mem_append_left _ hmem
  cases hstep.happens with
  | nothing hh => rwa [hh]
  | leaf leaf hh => rw [hh]; exact happend _ rfl
  | applied delta answer _ _ hh => rw [hh]; exact happend _ rfl
  | other ev' hh hnone =>
    rw [hh]
    refine happend ev' ?_
    cases ev' with
    | journal r => cases hnone
    | _ => rfl
  | journal r hh hr =>
    rw [hh]
    refine happend _ ?_
    cases r with
    | draftCreated => rfl
    | about t n stamp =>
      by_cases ht : t = other
      · subst ht
        have hquiet := hn n stamp hr
        cases n <;> first | rfl | cases hquiet
      · cases n <;> first | rfl | exact decide_eq_false ht

theorem Told.step (h : Told s.history s.disk) (hstep : Step pol w id s s') :
    Told s'.history s'.disk := by
  obtain ⟨hjournal, hledger⟩ := h
  cases hstep.happens with
  | nothing hh hd =>
    rw [hh, hd]
    exact ⟨hjournal, hledger⟩
  | journal r hh _ hd =>
    rw [hh, hd]
    refine ⟨?_, ?_⟩
    · rw [journalOf_append, hjournal]
      rfl
    · rw [leavesOf_append, hledger]
      exact List.append_nil _
  | leaf leaf hh hd =>
    rw [hh, hd]
    refine ⟨?_, ?_⟩
    · rw [journalOf_append, hjournal]
      exact List.append_nil _
    · rw [leavesOf_append, hledger]
      rfl
  | applied delta answer _ _ hh hd =>
    rw [hh, hd]
    refine ⟨?_, ?_⟩
    · rw [journalOf_append, hjournal]
      exact List.append_nil _
    · rw [leavesOf_append, hledger]
      exact List.append_nil _
  | other ev hh hnone hleaves _ hj hl =>
    rw [hh]
    refine ⟨?_, ?_⟩
    · rw [journalOf_append, hjournal, hnone, hj, List.append_nil]
    · rw [leavesOf_append, hledger, hleaves, hl, List.append_nil]

/-- A floor under both files: neither is behind it, and it was recorded over what they held. -/
structure HeadFloor.Holds (floor : HeadFloor) (ledger : List LedgerEntry) (records : List Record) :
    Prop where
  treeSize : floor.treeSize ≤ ledger.length
  root : rootAt ledger floor.treeSize = some floor.rootHash
  journalLen : floor.journalLen ≤ records.length
  journalHead : Canon.chainHead (records.take floor.journalLen) = floor.journalHead

theorem HeadFloor.Holds.rollbackOf {floor : HeadFloor} {e : Engine}
    (h : floor.Holds e.ledger e.records) : rollbackOf floor e = false := by
  unfold Engine.rollbackOf
  rw [if_neg (Nat.not_lt.mpr h.treeSize), if_neg (fun hroot => hroot.2 h.root),
    if_neg (Nat.not_lt.mpr h.journalLen), if_neg (fun hhead => hhead.2 h.journalHead)]

theorem rootAt_append {ledger more : List LedgerEntry} {n : ℕ} (h : n ≤ ledger.length) :
    rootAt (ledger ++ more) n = rootAt ledger n := by
  unfold rootAt
  rw [List.take_append_of_le_length h]
  have hlong : ¬ (ledger ++ more).length < n := by
    rw [List.length_append]
    omega
  simp only [hlong, Nat.not_lt.mpr h]

theorem HeadFloor.Holds.mono {floor : HeadFloor} {ledger : List LedgerEntry}
    {records : List Record} (h : floor.Holds ledger records) (leaves : List LedgerEntry)
    (arrived : List Record) :
    floor.Holds (ledger ++ leaves) (records ++ arrived) where
  treeSize := by
    have := h.treeSize
    rw [List.length_append]
    omega
  root := by rw [rootAt_append h.treeSize, h.root]
  journalLen := by
    have := h.journalLen
    rw [List.length_append]
    omega
  journalHead := by rw [List.take_append_of_le_length h.journalLen, h.journalHead]

/-- The head on disk, if there is one, was recorded over what the files held. -/
def Floored (disk : Disk) : Prop :=
  ∀ head, disk.head = some head → head.floor.Holds disk.ledger disk.journal

theorem Floored.empty : Floored .empty := fun _ h => nomatch h

theorem Floored.step (hin : InStep s) (h : Floored s.disk) (hstep : Step pol w id s s') :
    Floored s'.disk := by
  intro head hhead
  have hkept : s'.disk.head = s.disk.head → head.floor.Holds s'.disk.ledger s'.disk.journal := by
    intro hsame
    have hold := h head (hsame ▸ hhead)
    cases hstep.writes with
    | nothing _ hj _ hd => rw [hj, hd]; exact hold
    | record r _ hj _ hd => simpa [hj, hd] using hold.mono [] [r]
    | leaf leaf _ hj _ hd => simpa [hj, hd] using hold.mono [leaf] []
  cases hstep with
  | headed floor key hfloor =>
    obtain ⟨hsize, hroot, hlen, hchain⟩ := hfloor
    cases hhead
    rw [hin.ledger] at hsize hroot
    rw [hin.records] at hlen hchain
    refine ⟨hsize.le, hsize ▸ hroot, hlen.le, ?_⟩
    rw [hlen, hchain]
    exact congrArg Canon.chainHead (List.take_length)
  | _ => exact hkept rfl

/-- A process that refuses nothing: its files are those it was started on, and not behind. -/
structure Unrolled (e : Engine) : Prop where
  departed : e.journalDeparture = false
  rolled : e.rolledBack = false

theorem Unrolled.openThrough {disk : Disk} (h : Floored disk) (config : Config) :
    Unrolled (Engine.openThrough config disk) := by
  refine ⟨rfl, ?_⟩
  unfold Engine.openThrough
  dsimp only
  split
  next =>
    cases hhead : disk.head with
    | none => rfl
    | some head => exact (h head hhead).rollbackOf
  next => rfl

theorem Unrolled.step (h : Unrolled s.engine) (hstep : Step pol w id s s') :
    Unrolled s'.engine := by
  cases hstep <;> exact ⟨h.departed, h.rolled⟩

end Tracefold
