import Mathlib.Tactic.Common
import Tracefold.Library.Log
import Tracefold.Process
import Tracefold.Replay

/-! What the notes about one transformation say: its state, its current attempt at a commit, and
what the history has of it. -/

namespace Tracefold

open Library Engine
open Std (ExtTreeMap)

/-- The state a note leaves a transformation in. -/
def Note.next (state : Option Lifecycle) : Note → Option Lifecycle
  | .planned _ => some .candidate
  | .verifyStarted => some .verifying
  | .verdict kind _ failPostureEngaged =>
    some (if failPostureEngaged then .admitted else stateOfVerdict kind)
  | .humanDecision kind _ _ _ => some (stateOfVerdict kind)
  | .canonicalized _ _ => some .canonicalized
  | .committingStarted => some .committing
  | .committed _ => some .committed
  | .aborted reason _ => some (.aborted reason)
  | .superseded _ => some .superseded
  | .provenanceDerived _ => state
  | .inverseEscrowed _ => state
  | .applyStarted _ => state
  | .applyObserved _ => state
  | .inverseCompleted _ => state

/-- The state the notes about a transformation give it. -/
def stateOf? (notes : List Note) : Option Lifecycle := notes.foldl Note.next none

@[simp]
theorem stateOf?_append (notes : List Note) (note : Note) :
    stateOf? (notes ++ [note]) = note.next (stateOf? notes) := by
  simp [stateOf?]

theorem StateRow.state_absorb (row : StateRow) (note : Note) :
    (row.absorb note).state = note.next row.state := by
  cases note with
  | verdict kind digest engaged => cases engaged <;> rfl
  | _ => rfl

theorem state_rowOf (id : TransformationId) (notes : List Note) :
    (rowOf id notes).state = stateOf? notes := by
  induction notes using List.reverseRecOn with
  | nil => rfl
  | append_singleton notes note ih =>
    rw [rowOf_append, StateRow.state_absorb, ih, stateOf?_append]

theorem SigmaShadow.state_ofRecords (records : List Record) (id : TransformationId) :
    (SigmaShadow.ofRecords records).state id = stateOf? (notesOf id records) := by
  rw [SigmaShadow.state, SigmaShadow.rows_ofRecords, rowOf?]
  split
  next h => rw [h]; rfl
  next => exact state_rowOf id _

/-- The mark of a new attempt at a commit. -/
def Note.starts : Note → Bool
  | .committingStarted => true
  | _ => false

/-- The notes since the last commit of a transformation started. -/
def attempt (notes : List Note) : List Note := afterLast Note.starts notes

def Event.starts (id : TransformationId) : Event → Bool
  | .journal (.about t .committingStarted _) => t = id
  | _ => false

/-- The events since the last commit of a transformation started. -/
def attemptEvents (id : TransformationId) (history : List Event) : List Event :=
  afterLast (Event.starts id) history

/-- The last apply made for a transformation, and its answer. -/
def lastApply (id : TransformationId) (history : List Event) :
    Option (PlannedDelta × Except String AppliedDelta) :=
  history.foldl (fun last event =>
    match event with
    | .apply t delta answer => if t = id then some (delta, answer) else last
    | _ => last) none

/-- The ruling a note publishes. -/
def Note.tallied : Note → Option (Option VerdictKind)
  | .verdict kind (some _) _ => some (some kind)
  | .verdict _ none _ => some none
  | .humanDecision kind _ _ _ => some (some kind)
  | _ => none

/-- The rulings of a journal, in order: every verdict and every human decision. -/
def ruledOf (records : List Record) : List (Option VerdictKind) :=
  records.filterMap fun
    | .about _ note _ => note.tallied
    | .draftCreated _ _ _ => none

theorem ruledOf_append (records more : List Record) :
    ruledOf (records ++ more) = ruledOf records ++ ruledOf more :=
  List.filterMap_append

/-- The notes this process has read about a transformation. -/
abbrev Engine.notes (e : Engine) (id : TransformationId) : List Note := notesOf id e.records

theorem Engine.journalState_eq (e : Engine) (id : TransformationId) :
    e.journalState id = stateOf? (e.notes id) := by
  rw [journalState, stateOf_reconstruct, rowOf?, notes]
  split
  next h => rw [h]; rfl
  next => exact state_rowOf id _

/-- The state `reconstruct` gives a transformation. -/
def sigmaState (records : List Record) (id : TransformationId) : Option Lifecycle :=
  ((reconstruct records).stateOf id).bind (·.state)

theorem sigmaState_eq (records : List Record) (id : TransformationId) :
    sigmaState records id = stateOf? (notesOf id records) := by
  rw [sigmaState, stateOf_reconstruct, rowOf?]
  split
  next h => rw [h]; rfl
  next => exact state_rowOf id _

theorem row_of_sigmaState {records : List Record} {id : TransformationId} {state : Lifecycle}
    (h : sigmaState records id = some state) : ∃ row ∈ (reconstruct records).transformations,
      row.transformation = id ∧ row.state = some state := by
  obtain ⟨row, hrow, hstate⟩ := Option.bind_eq_some_iff.mp h
  exact ⟨row, List.mem_of_find?_eq_some hrow, by simpa using List.find?_some hrow, hstate⟩

section CatchUp

theorem getElem?_dropped {V : Type} {m : BTreeMap Cid V} {gone : List Cid} {id : Cid} {v : V}
    (h : (gone.foldl (fun m id => m.erase id) m)[id]? = some v) : m[id]? = some v ∧ id ∉ gone := by
  induction gone generalizing m with
  | nil => exact ⟨h, List.not_mem_nil⟩
  | cons other rest ih =>
    obtain ⟨hrest, hmem⟩ := ih h
    rw [ExtTreeMap.getElem?_erase] at hrest
    split at hrest
    next => cases hrest
    next hne =>
      refine ⟨hrest, fun hgone => ?_⟩
      rcases List.mem_cons.mp hgone with rfl | hlater
      · simp at hne
      · exact hmem hlater

theorem getElem?_kept {V : Type} {m : BTreeMap Cid V} {gone : List Cid} {id : Cid}
    (h : id ∉ gone) : (gone.foldl (fun m id => m.erase id) m)[id]? = m[id]? := by
  induction gone generalizing m with
  | nil => rfl
  | cons other rest ih =>
    rw [List.mem_cons, not_or] at h
    rw [List.foldl_cons, ih h.2, ExtTreeMap.getElem?_erase, if_neg (by simpa using Ne.symm h.1)]

theorem mem_evicted {disk : Disk} {e : Engine} {id : TransformationId} {n : Note} {t : Timestamp}
    (hheld : id ∈ e.table) (h : .about id n t ∈ e.arrived disk) : id ∈ e.evicted disk :=
  List.mem_filterMap.mpr ⟨_, h, if_pos hheld⟩

variable [Canon] (disk : Disk) (e : Engine)

theorem records_catchUp : (e.catchUp disk).records = e.records ++ e.arrived disk := by
  unfold Engine.catchUp
  dsimp only
  split <;> rfl

theorem table_catchUp : (e.catchUp disk).table =
    (e.evicted disk).foldl (fun table id => table.erase id) e.table := by
  unfold Engine.catchUp
  dsimp only
  split <;> rfl

theorem escrow_catchUp : (e.catchUp disk).escrow =
    (e.evicted disk).foldl (fun escrow id => escrow.erase id) e.escrow := by
  unfold Engine.catchUp
  dsimp only
  split <;> rfl

theorem supersedes_catchUp : (e.catchUp disk).supersedes = e.supersedes := by
  unfold Engine.catchUp
  dsimp only
  split <;> rfl

theorem shadow_catchUp : (e.catchUp disk).shadow =
    (e.arrived disk).foldl SigmaShadow.fold e.shadow := by
  unfold Engine.catchUp
  dsimp only
  split <;> rfl

theorem resolved_catchUp : (e.catchUp disk).resolved = e.resolved := by
  unfold Engine.catchUp
  dsimp only
  split <;> rfl

theorem notes_catchUp (id : TransformationId) :
    (e.catchUp disk).notes id = e.notes id ++ notesOf id (e.arrived disk) := by
  rw [Engine.notes, records_catchUp, notesOf_append]

end CatchUp

end Tracefold
