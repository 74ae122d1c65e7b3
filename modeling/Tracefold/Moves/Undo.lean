import Mathlib.Tactic.Common
import Tracefold.Moves.Commit

/-! Undo, and the rebuilding of a committed row, move as the engine may. -/

namespace Tracefold.Engine

open Library

variable [Canon]

variable {pol : Policy} {ids : TransformationId → Prop} {id original : TransformationId} {w : World}
  {s : Sys}

theorem moves_undoable {Q : Entry → Sys → Prop}
    (h : ∀ entry, s.engine.table[original]? = some entry → entry.state = .committed → Q entry s) :
    Moves pol ids w (undoable original) s Q := by
  refine .bind (moves_self ?_)
  split
  next =>
    split
    next => exact moves_fail
    next => exact moves_fail
  next entry hentry =>
    refine .bind (moves_refuseIf fun hstate => .bind (moves_refuseIf fun _ => .pure ?_))
    exact h entry hentry (not_not.mp hstate)

/-- The inverse an undo applies is one the process holds for the original and has not consumed. -/
structure Invertible (s : Sys) (original : TransformationId) (inverse : PlannedDelta) : Prop where
  body : blobOf s.disk inverse.cid = some inverse
  held : ∃ row, s.engine.escrow[original]? = some row ∧ row.inverseCid = some inverse.cid ∧
    row.status ≠ .pending ∧ ∀ by_, row.status ≠ .consumed by_

theorem moves_undoInverse {Q : PlannedDelta → Sys → Prop}
    (h : ∀ inverse, Invertible s original inverse → Q inverse s) :
    Moves pol ids w (undoInverse original) s Q := by
  refine .bind (moves_self (.bind (.orThrow fun row hrow => ?_)))
  split
  next => exact moves_fail
  next => exact moves_fail
  next hconsumed hpending =>
    refine .bind (.orThrow fun cid hcid => moves_blobGet fun inverse hblob => h inverse ?_)
    obtain ⟨rfl, _⟩ := cid_of_blobOf hblob
    exact ⟨hblob, row, hrow, hcid, hpending, hconsumed⟩

theorem moves_undoWitnessed {witness : UndoWitness} {fp0 : Fingerprint} {Q : Unit → Sys → Prop}
    (h : Q () s) : Moves pol ids w (undoWitnessed witness fp0) s Q := by
  unfold undoWitnessed
  split
  next => exact moves_refuseIf fun _ => h
  next => exact moves_fail
  next => exact .pure h

theorem moves_draftUndo {intentId : IntentId} {rngSeed : ℕ} {stamp : Timestamp}
    {Q : Unit → Sys → Prop} (hid : ids id)
    (h : ∀ s', s'.engine.table = s.engine.table → s'.engine.escrow = s.engine.escrow →
      (∀ t, s'.engine.notes t = s.engine.notes t) → Q () s') :
    Moves pol ids w (draftUndo intentId rngSeed stamp) s Q := by
  refine .bind (moves_self ?_)
  split
  next => exact .pure (h s rfl rfl fun _ => rfl)
  next hnew =>
    refine moves_recordThen hid (.drafted s intentId rngSeed stamp hnew) (h _ rfl rfl fun t => ?_)
    exact (notesOf_append t _ _).trans (List.append_nil _)

theorem moves_planUndo {entry : Entry} {inverse : PlannedDelta} {t : Transformation}
    {fp0 : Fingerprint} {pre : ObjectSnapshot} {inputGeneration : BoundaryStage}
    {witness : UndoWitness} {stamp : Timestamp} {Q : Unit → Sys → Prop}
    (horiginal : s.engine.table[original]? = some entry) (hcommitted : entry.state = .committed)
    (hescrow : ∃ row, s.engine.escrow[original]? = some row ∧
      row.inverseCid = some inverse.cid ∧ row.status ≠ .pending ∧
      ∀ by_, row.status ≠ .consumed by_)
    (hmints : Mints entry original inverse t)
    (hpre : ∃ h, (w h).snapshot entry.delta.substrate entry.pre.locator = .ok pre)
    (hstate : undoState s.engine (Canon.intent (undoIntent entry inverse)) t.id = none ∨
      undoState s.engine (Canon.intent (undoIntent entry inverse)) t.id = some .candidate ∧
        t.id ∉ s.engine.table ∨
      ∃ reason, undoState s.engine (Canon.intent (undoIntent entry inverse)) t.id =
        some (.aborted reason))
    (hpol : pol.undos t.id (s.engine.notes t.id)) (h : ∀ s', Q () s') :
    Moves pol every w (planUndo (Canon.intent (undoIntent entry inverse)) t inverse fp0 pre
      inputGeneration witness stamp) s Q := by
  have hid := every_holds t.id
  refine .bind (moves_noteThen hid (.undone s original entry inverse fp0 pre t inputGeneration
    witness stamp horiginal hcommitted hescrow rfl hmints hpre hstate hpol) ?_)
  refine .bind (moves_blobPut hid fun s₁ he₁ _ _ hblob => moves_update hid ?_ (h _))
  obtain ⟨g, hsnap⟩ := hpre
  refine .seated s₁ (undoBody _ t inverse fp0 pre inputGeneration witness) stamp t inverse fp0 pre
    ?_ hmints.names rfl rfl rfl ⟨_, g, rfl, hsnap, .inr rfl⟩ hblob
  rw [he₁]
  exact List.getLast?_concat

theorem moves_sameWitness {witness : UndoWitness} {Q : Unit → Sys → Prop} (h : Q () s) :
    Moves pol ids w (sameWitness id witness) s Q :=
  .bind (moves_self (moves_whenSome (fun _ _ => moves_refuseIf fun _ => h) fun _ => h))

theorem moves_undo {witness : UndoWitness} {rngSeed : ℕ} {stamp : Timestamp}
    (hpol : ∀ entry inverse t, s.engine.table[original]? = some entry →
      Invertible s original inverse → Mints entry original inverse t →
      pol.undos t.id (s.engine.notes t.id)) :
    Moves pol every w (undo original witness rngSeed stamp) s fun _ _ => True := by
  have hid := every_holds original
  refine .bind (moves_undoable fun entry hentry hcommitted => ?_)
  refine .bind (moves_undoInverse fun inverse hinverse => .bind (moves_adapter fun _ => ?_))
  refine .bind (moves_queryOr hid fun pre hpre => .bind (moves_queryOr hid fun fp0 _ => ?_))
  refine .bind (moves_undoWitnessed (.bind (moves_draftUndo hid fun s₁ ht₁ he₁ hn₁ => ?_)))
  refine .bind (moves_self (.bind (.orThrow fun t ht => ?_)))
  obtain ⟨hcid, hintent, hsubject, htarget, hdelta, hcontext, hactor, hparents⟩ :=
    Transformation.id_new ht
  have hmints : Mints entry original inverse t :=
    ⟨⟨rfl, hcid.symm, hintent, hdelta⟩, hparents, htarget, hsubject, hcontext, hactor⟩
  have hpol₁ : pol.undos t.id (s₁.engine.notes t.id) := by
    rw [hn₁ t.id]
    exact hpol entry inverse t hentry hinverse hmints
  have horiginal₁ : s₁.engine.table[original]? = some entry := by
    rw [ht₁]
    exact hentry
  have hescrow₁ := hinverse.held
  rw [show s.engine.escrow = s₁.engine.escrow from he₁.symm] at hescrow₁
  split
  next hnone =>
    exact .bind (moves_planUndo horiginal₁ hcommitted hescrow₁ hmints ⟨_, hpre⟩ (.inl hnone) hpol₁
      fun _ => .pure trivial)
  next hcandidate =>
    split
    next => exact .bind (moves_sameWitness (.pure trivial))
    next habsent =>
      exact .bind (moves_planUndo horiginal₁ hcommitted hescrow₁ hmints ⟨_, hpre⟩
        (.inr (.inl ⟨hcandidate, habsent⟩)) hpol₁ fun _ => .pure trivial)
  next reason haborted =>
    exact .bind (moves_planUndo horiginal₁ hcommitted hescrow₁ hmints ⟨_, hpre⟩
      (.inr (.inr ⟨reason, haborted⟩)) hpol₁ fun _ => .pure trivial)
  next => exact moves_fail

theorem moves_rebuiltTarget {substrate : SubstrateKind} {intent : Intent} {pre : ObjectSnapshot}
    {parents : List TransformationId} {Q : Option Cid → Sys → Prop} (hid : ids id)
    (h : ∀ target s', s'.engine = s.engine → Q target s') :
    Moves pol ids w (rebuiltTarget substrate intent pre parents) s Q := by
  unfold rebuiltTarget
  split
  next => exact .bind (moves_queryOr hid fun _ _ => .pure (h _ _ rfl))
  next => exact .pure (h _ _ rfl)

omit [Canon] in
theorem ofFingerprint_intoFingerprint {r : FingerprintRecord} {fp : Fingerprint}
    (h : r.intoFingerprint = some fp) : FingerprintRecord.ofFingerprint fp = r := by
  unfold FingerprintRecord.intoFingerprint at h
  split at h
  · cases h
    rfl
  · cases h

theorem moves_rehydrateRow {intent : Intent} {row : StateRow} {Q : Unit → Sys → Prop}
    (hid : ids id) (habsent : id ∉ s.engine.table)
    (hrow : rowOf? id (s.engine.notes id) = some row)
    (hstate : row.state = some .committed ∨ row.state = some .superseded) (h : ∀ s', Q () s') :
    Moves pol ids w (rehydrateRow id intent row) s Q := by
  refine .bind (moves_self (.bind (.orThrow fun provenance hprovenance => ?_)))
  refine .bind (.orThrow fun intentId hintent => .bind (.orThrow fun deltaCid hdelta => ?_))
  refine .bind (moves_blobGet fun delta hblob => .bind (.orThrow fun fp0 hfp0 => ?_))
  refine .bind (.orThrow fun planned hplanned => .bind (.orThrow fun subject _ => ?_))
  refine .bind (moves_adapter fun _ => .bind (moves_queryOr hid fun pre hpre => ?_))
  refine .bind (moves_rebuiltTarget hid fun target s₁ he₁ => .bind (.orThrow fun t ht => ?_))
  refine .bind (moves_refuseIf fun hsame => ?_)
  obtain ⟨hcid, hintent', _, _, hdelta', _, _, hparents⟩ := Transformation.id_new ht
  obtain ⟨hblobCid, _⟩ := cid_of_blobOf hblob
  obtain ⟨fp, hfp, hinto⟩ := Option.bind_eq_some_iff.mp hfp0
  have hname : t.id = id := not_not.mp hsame
  have he : s₁.engine = s.engine := he₁
  rw [escrowOf_reconstruct, ← he]
  refine moves_update hid (.restored s₁ row planned.1 planned.2 t delta fp0 pre intentId provenance
    ?_ ?_ hstate hprovenance hintent ?_ ?_ ?_ ⟨_, hpre⟩ ?_ hparents) (h _)
  · rw [he]
    exact habsent
  · rw [he]
    exact hrow
  · rw [hdelta, hblobCid]
  · rw [hfp, ofFingerprint_intoFingerprint hinto]
  · rw [he]
    exact hplanned
  · exact ⟨hname, hcid.symm.trans hname, hintent', hdelta'⟩

theorem moves_rehydrateCommitted {intent : Intent} (hid : ids id) :
    Moves pol ids w (rehydrateCommitted id intent) s fun _ _ => True := by
  refine .bind (moves_self ?_)
  split
  next => exact .pure trivial
  next habsent =>
    rw [stateOf_reconstruct]
    split
    next => exact .pure trivial
    next row hrow =>
      split
      next hstate =>
        exact .bind (moves_rehydrateRow hid habsent hrow hstate fun _ => .pure trivial)
      next => exact .pure trivial

end Tracefold.Engine
