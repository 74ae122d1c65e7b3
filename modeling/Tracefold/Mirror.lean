import Mathlib.Tactic.Common
import Tracefold.Ends
import Tracefold.Leaves

/-! The live tables of a process against the journal, row by row. -/

namespace Tracefold

open Library Engine
open Std (ExtTreeMap)

/-- A row with nothing in it that a plan does not set. -/
def StateRow.Blank (row : StateRow) : Prop :=
  row = { StateRow.new row.transformation with
    intentId := row.intentId, deltaCid := row.deltaCid, fp0 := row.fp0, state := row.state }

instance (row : StateRow) : Decidable row.Blank := inferInstanceAs (Decidable (_ = _))

theorem StateRow.blank_new (id : TransformationId) : (StateRow.new id).Blank := rfl

/-- A note that only the row of its transformation shows. -/
def Note.rowOnly : Note → Bool
  | .inverseEscrowed _ => false
  | .inverseCompleted _ => false
  | .committed _ => false
  | .superseded _ => false
  | _ => true

theorem Note.rowOnly_escrow {n : Note} (h : n.rowOnly = true) (held : Option EscrowRow)
    (id : TransformationId) : EscrowRow.absorb held id n = held := by
  cases n <;> first | rfl | cases h

theorem Note.rowOnly_seq {n : Note} (h : n.rowOnly = true) (held : Option ℕ) :
    committedSeq held n = held := by
  cases n <;> first | rfl | cases h

theorem getElem?_modify_ne {V : Type} {m : BTreeMap Cid V} {g : V → V} {id other : Cid}
    (h : id ≠ other) : (m.modify id g)[other]? = m[other]? := by
  simp [ExtTreeMap.getElem?_modify, h]

theorem getElem?_modify_self {V : Type} {m : BTreeMap Cid V} {g : V → V} {id : Cid} {v : V}
    (h : m[id]? = some v) : (m.modify id g)[id]? = some (g v) := by
  simp [h]

theorem stateOfVerdict_late (kind : VerdictKind) :
    stateOfVerdict kind ≠ .candidate ∧ stateOfVerdict kind ≠ .verifying := by
  cases kind
  · exact ⟨nofun, nofun⟩
  · exact ⟨nofun, nofun⟩
  · exact ⟨nofun, nofun⟩

section Mirror

variable [Canon]

/-- A row of the table as the operations leave it: of the id it is kept under, and with nothing
in it that belongs to a later state. -/
structure Entry.Clean (id : TransformationId) (entry : Entry) : Prop where
  names : entry.transformation.Names id entry.intentId entry.delta
  rollback : entry.rollback = none ∨ ∃ reason, entry.state = .aborted reason
  unruled : entry.state = .candidate ∨ entry.state = .verifying → entry.failPostureEngaged = false
  blank : entry.state = .candidate → (entry.stateRow id).Blank

theorem Entry.Clean.rollback_none {id : TransformationId} {entry : Entry} (h : entry.Clean id)
    (hstate : ∀ reason, entry.state ≠ .aborted reason) : entry.rollback = none := by
  rcases h.rollback with hnone | ⟨reason, haborted⟩
  · exact hnone
  · exact absurd haborted (hstate reason)

theorem Entry.Clean.late {id : TransformationId} {entry entry' : Entry} (h : entry.Clean id)
    (hbody : entry'.transformation = entry.transformation ∧ entry'.intentId = entry.intentId ∧
      entry'.delta = entry.delta)
    (hrollback : entry'.rollback = none ∨ ∃ reason, entry'.state = .aborted reason)
    (hlate : entry'.state ≠ .candidate ∧ entry'.state ≠ .verifying) : entry'.Clean id where
  names := by
    rw [hbody.1, hbody.2.1, hbody.2.2]
    exact h.names
  rollback := hrollback
  unruled hstate := absurd hstate (not_or.mpr hlate)
  blank hstate := absurd hstate hlate.1

/-- The tables of a process are what the journal says. -/
structure Mirrored (e : Engine) : Prop where
  drafts : e.drafted = (SigmaShadow.ofRecords e.records).drafts
  rows : ∀ id : TransformationId, e.table[id]?.map (·.stateRow id) = rowOf? id (e.notes id)
  shadow : ∀ id : TransformationId, e.shadow.rows[id]?.isSome → e.table[id]?.isSome
  resolved : ∀ i (id : TransformationId), id ∈ e.resolvedAll i → e.table[id]?.isSome
  escrow : ∀ id : TransformationId, e.shadow.escrow[id]? = escrowOf? id (e.notes id)
  held : ∀ (id : TransformationId) row, e.escrow[id]? = some row → escrowOf? id (e.notes id) = some row
  committed : ∀ id : TransformationId, e.committed[id]? = seqOf? (e.notes id)
  clean : ∀ (id : TransformationId) entry, e.table[id]? = some entry → entry.Clean id
  head : e.rolledBack = true ∨ ∀ floor, e.headFloor = some floor →
    floor.treeSize ≤ e.ledger.length ∧
      (0 < floor.treeSize → rootAt e.ledger floor.treeSize = some floor.rootHash)

theorem Mirrored.row {e : Engine} (h : Mirrored e) {id : TransformationId} {entry : Entry}
    (hentry : e.table[id]? = some entry) : rowOf id (e.notes id) = entry.stateRow id := by
  have hrow := h.rows id
  rw [hentry] at hrow
  exact rowOf_of_rowOf? hrow.symm

/-- A note about a row, and the row of the table changed with it. -/
theorem Mirrored.noted {e e' : Engine} {id : TransformationId} {n : Note} {t : Timestamp}
    (h : Mirrored e) (hrecords : e'.records = e.records ++ [.about id n t])
    (hdrafted : e'.drafted = e.drafted)
    (hothers : ∀ other : TransformationId, id ≠ other → e'.table[other]? = e.table[other]?)
    (hrow : ∃ entry, e'.table[id]? = some entry ∧ entry.Clean id ∧
      entry.stateRow id = (rowOf id (e.notes id)).absorb n)
    (hshadow : ∀ other : TransformationId, e'.shadow.rows[other]?.isSome → id ≠ other →
      e.shadow.rows[other]?.isSome)
    (hresolved : ∀ i other, other ∈ e'.resolvedAll i → other = id ∨ other ∈ e.resolvedAll i)
    (hescrow : ∀ other : TransformationId, e'.shadow.escrow[other]? =
      if id = other then EscrowRow.absorb e.shadow.escrow[id]? id n else e.shadow.escrow[other]?)
    (hheld : ∀ (other : TransformationId) row, e'.escrow[other]? = some row → e'.shadow.escrow[other]? = some row)
    (hcommitted : ∀ other : TransformationId, e'.committed[other]? =
      if id = other then committedSeq e.committed[id]? n else e.committed[other]?)
    (hhead : e'.rolledBack = e.rolledBack ∧ e'.headFloor = e.headFloor ∧ e'.ledger = e.ledger) :
    Mirrored e' := by
  have hsame : e'.notes id = e.notes id ++ [n] := by
    rw [Engine.notes, hrecords, notesOf_append, notesOf_about]
  have hother : ∀ other, id ≠ other → e'.notes other = e.notes other := by
    intro other hne
    rw [Engine.notes, hrecords, notesOf_append, notesOf_other hne, List.append_nil]
  obtain ⟨entry, hentry, hclean, hstate⟩ := hrow
  have hescrow' : ∀ other : TransformationId, e'.shadow.escrow[other]? = escrowOf? other (e'.notes other) := by
    intro other
    rw [hescrow other]
    by_cases hne : id = other
    · subst hne
      rw [if_pos rfl, h.escrow, hsame, escrowOf?_append]
    · rw [if_neg hne, h.escrow, hother other hne]
  have hlive : ∀ other : TransformationId, (id ≠ other → e.table[other]?.isSome) →
      e'.table[other]?.isSome := by
    intro other hold
    by_cases hne : id = other
    · subst hne
      rw [hentry]
      rfl
    · rw [hothers other hne]
      exact hold hne
  refine ⟨?_, fun other => ?_, fun other hsome => ?_, fun i other hmem => ?_, hescrow',
    fun other row hheld' => ?_, fun other => ?_, fun other entry' hentry' => ?_, ?_⟩
  · rw [hdrafted, h.drafts, hrecords, SigmaShadow.ofRecords_append]
    rfl
  · by_cases hne : id = other
    · subst hne
      rw [hentry, hsame, rowOf?_append, Option.map_some, hstate]
    · rw [hothers other hne, hother other hne, h.rows]
  · exact hlive other fun hne => h.shadow other (hshadow other hsome hne)
  · refine hlive other fun hne => ?_
    rcases hresolved i other hmem with rfl | hold
    · exact absurd rfl hne
    · exact h.resolved i other hold
  · rw [← hescrow']
    exact hheld other row hheld'
  · rw [hcommitted other]
    by_cases hne : id = other
    · subst hne
      rw [if_pos rfl, h.committed, hsame, seqOf?_append]
    · rw [if_neg hne, h.committed, hother other hne]
  · by_cases hne : id = other
    · subst hne
      rw [hentry] at hentry'
      cases hentry'
      exact hclean
    · exact h.clean other entry' (hothers other hne ▸ hentry')
  · rw [hhead.1, hhead.2.1, hhead.2.2]
    exact h.head

variable {s : Sys} {id : TransformationId} {n : Note} {t : Timestamp} {entry : Entry}
  {f : Entry → Entry}

theorem Mirrored.noteLive (h : Mirrored s.engine) (hn : n.rowOnly = true)
    (hentry : s.engine.table[id]? = some entry) (hclean : (f entry).Clean id)
    (hrow : (f entry).stateRow id = (entry.stateRow id).absorb n) :
    Mirrored ((s.note id n t).live id f).engine := by
  refine h.noted (n := n) (t := t) rfl rfl (fun other hne => getElem?_modify_ne hne)
    ⟨f entry, getElem?_modify_self hentry, hclean, ?_⟩ (fun other hsome hne => ?_)
    (fun _ _ hmem => .inr hmem) (fun other => SigmaShadow.escrow_fold s.engine.shadow id n t other) (fun other row hrow => ?_)
    (fun other => ?_) ⟨rfl, rfl, rfl⟩
  · rw [hrow, h.row hentry]
  · rw [show ((s.note id n t).live id f).engine.shadow.rows[other]? = s.engine.shadow.rows[other]?
      from (SigmaShadow.rows_fold s.engine.shadow id n t other).trans (if_neg hne)] at hsome
    exact hsome
  · refine (SigmaShadow.escrow_fold s.engine.shadow id n t other).trans ?_
    have hheld := h.held other row hrow
    rw [← h.escrow] at hheld
    by_cases hne : id = other
    · subst hne
      rw [if_pos rfl, Note.rowOnly_escrow hn, hheld]
    · rw [if_neg hne, hheld]
  · by_cases hne : id = other
    · subst hne
      rw [if_pos rfl, Note.rowOnly_seq hn]
      rfl
    · rw [if_neg hne]
      rfl

/-- The same for a record that goes to the journal alone. -/
theorem Mirrored.appendLive (h : Mirrored s.engine) (hn : n.rowOnly = true)
    (hentry : s.engine.table[id]? = some entry) (hclean : (f entry).Clean id)
    (hrow : (f entry).stateRow id = (entry.stateRow id).absorb n) :
    Mirrored ((s.append (.about id n t)).live id f).engine := by
  refine h.noted (n := n) (t := t) rfl rfl (fun other hne => getElem?_modify_ne hne)
    ⟨f entry, getElem?_modify_self hentry, hclean, ?_⟩ (fun other hsome _ => hsome)
    (fun _ _ hmem => .inr hmem) (fun other => ?_) (fun other row hrow => ?_) (fun other => ?_) ⟨rfl, rfl, rfl⟩
  · rw [hrow, h.row hentry]
  · rw [Note.rowOnly_escrow hn]
    by_cases hne : id = other
    · subst hne
      rw [if_pos rfl]
      rfl
    · rw [if_neg hne]
      rfl
  · have hheld := h.held other row hrow
    rw [← h.escrow] at hheld
    exact hheld
  · rw [Note.rowOnly_seq hn]
    by_cases hne : id = other
    · subst hne
      rw [if_pos rfl]
      rfl
    · rw [if_neg hne]
      rfl

theorem Mirrored.live (h : Mirrored s.engine)
    (hf : ∀ e : Entry, (f e).stateRow id = e.stateRow id ∧ (e.Clean id → (f e).Clean id)) :
    Mirrored (s.live id f).engine := by
  have htable : ∀ other : TransformationId, (s.live id f).engine.table[other]? =
      if id = other then s.engine.table[other]?.map f else s.engine.table[other]? := by
    intro other
    by_cases hne : id = other
    · subst hne
      simp
    · rw [if_neg hne]
      exact getElem?_modify_ne hne
  have hsome : ∀ other : TransformationId, s.engine.table[other]?.isSome →
      (s.live id f).engine.table[other]?.isSome := by
    intro other hold
    rw [htable other]
    by_cases hne : id = other
    · rw [if_pos hne, Option.isSome_map]
      exact hold
    · rw [if_neg hne]
      exact hold
  refine ⟨h.drafts, fun other => ?_, fun other hshadow => hsome other (h.shadow other hshadow),
    fun i other hmem => hsome other (h.resolved i other hmem), h.escrow, h.held, h.committed,
    fun other entry hentry => ?_, h.head⟩
  · refine Eq.trans ?_ (h.rows other)
    rw [htable other]
    by_cases hne : id = other
    · subst hne
      rw [if_pos rfl, Option.map_map]
      exact congrArg (fun g => Option.map g _) (funext fun e => (hf e).1)
    · rw [if_neg hne]
  · rw [htable other] at hentry
    by_cases hne : id = other
    · subst hne
      rw [if_pos rfl, Option.map_eq_some_iff] at hentry
      obtain ⟨before, hbefore, rfl⟩ := hentry
      exact (hf before).2 (h.clean id before hbefore)
    · rw [if_neg hne] at hentry
      exact h.clean other entry hentry

theorem Mirrored.draft (h : Mirrored s.engine) (intentId : IntentId) (rngSeed : ℕ)
    (stamp : Timestamp) :
    Mirrored ((s.record (.draftCreated intentId rngSeed stamp)).withEngine fun e =>
      { e with drafted := e.drafted.insert intentId rngSeed }).engine := by
  have hnotes : ∀ other : TransformationId,
      notesOf other (s.engine.records ++ [.draftCreated intentId rngSeed stamp]) =
        s.engine.notes other := by
    intro other
    rw [notesOf_append, notesOf_draft, List.append_nil]
  refine ⟨?_, fun other => ?_, h.shadow, h.resolved, fun other => ?_, fun other row hrow => ?_,
    fun other => ?_, h.clean, h.head⟩
  · exact (congrArg (fun m : BTreeMap IntentId ℕ => m.insert intentId rngSeed) h.drafts).trans
      (congrArg SigmaShadow.drafts (SigmaShadow.ofRecords_append s.engine.records
        (.draftCreated intentId rngSeed stamp)).symm)
  · exact (h.rows other).trans (congrArg (rowOf? other) (hnotes other).symm)
  · exact (h.escrow other).trans (congrArg (escrowOf? other) (hnotes other).symm)
  · exact (congrArg (escrowOf? other) (hnotes other)).trans (h.held other row hrow)
  · exact (h.committed other).trans (congrArg seqOf? (hnotes other).symm)

end Mirror

end Tracefold
