import Mathlib.Data.List.Induction
import Mathlib.Data.List.Sort
import Mathlib.Tactic.Common
import Tracefold.Journal

/-! What the fold over a journal says of one transformation depends only on the notes about it. -/

namespace Tracefold

open Std (ExtTreeMap)

/-- The notes of a journal about one transformation, in order. -/
def notesOf (id : TransformationId) (records : List Record) : List Note :=
  records.filterMap fun
    | .about t note _ => if t = id then some note else none
    | .draftCreated _ _ _ => none

@[simp]
theorem notesOf_append (id : TransformationId) (r r' : List Record) :
    notesOf id (r ++ r') = notesOf id r ++ notesOf id r' :=
  List.filterMap_append

@[simp]
theorem notesOf_draft (id : TransformationId) (i : IntentId) (n : ℕ) (t : Timestamp) :
    notesOf id [.draftCreated i n t] = [] := rfl

@[simp]
theorem notesOf_about (id : TransformationId) (note : Note) (t : Timestamp) :
    notesOf id [.about id note t] = [note] := by
  simp [notesOf]

theorem notesOf_other {id other : TransformationId} (h : other ≠ id) (note : Note) (t : Timestamp) :
    notesOf id [.about other note t] = [] := by
  simp [notesOf, h]

theorem mem_notesOf {id : TransformationId} {records : List Record} {note : Note} :
    note ∈ notesOf id records ↔ ∃ t, .about id note t ∈ records := by
  constructor
  · intro h
    obtain ⟨r, hr, hn⟩ := List.mem_filterMap.mp h
    cases r with
    | draftCreated _ _ _ => cases hn
    | about other n t =>
      simp only [Option.ite_none_right_eq_some, Option.some.injEq] at hn
      obtain ⟨rfl, rfl⟩ := hn
      exact ⟨t, hr⟩
  · rintro ⟨t, ht⟩
    exact List.mem_filterMap.mpr ⟨_, ht, if_pos rfl⟩

/-- The row the notes about one transformation fold to. -/
def rowOf (id : TransformationId) (notes : List Note) : StateRow :=
  notes.foldl StateRow.absorb (.new id)

/-- The row of a transformation, if there are notes about it. -/
def rowOf? (id : TransformationId) (notes : List Note) : Option StateRow :=
  if notes = [] then none else some (rowOf id notes)

@[simp]
theorem rowOf_append (id : TransformationId) (notes : List Note) (note : Note) :
    rowOf id (notes ++ [note]) = (rowOf id notes).absorb note := by
  simp [rowOf]

theorem rowOf?_append (id : TransformationId) (notes : List Note) (n : Note) :
    rowOf? id (notes ++ [n]) = some ((rowOf id notes).absorb n) := by
  rw [rowOf?, if_neg (by simp), rowOf_append]

theorem rowOf_of_rowOf? {id : TransformationId} {notes : List Note} {row : StateRow}
    (h : rowOf? id notes = some row) : rowOf id notes = row := by
  rw [rowOf?] at h
  split at h
  · cases h
  · exact Option.some.inj h

theorem rowOf_of_none {id : TransformationId} {notes : List Note} (h : rowOf? id notes = none) :
    rowOf id notes = .new id := by
  rw [rowOf?] at h
  split at h
  next hnil => rw [hnil]; rfl
  next => cases h

@[simp]
theorem StateRow.transformation_absorb (row : StateRow) (note : Note) :
    (row.absorb note).transformation = row.transformation := by
  cases note with
  | verdict kind digest engaged => cases engaged <;> rfl
  | _ => rfl

@[simp]
theorem transformation_rowOf (id : TransformationId) (notes : List Note) :
    (rowOf id notes).transformation = id := by
  induction notes using List.reverseRecOn with
  | nil => rfl
  | append_singleton notes note ih => rw [rowOf_append, StateRow.transformation_absorb, ih]

/-- The escrow row the notes about one transformation fold to. -/
def escrowOf? (id : TransformationId) (notes : List Note) : Option EscrowRow :=
  notes.foldl (fun held note => EscrowRow.absorb held id note) none

@[simp]
theorem escrowOf?_append (id : TransformationId) (notes : List Note) (note : Note) :
    escrowOf? id (notes ++ [note]) = EscrowRow.absorb (escrowOf? id notes) id note := by
  simp [escrowOf?]

theorem EscrowRow.transformation_absorb {held : Option EscrowRow} {id : TransformationId}
    {note : Note} {row : EscrowRow} (hheld : ∀ r, held = some r → r.transformation = id)
    (h : EscrowRow.absorb held id note = some row) : row.transformation = id := by
  cases note with
  | inverseEscrowed body =>
    cases h
    rfl
  | inverseCompleted cid =>
    cases h
    rfl
  | superseded by_ =>
    obtain ⟨r, hr, rfl⟩ := Option.map_eq_some_iff.mp h
    exact hheld r hr
  | _ => exact hheld row h

theorem transformation_escrowOf {id : TransformationId} {notes : List Note} {row : EscrowRow}
    (h : escrowOf? id notes = some row) : row.transformation = id := by
  induction notes using List.reverseRecOn generalizing row with
  | nil => cases h
  | append_singleton notes note ih =>
    rw [escrowOf?_append] at h
    exact EscrowRow.transformation_absorb (fun r hr => ih hr) h

/-- The leaf index of the last `Committed` note. -/
def seqOf? (notes : List Note) : Option ℕ := notes.foldl committedSeq none

@[simp]
theorem seqOf?_append (notes : List Note) (note : Note) :
    seqOf? (notes ++ [note]) = committedSeq (seqOf? notes) note := by
  simp [seqOf?]

namespace SigmaShadow

@[simp]
theorem ofRecords_append (records : List Record) (record : Record) :
    ofRecords (records ++ [record]) = (ofRecords records).fold record := by
  simp [ofRecords]

theorem foldl_fold (records arrived : List Record) :
    arrived.foldl fold (ofRecords records) = ofRecords (records ++ arrived) := by
  simp [ofRecords]

theorem rows_fold (s : SigmaShadow) (id : TransformationId) (note : Note) (t : Timestamp)
    (other : TransformationId) :
    (s.fold (.about id note t)).rows[other]? =
      if id = other then some ((s.rowOr id).absorb note) else s.rows[other]? := by
  simp only [fold, ExtTreeMap.getElem?_insert, Std.compare_eq_iff_eq]

theorem escrow_fold (s : SigmaShadow) (id : TransformationId) (note : Note) (t : Timestamp)
    (other : TransformationId) :
    (s.fold (.about id note t)).escrow[other]? =
      if id = other then EscrowRow.absorb s.escrow[id]? id note else s.escrow[other]? := by
  simp only [fold, ExtTreeMap.getElem?_alter, Std.compare_eq_iff_eq]

theorem ledger_fold (s : SigmaShadow) (id : TransformationId) (note : Note) (t : Timestamp)
    (other : TransformationId) :
    (s.fold (.about id note t)).ledger[other]? =
      if id = other then committedSeq s.ledger[id]? note else s.ledger[other]? := by
  simp only [fold, ExtTreeMap.getElem?_alter, Std.compare_eq_iff_eq]

theorem rows_ofRecords (records : List Record) (id : TransformationId) :
    (ofRecords records).rows[id]? = rowOf? id (notesOf id records) := by
  induction records using List.reverseRecOn with
  | nil => rfl
  | append_singleton records record ih =>
    rw [ofRecords_append, notesOf_append]
    cases record with
    | draftCreated i n t => simpa only [fold, notesOf_draft, List.append_nil] using ih
    | about other note t =>
      rw [rows_fold]
      by_cases h : other = id
      · subst h
        have hne : notesOf other records ++ [note] ≠ [] := List.concat_ne_nil _ _
        rw [if_pos rfl, rowOr, ih, notesOf_about, rowOf?, rowOf?, if_neg hne, rowOf_append]
        by_cases hn : notesOf other records = []
        · rw [if_pos hn, hn]
          rfl
        · rw [if_neg hn]
          rfl
      · rw [if_neg h, notesOf_other h, List.append_nil]
        exact ih

theorem transformation_rows {records : List Record} {id : TransformationId} {row : StateRow}
    (h : (ofRecords records).rows[id]? = some row) : row.transformation = id := by
  rw [rows_ofRecords, rowOf?] at h
  split at h
  · cases h
  · cases h
    exact transformation_rowOf id _

theorem escrow_ofRecords (records : List Record) (id : TransformationId) :
    (ofRecords records).escrow[id]? = escrowOf? id (notesOf id records) := by
  induction records using List.reverseRecOn with
  | nil => rfl
  | append_singleton records record ih =>
    rw [ofRecords_append, notesOf_append]
    cases record with
    | draftCreated i n t => simpa only [fold, notesOf_draft, List.append_nil] using ih
    | about other note t =>
      rw [escrow_fold]
      by_cases h : other = id
      · subst h
        rw [if_pos rfl, ih, notesOf_about, escrowOf?_append]
      · rw [if_neg h, notesOf_other h, List.append_nil]
        exact ih

theorem ledger_ofRecords (records : List Record) (id : TransformationId) :
    (ofRecords records).ledger[id]? = seqOf? (notesOf id records) := by
  induction records using List.reverseRecOn with
  | nil => rfl
  | append_singleton records record ih =>
    rw [ofRecords_append, notesOf_append]
    cases record with
    | draftCreated i n t => simpa only [fold, notesOf_draft, List.append_nil] using ih
    | about other note t =>
      rw [ledger_fold]
      by_cases h : other = id
      · subst h
        rw [if_pos rfl, ih, notesOf_about, seqOf?_append]
      · rw [if_neg h, notesOf_other h, List.append_nil]
        exact ih

end SigmaShadow

section Lookup

variable {V : Type}

/-- A list made of a map's entries is searched by key as the map is, when what is made of an
entry names its key. -/
theorem find?_insertionSort_entries {X : Type} (m : BTreeMap Cid V) (make : Cid × V → X)
    (key : X → Cid) (r : X → X → Prop) [DecidableRel r]
    (hkey : ∀ k v, m[k]? = some v → key (make (k, v)) = k) (k : Cid) :
    (((m.toList.map make).insertionSort r).find? fun x => key x = k) =
      m[k]?.map fun v => make (k, v) := by
  have hmem : ∀ x, x ∈ (m.toList.map make).insertionSort r ↔
      ∃ (k : Cid) (v : V), m[k]? = some v ∧ make (k, v) = x := by
    intro x
    rw [List.mem_insertionSort, List.mem_map]
    constructor
    · rintro ⟨⟨k, v⟩, hkv, rfl⟩
      exact ⟨k, v, ExtTreeMap.mem_toList_iff_getElem?_eq_some.mp hkv, rfl⟩
    · rintro ⟨k, v, hk, rfl⟩
      exact ⟨(k, v), ExtTreeMap.mem_toList_iff_getElem?_eq_some.mpr hk, rfl⟩
  cases hfind : ((m.toList.map make).insertionSort r).find? (fun x => key x = k) with
  | some x =>
    obtain ⟨k', v, hk', rfl⟩ := (hmem x).mp (List.mem_of_find?_eq_some hfind)
    have hx := List.find?_some hfind
    simp only [decide_eq_true_eq] at hx
    rw [hkey k' v hk'] at hx
    rw [← hx, hk']
    rfl
  | none =>
    cases hm : m[k]? with
    | none => rfl
    | some v =>
      have hnot := List.find?_eq_none.mp hfind _ ((hmem _).mpr ⟨k, v, hm, rfl⟩)
      simp [hkey k v hm] at hnot

end Lookup

theorem stateOf_reconstruct (records : List Record) (id : TransformationId) :
    (reconstruct records).stateOf id = rowOf? id (notesOf id records) := by
  rw [← SigmaShadow.rows_ofRecords]
  refine (find?_insertionSort_entries _ Prod.snd StateRow.transformation _ ?_ id).trans
    Option.map_id'
  intro k v hv
  exact SigmaShadow.transformation_rows hv

theorem escrowOf_reconstruct (records : List Record) (id : TransformationId) :
    (reconstruct records).escrowOf id = escrowOf? id (notesOf id records) := by
  rw [← SigmaShadow.escrow_ofRecords]
  refine (find?_insertionSort_entries _ Prod.snd EscrowRow.transformation _ ?_ id).trans
    Option.map_id'
  intro k v hv
  rw [SigmaShadow.escrow_ofRecords] at hv
  exact transformation_escrowOf hv

theorem ledgerSeq_reconstruct (records : List Record) (id : TransformationId) :
    ((reconstruct records).ledger.find? fun c => c.transformation = id).map (·.ledgerSeq) =
      seqOf? (notesOf id records) := by
  have hfind := find?_insertionSort_entries (SigmaShadow.ofRecords records).ledger
    (fun entry => CommittedRow.mk entry.1 entry.2) CommittedRow.transformation
    (fun a b => ((compare a.ledgerSeq b.ledgerSeq).then
      (compare a.transformation b.transformation)).isLE) (fun _ _ _ => rfl) id
  rw [← SigmaShadow.ledger_ofRecords]
  refine (congrArg (Option.map CommittedRow.ledgerSeq) hfind).trans ?_
  rw [Option.map_map]
  exact Option.map_id'

/-- A row of Σ is the row its notes fold to. -/
theorem mem_transformations {records : List Record} {row : StateRow}
    (h : row ∈ (reconstruct records).transformations) :
    notesOf row.transformation records ≠ [] ∧
      row = rowOf row.transformation (notesOf row.transformation records) := by
  obtain ⟨⟨k, v⟩, hkv, rfl⟩ := List.mem_map.mp ((List.mem_insertionSort _).mp h)
  have hv := ExtTreeMap.mem_toList_iff_getElem?_eq_some.mp hkv
  have hk : v.transformation = k := SigmaShadow.transformation_rows hv
  rw [SigmaShadow.rows_ofRecords, rowOf?] at hv
  split at hv
  next => cases hv
  next hne =>
    cases hv
    rw [hk]
    exact ⟨hne, rfl⟩

theorem nodup_transformations (records : List Record) :
    ((reconstruct records).transformations.map (·.transformation)).Nodup := by
  have hperm := (List.perm_insertionSort
    (fun a b : StateRow => (compare a.transformation b.transformation).isLE)
    ((SigmaShadow.ofRecords records).rows.toList.map Prod.snd)).map (·.transformation)
  refine hperm.nodup_iff.mpr ?_
  have hkeys : ((SigmaShadow.ofRecords records).rows.toList.map Prod.snd).map
      (·.transformation) = (SigmaShadow.ofRecords records).rows.toList.map Prod.fst := by
    rw [List.map_map]
    refine List.map_congr_left fun entry hentry => ?_
    exact SigmaShadow.transformation_rows (ExtTreeMap.mem_toList_iff_getElem?_eq_some.mp hentry)
  rw [hkeys, ExtTreeMap.map_fst_toList_eq_keys]
  exact ExtTreeMap.nodup_keys

end Tracefold
