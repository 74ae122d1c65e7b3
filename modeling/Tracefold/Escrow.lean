import Mathlib.Tactic.Common
import Tracefold.Ideal
import Tracefold.Replay
import Tracefold.Runs

/-! The rows the escrow index folds to, and the checked constructor they come back through. -/

namespace Tracefold

open Library Engine
open Std (ExtTreeMap)

def InverseStatus.kind : InverseStatus → String
  | .available => "Available"
  | .consumed _ => "Consumed"
  | .expired => "Expired"
  | .unavailable => "Unavailable"
  | .pending => "Pending"
  | .bodyMissing => "BodyMissing"
  | .undetermined => "Undetermined"

/-- An escrow row with its body. -/
structure EscrowedInverse where
  transformation : TransformationId
  inverseDelta : Option PlannedDelta
  status : InverseStatus
  held : status = .unavailable ↔ inverseDelta = none

inductive EscrowError where
  | inconsistentEscrow (detail : String)
  | blob (why : Tracefold.Error)
  deriving DecidableEq, Repr

/-- `EscrowedInverse::restore`. -/
def EscrowedInverse.restore (transformation : TransformationId) (inverseDelta : Option PlannedDelta)
    (status : InverseStatus) : Except EscrowError EscrowedInverse :=
  if h : status = .unavailable ↔ inverseDelta = none then
    .ok ⟨transformation, inverseDelta, status, h⟩
  else
    .error (.inconsistentEscrow ("status " ++ status.kind ++ " with " ++
      (if inverseDelta.isNone then "no" else "an") ++ " inverse_delta"))

/-- The note that says which inverse a transformation has. -/
def Note.answers : Note → Bool
  | .inverseEscrowed _ => true
  | .inverseCompleted _ => true
  | _ => false

/-- The inverse a note names. -/
def Note.inverseCid : Note → Option Cid
  | .inverseEscrowed body => body.inverseCid
  | .inverseCompleted inverseCid => inverseCid
  | _ => none

/-- The status a note opens an escrow row with. -/
def Note.opening : Note → InverseStatus
  | .inverseEscrowed body => body.status
  | .inverseCompleted inverseCid => if inverseCid.isSome then .available else .unavailable
  | _ => .unavailable

/-- The note says that it is not known whether there is an inverse. -/
def Note.unknown : Note → Bool
  | .inverseEscrowed body => body.inverseCid.isNone && body.undetermined
  | _ => false

def Note.supersedes : Note → Bool
  | .superseded _ => true
  | _ => false

/-- The last word on a transformation's inverse. -/
def lastAnswer (notes : List Note) : Option Note := (notes.filter Note.answers).getLast?

/-- A transformation without an inverse is known to have none, and was not superseded. -/
def Settled (notes : List Note) : Prop :=
  ∀ note, lastAnswer notes = some note → note.inverseCid = none →
    note.unknown = false ∧ ∀ later ∈ afterLast Note.answers notes, later.supersedes = false

theorem lastAnswer_answer {note : Note} (h : note.answers = true) (notes : List Note) :
    lastAnswer (notes ++ [note]) = some note := by
  rw [lastAnswer, List.filter_append, List.filter_cons_of_pos h]
  exact List.getLast?_concat

theorem lastAnswer_other {note : Note} (h : note.answers = false) (notes : List Note) :
    lastAnswer (notes ++ [note]) = lastAnswer notes := by
  rw [lastAnswer, List.filter_append, List.filter_cons_of_neg (by simp [h])]
  exact congrArg _ (List.append_nil _)

theorem absorb_answer {note : Note} (h : note.answers = true) (held : Option EscrowRow)
    (id : TransformationId) :
    EscrowRow.absorb held id note = some ⟨id, note.inverseCid, note.opening⟩ := by
  cases note with
  | inverseEscrowed body => rfl
  | inverseCompleted cid => rfl
  | _ => cases h

theorem absorb_other {note : Note} (h : note.answers = false) (held : Option EscrowRow)
    (id : TransformationId) :
    (note.supersedes = true ∧ ∃ by_, EscrowRow.absorb held id note =
      held.map fun row => { row with status := .consumed by_ }) ∨
    (note.supersedes = false ∧ EscrowRow.absorb held id note = held) := by
  cases note with
  | inverseEscrowed body => cases h
  | inverseCompleted cid => cases h
  | superseded by_ => exact .inl ⟨rfl, by_, rfl⟩
  | _ => exact .inr ⟨rfl, rfl⟩

theorem Note.opening_unavailable {note : Note} (h : note.answers = true) :
    note.opening = .unavailable ↔ note.inverseCid = none ∧ note.unknown = false := by
  cases note with
  | inverseEscrowed body =>
    obtain ⟨cid, pending, reads, attested, undetermined⟩ := body
    cases cid <;> cases pending <;> cases undetermined <;>
      simp [opening, inverseCid, unknown, EscrowBody.status]
  | inverseCompleted cid => cases cid <;> simp [opening, inverseCid, unknown]
  | _ => cases h

/-- The row a history leaves: the last word on the inverse, under the opening status until a
supersede edge consumes it. -/
structure EscrowRow.Left (row : EscrowRow) (notes : List Note) (note : Note) : Prop where
  answers : note.answers = true
  inverse : row.inverseCid = note.inverseCid
  status : (row.status = note.opening ∧
      ∀ later ∈ afterLast Note.answers notes, later.supersedes = false) ∨
    ((∃ by_, row.status = .consumed by_) ∧
      ∃ later ∈ afterLast Note.answers notes, later.supersedes = true)

theorem EscrowRow.Left.other {row : EscrowRow} {notes : List Note} {note later : Note}
    (h : row.Left notes note) (hlater : later.answers = false) :
    (later.supersedes = false → row.Left (notes ++ [later]) note) ∧
    (later.supersedes = true → ∀ by_,
      EscrowRow.Left { row with status := .consumed by_ } (notes ++ [later]) note) := by
  have hafter := afterLast_unmarked hlater notes
  constructor
  · intro hsup
    refine ⟨h.answers, h.inverse, ?_⟩
    rw [hafter]
    rcases h.status with ⟨hopen, hnone⟩ | ⟨hconsumed, other, hother, hsome⟩
    · left
      refine ⟨hopen, fun n hn => ?_⟩
      rcases List.mem_append.mp hn with hn | hn
      · exact hnone n hn
      · rw [List.mem_singleton.mp hn, hsup]
    · exact .inr ⟨hconsumed, other, List.mem_append_left _ hother, hsome⟩
  · intro hsup by_
    refine ⟨h.answers, h.inverse, .inr ⟨⟨by_, rfl⟩, later, ?_, hsup⟩⟩
    rw [hafter]
    exact List.mem_append_right _ (List.mem_singleton_self _)

/-- The fold says of the escrow what the last word and the supersede edges after it say. -/
theorem escrowOf?_left (id : TransformationId) (notes : List Note) :
    (lastAnswer notes = none ∧ escrowOf? id notes = none) ∨
    ∃ note row, lastAnswer notes = some note ∧ escrowOf? id notes = some row ∧
      row.Left notes note := by
  induction notes using List.reverseRecOn with
  | nil => exact .inl ⟨rfl, rfl⟩
  | append_singleton notes later ih =>
    rw [escrowOf?_append]
    cases hlater : later.answers with
    | true =>
      right
      refine ⟨later, _, lastAnswer_answer hlater notes, absorb_answer hlater _ id,
        hlater, rfl, .inl ⟨rfl, ?_⟩⟩
      rw [afterLast_marked hlater]
      intro n hn
      cases hn
    | false =>
      rw [lastAnswer_other hlater]
      rcases ih with ⟨hnone, hrow⟩ | ⟨note, row, hlast, hrow, hleft⟩
      · left
        rw [hrow]
        rcases absorb_other hlater none id with ⟨_, by_, habsorb⟩ | ⟨_, habsorb⟩
        · exact ⟨hnone, habsorb⟩
        · exact ⟨hnone, habsorb⟩
      · right
        obtain ⟨hkept, hconsumed⟩ := hleft.other hlater
        rw [hrow]
        rcases absorb_other hlater (some row) id with ⟨hsup, by_, habsorb⟩ | ⟨hsup, habsorb⟩
        · exact ⟨note, _, hlast, habsorb, hconsumed hsup by_⟩
        · exact ⟨note, row, hlast, habsorb, hkept hsup⟩

/-- A row agrees with itself on whether there is a body exactly when its history is settled. -/
theorem EscrowRow.Left.unavailable_iff {row : EscrowRow} {notes : List Note} {note : Note}
    (hlast : lastAnswer notes = some note) (h : row.Left notes note) :
    (row.status = .unavailable ↔ row.inverseCid = none) ↔ Settled notes := by
  have hopen := Note.opening_unavailable h.answers
  rw [h.inverse]
  constructor
  · intro hrow other hother hnone
    rw [hlast] at hother
    cases hother
    rcases h.status with ⟨hstatus, hlater⟩ | ⟨⟨by_, hstatus⟩, _⟩
    · rw [hstatus, hopen] at hrow
      exact ⟨(hrow.mpr hnone).2, hlater⟩
    · rw [hstatus] at hrow
      cases hrow.mpr hnone
  · intro hsettled
    constructor
    · intro hunavailable
      rcases h.status with ⟨hstatus, _⟩ | ⟨⟨by_, hstatus⟩, _⟩
      · exact (hopen.mp (hstatus ▸ hunavailable)).1
      · rw [hstatus] at hunavailable
        cases hunavailable
    · intro hnone
      obtain ⟨hknown, hlater⟩ := hsettled note hlast hnone
      rcases h.status with ⟨hstatus, _⟩ | ⟨_, later, hmem, hsup⟩
      · rw [hstatus]
        exact hopen.mpr ⟨hnone, hknown⟩
      · rw [hlater later hmem] at hsup
        cases hsup

section Rows

variable [Canon]

/-- `BlobStore::get`. -/
def blobBody (disk : Disk) (cid : Cid) : Except EscrowError PlannedDelta :=
  match disk.blobs[cid]?, blobOf disk cid with
  | none, _ => .error (.blob (.notFound "blob"))
  | some _, none => .error (.blob .malformed)
  | some _, some body => .ok body

/-- The body a row names, if it names one. -/
def namedBody (disk : Disk) : Option Cid → Except EscrowError (Option PlannedDelta)
  | some cid => (blobBody disk cid).map some
  | none => .ok none

/-- `BlobStore::escrowed`. -/
def escrowed (disk : Disk) (row : EscrowRow) : Except EscrowError EscrowedInverse := do
  let body ← namedBody disk row.inverseCid
  EscrowedInverse.restore row.transformation body row.status

/-- The body a row names is in the store, under its name. -/
def EscrowRow.Intact (disk : Disk) (row : EscrowRow) : Prop :=
  ∀ cid, row.inverseCid = some cid → (blobOf disk cid).isSome

theorem blobBody_ok {disk : Disk} {cid : Cid} {body : PlannedDelta}
    (h : blobOf disk cid = some body) : blobBody disk cid = .ok body := by
  unfold blobBody
  rw [h]
  cases hblob : disk.blobs[cid]? with
  | some stored => rfl
  | none =>
    rw [blobOf, hblob] at h
    cases h

omit [Canon] in
theorem EscrowedInverse.restore_ok (id : TransformationId) (body : Option PlannedDelta)
    (status : InverseStatus) : (∃ inverse, restore id body status = .ok inverse) ↔
      (status = .unavailable ↔ body = none) := by
  unfold restore
  split
  next h => exact ⟨fun _ => h, fun _ => ⟨_, rfl⟩⟩
  next h =>
    constructor
    · rintro ⟨inverse, hinverse⟩
      cases hinverse
    · intro hagrees
      exact absurd hagrees h

theorem escrowed_ok {disk : Disk} {row : EscrowRow} (h : row.Intact disk) :
    (∃ inverse, escrowed disk row = .ok inverse) ↔
      (row.status = .unavailable ↔ row.inverseCid = none) := by
  unfold escrowed
  cases hcid : row.inverseCid with
  | none =>
    refine (EscrowedInverse.restore_ok row.transformation none row.status).trans ?_
    simp
  | some cid =>
    obtain ⟨body, hbody⟩ := Option.isSome_iff_exists.mp (h cid hcid)
    rw [namedBody, blobBody_ok hbody]
    refine (EscrowedInverse.restore_ok row.transformation (some body) row.status).trans ?_
    simp

/-- Every row of the escrow index whose body is there is restored exactly when every history is
settled. -/
theorem escrow_restored_iff (disk : Disk) (records : List Record) :
    (∀ (id : TransformationId) row, (SigmaShadow.ofRecords records).escrow[id]? = some row → row.Intact disk →
      ∃ inverse, escrowed disk row = .ok inverse) ↔
    ∀ id, Settled (notesOf id records) := by
  constructor
  · intro h id
    rcases escrowOf?_left id (notesOf id records) with ⟨hnone, _⟩ | ⟨note, row, hlast, hrow, hleft⟩
    · intro note hlast
      rw [hnone] at hlast
      cases hlast
    · intro other hother hinverse
      rw [hlast] at hother
      cases hother
      have hempty : row.inverseCid = none := hleft.inverse.trans hinverse
      have hintact : row.Intact disk := by
        intro cid hcid
        rw [hempty] at hcid
        cases hcid
      rw [← SigmaShadow.escrow_ofRecords] at hrow
      have hagrees := (escrowed_ok hintact).mp (h id row hrow hintact)
      exact (hleft.unavailable_iff hlast).mp hagrees note hlast hinverse
  · intro h id row hrow hintact
    rw [SigmaShadow.escrow_ofRecords] at hrow
    rcases escrowOf?_left id (notesOf id records) with ⟨_, hnone⟩ | ⟨note, left, hlast, hleft, hshape⟩
    · rw [hnone] at hrow
      cases hrow
    · rw [hleft] at hrow
      cases hrow
      exact (escrowed_ok hintact).mpr ((hshape.unavailable_iff hlast).mpr (h id))

end Rows

section Undetermined

open Tracefold.Ideal

/-- The adapter cannot say whether there is an inverse. -/
def undetermining : World :=
  objectFrom 2 fun _ env => { env with invert := fun _ _ _ => .ok (.undetermined []) }

/-- A committed transformation whose inverse is undetermined has a row that is not restored. -/
theorem undetermined_row_is_refused :
    ¬ ∀ (w : World) (p : Project), Project.empty.Reaches w (fun _ _ => True) p →
      ∀ (id : TransformationId) row, (SigmaShadow.ofRecords p.disk.journal).escrow[id]? = some row →
        row.Intact p.disk → ∃ inverse, escrowed p.disk row = .ok inverse := by
  intro h
  have hreached := h undetermining (Project.empty.run undetermining (committed 2))
    (Project.reaches_run fun _ _ _ => trivial)
  have hrow : escrowOf? (idAt 2) (notesOf (idAt 2)
      (Project.empty.run undetermining (committed 2)).disk.journal) =
        some ⟨idAt 2, none, .undetermined⟩ := by decide
  rw [← SigmaShadow.escrow_ofRecords] at hrow
  obtain ⟨inverse, hinverse⟩ := hreached (idAt 2) _ hrow (fun cid hcid => by cases hcid)
  cases hinverse

end Undetermined

end Tracefold
