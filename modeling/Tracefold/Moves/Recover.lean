import Mathlib.Tactic.Common
import Tracefold.Moves.Undo

/-! Recovery moves as the engine may, one row at a time. -/

namespace Tracefold

open Library Engine
open Std (ExtTreeMap)

/-- What a move on one transformation leaves of another. -/
structure Frame (other : TransformationId) (s s' : Sys) : Prop where
  notes : s'.engine.notes other = s.engine.notes other
  leaf : leafOf s'.engine.ledger other = leafOf s.engine.ledger other
  table : s'.engine.table[other]? = s.engine.table[other]?
  shadow : s'.engine.shadow.rows[other]? = s.engine.shadow.rows[other]?
  escrow : s'.engine.escrow[other]? = s.engine.escrow[other]?
  supersedes : s'.engine.supersedes[other]? = s.engine.supersedes[other]?

namespace Frame

variable {other id : TransformationId} {s s' s'' : Sys}

theorem refl (other : TransformationId) (s : Sys) : Frame other s s :=
  ⟨rfl, rfl, rfl, rfl, rfl, rfl⟩

theorem trans (h : Frame other s s') (h' : Frame other s' s'') : Frame other s s'' :=
  ⟨h'.notes.trans h.notes, h'.leaf.trans h.leaf, h'.table.trans h.table,
    h'.shadow.trans h.shadow, h'.escrow.trans h.escrow, h'.supersedes.trans h.supersedes⟩

theorem of_engine {f : Engine → Engine} (hr : (f s.engine).records = s.engine.records)
    (hl : (f s.engine).ledger = s.engine.ledger)
    (ht : (f s.engine).table[other]? = s.engine.table[other]?)
    (hs : (f s.engine).shadow = s.engine.shadow)
    (he : (f s.engine).escrow[other]? = s.engine.escrow[other]?)
    (hb : (f s.engine).supersedes[other]? = s.engine.supersedes[other]?) :
    Frame other s (s.withEngine f) :=
  ⟨congrArg (notesOf other) hr, by rw [← hl]; rfl, ht, by rw [← hs]; rfl, he, hb⟩

theorem live (s : Sys) (f : Entry → Entry) (h : id ≠ other) : Frame other s (s.live id f) := by
  refine of_engine rfl rfl ?_ rfl rfl rfl
  simp [ExtTreeMap.getElem?_modify, h]

theorem of_leaf (s : Sys) (leaf : LedgerEntry) (h : leaf.transformation ≠ other) :
    Frame other s (s.leafed leaf) := by
  refine ⟨rfl, ?_, rfl, rfl, rfl, rfl⟩
  simp only [Sys.leafed, leafOf, List.find?_append]
  simp [h]

theorem append (s : Sys) (n : Note) (t : Timestamp) (h : id ≠ other) :
    Frame other s (s.append (.about id n t)) := by
  refine ⟨?_, rfl, rfl, rfl, rfl, rfl⟩
  rw [Engine.notes, Sys.records_append, notesOf_append, notesOf_other h, List.append_nil]

theorem note (s : Sys) (n : Note) (t : Timestamp) (h : id ≠ other) :
    Frame other s (s.note id n t) := by
  obtain ⟨hnotes, hleaf, htable, _, hescrow, hedge⟩ := append s n t h
  refine ⟨hnotes, hleaf, htable, ?_, hescrow, hedge⟩
  exact (SigmaShadow.rows_fold s.engine.shadow id n t other).trans (if_neg h)

end Frame

section Resuming

variable {id : TransformationId} {s : Sys} {row : StateRow}

/-- A note a recovery writes before it closes the row. -/
def Note.resuming : Note → Bool
  | .inverseCompleted _ => true
  | .applyStarted _ => true
  | _ => false

theorem Note.silent_resuming {n : Note} (h : n.resuming = true) : n.silent = true := by
  cases n <;> first | rfl | cases h

theorem rowOf_resuming {notes ns : List Note} (h : ∀ n ∈ ns, n.resuming = true) :
    rowOf id (notes ++ ns) =
      { rowOf id notes with applyStarted := (rowOf id (notes ++ ns)).applyStarted } := by
  induction ns using List.reverseRecOn with
  | nil => rw [List.append_nil]
  | append_singleton ns n ih =>
    have hn := h n (by simp)
    have hih := ih fun m hm => h m (by simp [hm])
    rw [← List.append_assoc, rowOf_append]
    cases n with
    | inverseCompleted _ => exact hih
    | applyStarted cid =>
      simp only [StateRow.absorb]
      rw [hih]
    | _ => cases hn

theorem InResume.extend {s' : Sys} (ns : List Note) (h : InResume s row)
    (hnotes : s'.engine.notes row.transformation = s.engine.notes row.transformation ++ ns)
    (hns : ∀ n ∈ ns, n.resuming = true) : InResume s' row := by
  refine ⟨?_, ?_⟩
  · rw [hnotes, stateOf?_append_silent fun n hn => Note.silent_resuming (hns n hn)]
    exact h.state
  · have hrow := h.row_eq
    rw [Engine.row] at hrow ⊢
    rw [hnotes, rowOf_resuming hns, hrow]

theorem InResume.of_records {s' : Sys} (h : InResume s row)
    (hr : s'.engine.records = s.engine.records) : InResume s' row :=
  h.extend [] (by rw [Engine.notes, hr, List.append_nil]) (by simp)

theorem InResume.material_eq (h : InResume s row) :
    material (s.engine.row row.transformation) = material row := by
  rw [h.row_eq]
  rfl

/-- What the recovery of one row answers for. -/
structure Resumed (s : Sys) (row : StateRow) (out : Recovered) (s' : Sys) : Prop where
  id_eq : out.transformation = row.transformation
  closed : out.path ≠ .notResumed →
    stateOf? (s'.engine.notes row.transformation) = some out.state ∧ out.state ≠ .committing
  unannounced : leafOf s.engine.ledger row.transformation = none → row.applyStarted = none →
    out.path ≠ .notResumed ∧ ∃ reason, out.state = .aborted reason

/-- The rows a recovery has yet to see are still those of the journal it started from. -/
structure Pending (sigma : Sigma) (s : Sys) (rows : List StateRow) : Prop where
  row : ∀ row ∈ rows, row = s.engine.row row.transformation
  escrow : ∀ row ∈ rows, sigma.escrowOf row.transformation =
    escrowOf? row.transformation (s.engine.notes row.transformation)
  seq : ∀ row ∈ rows, (sigma.ledger.find? fun c => c.transformation = row.transformation).map
    (·.ledgerSeq) = seqOf? (s.engine.notes row.transformation)
  distinct : (rows.map (·.transformation)).Nodup

theorem Pending.frame {sigma : Sigma} {s' : Sys} {rows : List StateRow} (h : Pending sigma s rows)
    (hf : ∀ row ∈ rows, Frame row.transformation s s') : Pending sigma s' rows where
  row r hr := by
    rw [Engine.row, (hf r hr).notes]
    exact h.row r hr
  escrow r hr := by
    rw [(hf r hr).notes]
    exact h.escrow r hr
  seq r hr := by
    rw [(hf r hr).notes]
    exact h.seq r hr
  distinct := h.distinct

/-- What a recovery answers for the rows it has been through. -/
structure RowsResumed (rows : List StateRow) (s : Sys) (out : List Recovered) (s' : Sys) :
    Prop where
  row : ∀ row ∈ rows, row.state = some .committing → ∃ recovered ∈ out,
    recovered.transformation = row.transformation ∧
    (recovered.path ≠ .notResumed →
      stateOf? (s'.engine.notes row.transformation) = some recovered.state ∧
        recovered.state ≠ .committing) ∧
    (leafOf s.engine.ledger row.transformation = none → row.applyStarted = none →
      recovered.path ≠ .notResumed ∧ ∃ reason, recovered.state = .aborted reason)
  settled : ∀ row ∈ rows, row.state ≠ some .committing → Frame row.transformation s s'
  frame : ∀ other, (∀ row ∈ rows, row.transformation ≠ other) → Frame other s s'

theorem RowsResumed.cons_committing {rows : List StateRow} {s₁ s₂ : Sys} {recovered : Recovered}
    {out : List Recovered} (hresumed : Resumed s row recovered s₁)
    (hframe : ∀ other, row.transformation ≠ other → Frame other s s₁)
    (hrest : RowsResumed rows s₁ out s₂)
    (hnew : ∀ r ∈ rows, r.transformation ≠ row.transformation)
    (hstate : row.state = some .committing) :
    RowsResumed (row :: rows) s (recovered :: out) s₂ := by
  have hkept : Frame row.transformation s₁ s₂ := hrest.frame _ hnew
  refine ⟨fun r hr hcommitting => ?_, fun r hr hother => ?_, fun other hother => ?_⟩
  · rcases List.mem_cons.mp hr with rfl | hr
    · refine ⟨recovered, List.mem_cons_self, hresumed.id_eq, fun hpath => ?_, hresumed.unannounced⟩
      rw [hkept.notes]
      exact hresumed.closed hpath
    · obtain ⟨rec, hrec, hid, hclosed, hquiet⟩ := hrest.row r hr hcommitting
      have hf := hframe r.transformation (hnew r hr).symm
      rw [hf.leaf] at hquiet
      exact ⟨rec, List.mem_cons_of_mem _ hrec, hid, hclosed, hquiet⟩
  · rcases List.mem_cons.mp hr with rfl | hr
    · exact absurd hstate hother
    · exact (hframe _ (hnew r hr).symm).trans (hrest.settled r hr hother)
  · have hhead := hother row List.mem_cons_self
    exact (hframe other hhead).trans
      (hrest.frame other fun r hr => hother r (List.mem_cons_of_mem _ hr))

theorem RowsResumed.cons_settled {rows : List StateRow} {s₁ s₂ : Sys} {out out' : List Recovered}
    (hrest : RowsResumed rows s₁ out s₂) (hsub : ∀ r ∈ out, r ∈ out')
    (hframe : ∀ other, Frame other s s₁)
    (hnew : ∀ r ∈ rows, r.transformation ≠ row.transformation)
    (hstate : row.state ≠ some .committing) :
    RowsResumed (row :: rows) s out' s₂ := by
  refine ⟨fun r hr hcommitting => ?_, fun r hr hother => ?_, fun other hother => ?_⟩
  · rcases List.mem_cons.mp hr with rfl | hr
    · exact absurd hcommitting hstate
    · obtain ⟨rec, hrec, hid, hclosed, hquiet⟩ := hrest.row r hr hcommitting
      rw [(hframe r.transformation).leaf] at hquiet
      exact ⟨rec, hsub rec hrec, hid, hclosed, hquiet⟩
  · rcases List.mem_cons.mp hr with rfl | hr
    · exact (hframe _).trans (hrest.frame _ hnew)
    · exact (hframe _).trans (hrest.settled r hr hother)
  · exact (hframe other).trans
      (hrest.frame other fun r hr => hother r (List.mem_cons_of_mem _ hr))

theorem pending_transformations (s : Sys) :
    Pending (reconstruct s.engine.records) s (reconstruct s.engine.records).transformations where
  row _ hrow := (mem_transformations hrow).2
  escrow row _ := escrowOf_reconstruct s.engine.records row.transformation
  seq row _ := ledgerSeq_reconstruct s.engine.records row.transformation
  distinct := nodup_transformations s.engine.records

end Resuming

variable [Canon]

theorem Step.frame {pol : Policy} {w : World} {id other : TransformationId} {s s' : Sys}
    (h : Step pol w id s s') (hne : id ≠ other) : Frame other s s' := by
  have hins : ∀ {V : Type} (m : BTreeMap Cid V) (v : V), (m.insert id v)[other]? = m[other]? := by
    intro V m v
    simp [ExtTreeMap.getElem?_insert, hne]
  have hmod : ∀ {V : Type} (m : BTreeMap Cid V) (f : V → V),
      (m.modify id f)[other]? = m[other]? := by
    intro V m f
    simp [ExtTreeMap.getElem?_modify, hne]
  have hnew : ∀ {V : Type} (m : BTreeMap Cid V) (v : V),
      (m.insertIfNew id v)[other]? = m[other]? := by
    intro V m v
    simp [ExtTreeMap.getElem?_insertIfNew, hne]
  cases h with
  | asked | failed | crashed | blob | observation | filed | headed | counted | explained | resumed
  | indexed | applied => exact ⟨rfl, rfl, rfl, rfl, rfl, rfl⟩
  | drafted i n t =>
    refine ⟨?_, rfl, rfl, rfl, rfl, rfl⟩
    exact (notesOf_append other _ _).trans (List.append_nil _)
  | planned | undone => exact (Frame.note s _ _ hne).trans (.of_engine rfl rfl rfl rfl rfl rfl)
  | seated | rehydrated => exact .of_engine rfl rfl (hins _ _) rfl rfl rfl
  | restored =>
    refine .of_engine rfl rfl (hins _ _) rfl ?_ ?_
    · unfold Engine.restored
      dsimp only
      split
      next => exact hins _ _
      next => rfl
    · unfold Engine.restored
      dsimp only
      split
      next => exact hnew _ _
      next => rfl
  | idle | observationNamed | closed => exact .live s _ hne
  | verifyStarted | unverified | ruled | opened | decided | canonicalized | announced | aborted =>
    exact (Frame.note s _ _ hne).trans (.live _ _ hne)
  | committing | provenance => exact (Frame.append s _ _ hne).trans (.live _ _ hne)
  | escrowed | announcedAgain | observed | completed => exact Frame.note s _ _ hne
  | escrowHeld => exact .of_engine rfl rfl rfl rfl (hins _ _) rfl
  | leafed | leafedAgain => exact Frame.of_leaf s _ hne
  | committed => exact (Frame.note s _ _ hne).trans (.of_engine rfl rfl rfl rfl rfl rfl)
  | superseded =>
    exact ((Frame.note s _ _ hne).trans (.of_engine rfl rfl rfl rfl (hmod _ _) (hnew _ _))).trans
      (.live _ _ hne)

namespace Engine

variable {pol : Policy} {id : TransformationId} {w : World} {s : Sys} {row : StateRow}

theorem frame_of_moves {other : TransformationId} {s' : Sys}
    (h : Relation.ReflTransGen (Move pol (· = id) w) s s') (hne : id ≠ other) :
    Frame other s s' := by
  induction h with
  | refl => exact Frame.refl other s
  | tail _ hstep ih =>
    obtain ⟨_, rfl, hstep⟩ := hstep
    exact ih.trans (hstep.frame hne)

theorem moves_closeOnLeaf [Fact (pol.heads id)] {leaf : LedgerEntry} {stamp : Timestamp} {key : KeyId}
    {ids : TransformationId → Prop} {Q : Unit → Sys → Prop} (hid : ids id)
    (hleaf : leafOf s.engine.ledger id = some leaf)
    (hstate : stateOf? (s.engine.notes id) = some .committing)
    (h : ∀ s', stateOf? (s'.engine.notes id) = some .committed → Q () s') :
    Moves pol ids w (closeOnLeaf id leaf stamp key) s Q := by
  refine .bind (moves_recordCommitted hid hleaf hstate fun s₁ hnotes₁ hledger₁ _ => ?_)
  have hleaf₁ : (leafOf s₁.engine.ledger id).isSome := by
    rw [hledger₁, hleaf]
    rfl
  refine .bind (moves_update hid (.resumed s₁) (moves_recordHead hid hleaf₁ fun s₂ hrecords₂ _ _ => ?_))
  refine h s₂ ?_
  rw [Engine.notes, hrecords₂]
  exact (congrArg stateOf? hnotes₁).trans (stateOf?_append _ _)

theorem moves_giveUp {stamp : Timestamp} {ids : TransformationId → Prop}
    {Q : Recovered → Sys → Prop} (hid : ids id) (hmay : MayAbort s id)
    (h : ∀ s', stateOf? (s'.engine.notes id) = some (.aborted .internalError) →
      Q (.closed id .nothingWasApplied (.aborted .internalError) none) s') :
    Moves pol ids w (giveUp id stamp) s Q := by
  refine .bind (moves_abort hid hmay (.pure (h _ ?_)))
  exact (congrArg stateOf? (Sys.notes_note s id _ stamp)).trans (stateOf?_append _ _)

theorem moves_filedKeyId {ids : TransformationId → Prop} {Q : Option KeyId → Sys → Prop}
    (h : ∀ o, Q o s) : Moves pol ids w (filedKeyId id) s Q :=
  .bind (.get (.pure (h _)))

theorem moves_filedReceipt {ids : TransformationId → Prop} {Q : Option Receipt → Sys → Prop}
    (h : ∀ o, Q o s) : Moves pol ids w (filedReceipt id) s Q :=
  .bind (.get (.pure (h _)))

theorem moves_closeResumed [Fact (pol.heads id)] {facts : CommitFacts} {leaf : LedgerEntry} {filed : Option KeyId}
    {stamp : Timestamp} {key : KeyId} {ids : TransformationId → Prop} {Q : Unit → Sys → Prop}
    (hid : ids id) (hleaf : leafOf s.engine.ledger id = some leaf)
    (hdigest : leaf.receiptDigest = facts.payload.ledgerDigest) (hfacts : facts.transformation = id)
    (hstate : stateOf? (s.engine.notes id) = some .committing)
    (h : ∀ s', stateOf? (s'.engine.notes id) = some .committed → Q () s') :
    Moves pol ids w (closeResumed id facts leaf filed stamp key) s Q := by
  refine .bind (moves_self (.bind (.orThrow fun proof _ => ?_)))
  split
  next =>
    refine .bind (moves_issueOr fun r hr => .bind (moves_fileReceipt hid hleaf ?_ ?_ ?_))
    · rw [hr, hdigest]
      exact ledgerDigest_proof facts _
    · rw [hr]
      exact hfacts
    · intro s₁ he₁
      rw [← he₁] at hleaf hstate
      exact moves_closeOnLeaf hid hleaf hstate h
  next => exact moves_closeOnLeaf hid hleaf hstate h

theorem moves_resumedInverse {escrowRow : Option EscrowRow} {stamp : Timestamp}
    {ids : TransformationId → Prop} {Q : Option Cid → Sys → Prop} (hid : ids row.transformation)
    (hresume : InResume s row)
    (hescrow : escrowRow = escrowOf? row.transformation (s.engine.notes row.transformation))
    (h : ∀ inverse s', InResume s' row → s'.engine.ledger = s.engine.ledger →
      (s'.engine.notes row.transformation = s.engine.notes row.transformation ∨
        ∃ inverse, s'.engine.notes row.transformation =
          s.engine.notes row.transformation ++ [.inverseCompleted inverse]) →
      Resettled s' row.transformation inverse (escrowRow.map (·.status)) → Q inverse s') :
    Moves pol ids w (resumedInverse row escrowRow stamp) s Q := by
  unfold resumedInverse
  split
  next =>
    refine .pure (h _ s hresume rfl (.inl rfl) ⟨?_, .inl ⟨?_, nofun⟩⟩)
    · rw [← hescrow]
      rfl
    · rw [← hescrow]
  next held =>
    split
    next hpending =>
      refine .bind (.get ?_)
      refine moves_settlePendingEscrow hid hresume.state ⟨held, hescrow.symm, hpending⟩
        fun inverse s₁ hs₁ => h _ s₁ (hresume.extend _ hs₁.notes (by simp [Note.resuming]))
          hs₁.keeps.ledger (.inr ⟨_, hs₁.notes⟩) ⟨?_, .inr ⟨?_, hs₁.row⟩⟩
      · rw [hs₁.row]
        rfl
      · simp [hpending]
    next hsettled =>
      refine .pure (h _ s hresume rfl (.inl rfl) ⟨?_, .inl ⟨?_, ?_⟩⟩)
      · rw [← hescrow]
        rfl
      · rw [← hescrow]
      · intro hpending
        exact hsettled (Option.some.inj hpending)

theorem moves_resumeHeld [Fact (pol.heads row.transformation)] {escrowRow : Option EscrowRow} {m : Material}
    {verdict : Option VerdictSummary} {delta : PlannedDelta} {inverse : Option Cid}
    {leaf : LedgerEntry} {stamp : Timestamp} {key : KeyId} {ids : TransformationId → Prop}
    {Q : Recovered → Sys → Prop} (hid : ids row.transformation) (hresume : InResume s row)
    (hleaf : leafOf s.engine.ledger row.transformation = some leaf)
    (h : ∀ out s', out.transformation = row.transformation → (out.path ≠ .notResumed →
      stateOf? (s'.engine.notes row.transformation) = some out.state ∧ out.state ≠ .committing) →
      Q out s') :
    Moves pol ids w (resumeHeld row escrowRow m verdict delta inverse leaf stamp key) s Q := by
  refine .bind (moves_filedKeyId fun filed => .bind (moves_self ?_))
  split
  next hplanned =>
    refine moves_giveUp hid (.immaterial row hresume rfl (.inr hplanned)) fun s' hs' => ?_
    exact h _ s' rfl fun _ => ⟨hs', nofun⟩
  next planned _ _ =>
    refine .bind (moves_readWorld hid fun postcondition s₁ he₁ _ _ => ?_)
    have hresume₁ := hresume.of_records (congrArg Engine.records he₁)
    rw [← he₁] at hleaf
    split
    next =>
      refine .bind (moves_closeOnLeaf hid hleaf hresume₁.state fun s₂ hs₂ => ?_)
      refine .bind (moves_modifyEntry hid (.closed s₂ _ stamp hs₂ (fun _ => rfl) fun _ _ => .inl) ?_)
      exact .pure (h _ _ rfl fun _ => ⟨hs₂, nofun⟩)
    next =>
      refine .bind (moves_self (.ite (fun hdigest => ?_) fun _ => ?_))
      · refine .bind (moves_closeResumed hid hleaf hdigest rfl hresume₁.state fun s₂ hs₂ => ?_)
        exact .pure (h _ _ rfl fun _ => ⟨hs₂, nofun⟩)
      · exact .pure (h _ _ rfl fun hpath => (hpath rfl).elim)

theorem moves_resumeAnnounced [Fact (pol.heads row.transformation)] {escrowRow : Option EscrowRow} {m : Material}
    {verdict : Option VerdictSummary} {delta : PlannedDelta} {inverse : Option Cid}
    {stamp : Timestamp} {key : KeyId} {ids : TransformationId → Prop} {notes : List Note}
    {Q : Recovered → Sys → Prop} (hid : ids row.transformation) (hresume : InResume s row)
    (hleaf : leafOf s.engine.ledger row.transformation = none)
    (hannounced : row.applyStarted.isSome) (hm : material row = some m)
    (hverdict : receiptVerdict row.verdict row.verdictDigest row.failPostureEngaged = some verdict)
    (hdelta : delta.cid = m.deltaCid)
    (hsettled : Resettled s row.transformation inverse (escrowRow.map (·.status)))
    (hpol : pol.reapplies row.transformation notes)
    (hnotes : s.engine.notes row.transformation = notes ∨
      ∃ inverse, s.engine.notes row.transformation = notes ++ [.inverseCompleted inverse])
    (h : ∀ out s', out.transformation = row.transformation → (out.path ≠ .notResumed →
      stateOf? (s'.engine.notes row.transformation) = some out.state ∧ out.state ≠ .committing) →
      Q out s') :
    Moves pol ids w (resumeAnnounced row escrowRow m verdict delta inverse stamp key) s Q := by
  have hcid : row.deltaCid = some m.deltaCid := by
    simp only [material, Option.bind_eq_bind, Option.bind_eq_some_iff] at hm
    obtain ⟨deltaCid, hd, _, _, _, _, hm⟩ := hm
    cases hm
    exact hd
  refine .bind (moves_filedKeyId fun filed => ?_)
  refine .bind (moves_noteOnly hid (.announcedAgain s row m.deltaCid stamp hresume rfl hannounced
    hleaf hcid ⟨notes, hpol, hnotes⟩) ?_)
  have hnotes₁ := Sys.notes_note s row.transformation (.applyStarted m.deltaCid) stamp
  have hresume₁ : InResume (s.note row.transformation (.applyStarted m.deltaCid) stamp) row :=
    hresume.extend _ hnotes₁ (by simp [Note.resuming])
  have hlast : (s.note row.transformation (.applyStarted m.deltaCid) stamp).engine.records.getLast? =
      some (.about row.transformation (.applyStarted delta.cid) stamp) := by
    rw [hdelta]
    exact List.getLast?_concat
  refine .bind (moves_applyOnce hid hlast fun answer _ => ?_)
  have hresume₂ : InResume ((s.note row.transformation (.applyStarted m.deltaCid) stamp).push
      (.apply row.transformation delta answer)) row := hresume₁.of_records rfl
  split
  next =>
    refine .bind (moves_notAttempted hid fun s₃ hk₃ hrecords₃ _ => ?_)
    have hresume₃ := hresume₂.of_records hrecords₃
    refine .bind (moves_abort hid (.leafless row hresume₃ rfl (by rw [hk₃.ledger]; exact hleaf)) ?_)
    refine .pure (h _ _ rfl fun _ => ⟨?_, nofun⟩)
    exact (congrArg stateOf? (Sys.notes_note s₃ row.transformation _ stamp)).trans
      (stateOf?_append _ _)
  next applied _ =>
    refine .bind (moves_self ?_)
    have hsettled₂ : Resettled ((s.note row.transformation (.applyStarted m.deltaCid) stamp).push
        (.apply row.transformation delta (.ok applied))) row.transformation inverse
        (escrowRow.map (·.status)) := by
      unfold Resettled
      rw [Sys.engine_push, hnotes₁, escrowOf?_append]
      exact hsettled
    refine .bind (moves_ledgerAppend hid (fun hnone => ?_) fun leaf s₃ hleaf₃ hdigest₃ hrecords₃ _ => ?_)
    · refine .leafedAgain _ row delta applied _ stamp rfl ⟨hresume₂, hnone, lastApply_push _ _ _ _,
        m, verdict, inverse, escrowRow.map (·.status), filed.getD key, rfl, hm, hdelta, hverdict,
        hsettled₂⟩ ⟨notes, hpol, ?_⟩
      rw [Sys.engine_push, hnotes₁]
      rcases hnotes with hnotes | ⟨_, hnotes⟩
      · rw [hnotes]
        exact List.prefix_append _ _
      · rw [hnotes, List.append_assoc]
        exact List.prefix_append _ _
    · have hresume₃ := hresume₂.of_records hrecords₃
      refine .bind (moves_closeResumed hid hleaf₃ hdigest₃ rfl hresume₃.state fun s₄ hs₄ => ?_)
      exact .pure (h _ _ rfl fun _ => ⟨hs₄, nofun⟩)

theorem moves_resumeRebuilt [Fact (pol.heads row.transformation)] {escrowRow : Option EscrowRow} {held : Option LedgerEntry}
    {stamp : Timestamp} {key : KeyId} {ids : TransformationId → Prop} {Q : Recovered → Sys → Prop}
    (hid : ids row.transformation) (hresume : InResume s row)
    (hescrow : escrowRow = escrowOf? row.transformation (s.engine.notes row.transformation))
    (hheld : leafOf s.engine.ledger row.transformation = held)
    (hannounced : held = none → row.applyStarted.isSome)
    (hpol : held = none → pol.reapplies row.transformation (s.engine.notes row.transformation))
    (h : ∀ out s', out.transformation = row.transformation → (out.path ≠ .notResumed →
      stateOf? (s'.engine.notes row.transformation) = some out.state ∧ out.state ≠ .committing) →
      Q out s') :
    Moves pol ids w (resumeRebuilt row escrowRow held stamp key) s Q := by
  unfold resumeRebuilt
  split
  next hm =>
    refine moves_giveUp hid (.immaterial row hresume rfl (.inl ?_)) fun s' hs' => ?_
    · rw [hresume.material_eq]
      exact hm
    · exact h _ s' rfl fun _ => ⟨hs', nofun⟩
  next m hm =>
    refine .bind (.orThrow fun verdict hverdict => .bind (moves_blobGet fun delta hblob => ?_))
    refine .bind (moves_adapter fun _ => .bind (moves_resumedInverse hid hresume hescrow ?_))
    intro inverse s₁ hresume₁ hledger₁ hnotes₁ hsettled₁
    rw [← hledger₁] at hheld
    split
    next leaf => exact moves_resumeHeld hid hresume₁ hheld h
    next =>
      exact moves_resumeAnnounced hid hresume₁ hheld (hannounced rfl) hm hverdict
        (cid_of_blobOf hblob).1 hsettled₁ (hpol rfl) hnotes₁ h

theorem moves_resume [Fact (pol.heads row.transformation)] {escrowRow : Option EscrowRow} {stamp : Timestamp} {key : KeyId}
    {ids : TransformationId → Prop} {Q : Recovered → Sys → Prop}
    (hid : ids row.transformation) (hresume : InResume s row)
    (hescrow : escrowRow = escrowOf? row.transformation (s.engine.notes row.transformation))
    (hpol : leafOf s.engine.ledger row.transformation = none → row.applyStarted.isSome →
      pol.reapplies row.transformation (s.engine.notes row.transformation))
    (h : ∀ out s', Resumed s row out s' → Q out s') :
    Moves pol ids w (resume row escrowRow stamp key) s Q := by
  refine .bind (moves_self ?_)
  split
  next hnone =>
    refine .ite (fun hquiet => ?_) fun hannounced => ?_
    · refine moves_giveUp hid (.leafless row hresume rfl hnone) fun s' hs' => ?_
      exact h _ s' ⟨rfl, fun _ => ⟨hs', nofun⟩, fun _ _ => ⟨nofun, _, rfl⟩⟩
    · have hannounced' : row.applyStarted.isSome := by
        simpa [Option.isSome_iff_ne_none] using hannounced
      refine moves_resumeRebuilt hid hresume hescrow hnone (fun _ => hannounced')
        (fun _ => hpol hnone hannounced') fun out s' hout hclosed => h out s' ⟨hout, hclosed, ?_⟩
      intro _ hquiet
      rw [hquiet] at hannounced'
      cases hannounced'
  next leaf hleaf =>
    have hsome : ∀ {P : Prop}, leafOf s.engine.ledger row.transformation = none → P := by
      intro P hnone
      rw [hleaf] at hnone
      cases hnone
    refine .ite (fun _ => ?_) fun _ => ?_
    · exact .pure (h _ s ⟨rfl, fun hpath => (hpath rfl).elim, hsome⟩)
    · refine .bind (moves_filedReceipt fun filed => .ite (fun _ => ?_) fun _ => ?_)
      · refine .bind (moves_closeOnLeaf hid hleaf hresume.state fun s₁ hs₁ => ?_)
        refine .bind (moves_modifyEntry hid (.closed s₁ _ stamp hs₁ (fun _ => rfl) fun _ _ => .inl) ?_)
        exact .pure (h _ _ ⟨rfl, fun _ => ⟨hs₁, nofun⟩, hsome⟩)
      · exact moves_resumeRebuilt hid hresume hescrow hleaf nofun nofun
          fun out s' hout hclosed => h out s' ⟨hout, hclosed, hsome⟩

theorem moves_recoverRows {sigma : Sigma} {stamp : Timestamp} {key : KeyId} {rows : List StateRow}
    {Q : List Recovered → Sys → Prop} (hpending : Pending sigma s rows)
    (hpol : ∀ row ∈ rows, row.state = some .committing →
      leafOf s.engine.ledger row.transformation = none → row.applyStarted.isSome →
      pol.reapplies row.transformation (s.engine.notes row.transformation))
    (hheads : ∀ row ∈ rows, row.state = some .committing → pol.heads row.transformation)
    (h : ∀ out s', RowsResumed rows s out s' → Q out s') :
    Moves pol every w (recoverRows sigma stamp key rows) s Q := by
  induction rows generalizing s Q with
  | nil =>
    refine .pure (h [] s ⟨?_, ?_, fun other _ => Frame.refl other s⟩)
    · intro row hrow
      cases hrow
    · intro row hrow
      cases hrow
  | cons row rows ih =>
    have hnodup := List.nodup_cons.mp hpending.distinct
    have hnew : ∀ r ∈ rows, r.transformation ≠ row.transformation := by
      intro r hr heq
      exact hnodup.1 (List.mem_map.mpr ⟨r, hr, heq⟩)
    have hrow := hpending.row row List.mem_cons_self
    have hrest : ∀ {s₁ Q}, (∀ r ∈ rows, Frame r.transformation s s₁) →
        (∀ out s', RowsResumed rows s₁ out s' → Q out s') →
        Moves pol every w (recoverRows sigma stamp key rows) s₁ Q := by
      intro s₁ Q hf hQ
      refine ih ?_ (fun r hr hstate hnone hsome => ?_)
        (fun r hr => hheads r (List.mem_cons_of_mem _ hr)) hQ
      · refine Pending.frame ⟨?_, ?_, ?_, hnodup.2⟩ hf
        · exact fun r hr => hpending.row r (List.mem_cons_of_mem _ hr)
        · exact fun r hr => hpending.escrow r (List.mem_cons_of_mem _ hr)
        · exact fun r hr => hpending.seq r (List.mem_cons_of_mem _ hr)
      · rw [(hf r hr).leaf] at hnone
        rw [(hf r hr).notes]
        exact hpol r (List.mem_cons_of_mem _ hr) hstate hnone hsome
    unfold recoverRows
    split
    next hstate =>
      have hne : row.state ≠ some .committing := by rw [hstate]; nofun
      refine .bind (moves_whenSome (fun seq hseq => ?_) fun _ => ?_)
      · rw [hpending.seq row List.mem_cons_self] at hseq
        refine moves_update (every_holds row.transformation) (.indexed s seq hseq) ?_
        have hframe : ∀ other, Frame other s (s.withEngine fun e =>
            { e with committed := e.committed.insert row.transformation seq }) :=
          fun other => .of_engine rfl rfl rfl rfl rfl rfl
        refine .bind (hrest (fun r _ => hframe _) fun out s' hout => .pure (h _ s' ?_))
        exact hout.cons_settled (fun r hr => List.mem_cons_of_mem _ hr) hframe hnew hne
      · refine .bind (hrest (fun r _ => Frame.refl _ s) fun out s' hout => .pure (h _ s' ?_))
        exact hout.cons_settled (fun r hr => List.mem_cons_of_mem _ hr)
          (fun other => Frame.refl other s) hnew hne
    next hstate =>
      have hresume : InResume s row := by
        refine ⟨?_, ?_⟩
        · rw [← state_rowOf row.transformation, ← hstate]
          exact congrArg StateRow.state hrow.symm
        · rw [← hrow]
      have hfact : Fact (pol.heads row.transformation) := ⟨hheads row List.mem_cons_self hstate⟩
      have htrace : Moves pol (· = row.transformation) w
          (resume row (sigma.escrowOf row.transformation) stamp key) s (Resumed s row) :=
        moves_resume rfl hresume (hpending.escrow row List.mem_cons_self)
          (hpol row List.mem_cons_self hstate) fun _ _ hout => hout
      refine .bind ((htrace.with_steps fun recovered s₁ hsteps hresumed => ?_).weaken
        fun _ _ hmove => ?_)
      · have hframe : ∀ other, row.transformation ≠ other → Frame other s s₁ :=
          fun other hne => frame_of_moves hsteps hne
        refine .bind (hrest (fun r hr => hframe _ (hnew r hr).symm) fun out s' hout =>
          .pure (h _ s' ?_))
        exact RowsResumed.cons_committing hresumed hframe hout hnew hstate
      · obtain ⟨id, _, hstep⟩ := hmove
        exact ⟨id, trivial, hstep⟩
    next hcommitted hcommitting =>
      refine hrest (fun r _ => Frame.refl _ s) fun out s' hout => h _ s' ?_
      exact hout.cons_settled (fun r hr => hr) (fun other => Frame.refl other s) hnew hcommitting

/-- A recovery refuses every row it would have to answer for, or goes through all rows. -/
theorem moves_recover {stamp : Timestamp} {key : KeyId} {Q : List Recovered → Sys → Prop}
    (hpol : ∀ row ∈ (reconstruct s.engine.records).transformations, row.state = some .committing →
      leafOf s.engine.ledger row.transformation = none → row.applyStarted.isSome →
      pol.reapplies row.transformation (s.engine.notes row.transformation))
    (hheads : ∀ row ∈ (reconstruct s.engine.records).transformations,
      row.state = some .committing → pol.heads row.transformation)
    (hrefused : ∀ out, (s.engine.journalDeparture || s.engine.rolledBack) = true →
      (∀ row ∈ (reconstruct s.engine.records).transformations, row.state = some .committing →
        ∃ recovered ∈ out, recovered.path = .notResumed) → Q out s)
    (h : ∀ out s', RowsResumed (reconstruct s.engine.records).transformations s out s' → Q out s') :
    Moves pol every w (recover stamp key) s Q := by
  refine .bind (moves_self (.ite (fun hrolled => .pure (hrefused _ hrolled ?_)) fun _ => ?_))
  · intro row hrow hstate
    refine ⟨_, List.mem_map.mpr ⟨row, List.mem_filter.mpr ⟨hrow, ?_⟩, rfl⟩, rfl⟩
    simp [hstate]
  · exact moves_recoverRows (pending_transformations s) hpol hheads h

theorem idle_receipt (receipt : Receipt) :
    Entry.Idle fun entry => { entry with receipt := some receipt } :=
  ⟨fun _ => by constructor <;> rfl, fun _ _ => rfl, fun _ => rfl⟩

theorem moves_reissueReceipt {stamp : Timestamp} {key : KeyId} {ids : TransformationId → Prop}
    (hid : ids id) : Moves pol ids w (reissueReceipt id stamp key) s fun _ _ => True := by
  refine .bind (moves_self ?_)
  dsimp only
  split
  next => exact .pure trivial
  next row hrow =>
    have hid' : row.transformation = id := by
      simpa using List.find?_some hrow
    refine .ite (fun _ => .pure trivial) fun _ => ?_
    split
    next => exact .pure trivial
    next leaf hleaf =>
      split
      next m planned _ verdict _ _ _ =>
        refine .bind (moves_blobGet fun delta _ => .bind (moves_adapter fun _ => ?_))
        refine .bind (moves_measure hid fun observed s₁ he₁ _ _ => .bind (moves_self ?_))
        rw [hid']
        rw [← he₁] at hleaf
        refine .ite (fun _ => .pure trivial) fun hdigest => .bind (.orThrow fun proof _ => ?_)
        refine .bind (moves_issueOr fun receipt hreceipt => ?_)
        have hdigest' : receipt.payload.ledgerDigest = leaf.receiptDigest := by
          rw [hreceipt]
          exact not_not.mp hdigest
        refine .bind (moves_fileReceipt hid hleaf hdigest' ?_ fun s₂ he₂ => ?_)
        · rw [hreceipt]
          exact hid'
        · refine .bind (moves_idle hid (idle_receipt receipt) ?_ (.pure trivial))
          intro before issued heq
          obtain rfl := Option.some.inj heq
          rw [he₂]
          exact .inr ⟨leaf, hleaf, hdigest'⟩
      next => exact .pure trivial

end Engine

end Tracefold
