import Mathlib.Tactic.Common
import Tracefold.Mirror.Lifecycle

/-! Undo and the commit keep the tables what the journal says. -/

namespace Tracefold.Engine

open Library
open Std (ExtTreeMap)

variable [Canon]

variable {w : World} {s : Sys} {id original : TransformationId} {entry : Entry}

/-- The undo candidate that is planned again has nothing in its row of the journal that a plan
does not set. -/
def UndoesBlank (s : Sys) (original : TransformationId) : Prop :=
  ∀ entry inverse t, s.engine.table[original]? = some entry → Invertible s original inverse →
    Mints entry original inverse t → ∀ reason,
    sigmaState s.engine.records t.id = some (.aborted reason) →
    (rowOf t.id (s.engine.notes t.id)).Blank

theorem mirrors_undoable {Q : Entry → Sys → Prop} (h : Mirrored s.engine)
    (hQ : ∀ entry, s.engine.table[original]? = some entry → Q entry s) :
    Mirrors w (undoable original) s Q := by
  refine .bind (ends_self ?_)
  split
  next =>
    split
    next => exact ends_fail h
    next => exact ends_fail h
  next entry hentry =>
    exact .bind (ends_refuseIf (fun _ => h) fun _ => .bind (ends_refuseIf (fun _ => h) fun _ =>
      .pure (hQ entry hentry)))

theorem mirrors_undoInverse {Q : PlannedDelta → Sys → Prop} (h : Mirrored s.engine)
    (hQ : ∀ inverse, Invertible s original inverse → Q inverse s) :
    Mirrors w (undoInverse original) s Q := by
  refine .bind (ends_self (.bind (.orThrow (fun _ => h) fun row hrow => ?_)))
  split
  next => exact ends_fail h
  next => exact ends_fail h
  next hconsumed hpending =>
    refine .bind (.orThrow (fun _ => h) fun cid hcid => ends_blobGet h fun inverse hblob => ?_)
    obtain ⟨rfl, _⟩ := cid_of_blobOf hblob
    exact hQ inverse ⟨hblob, row, hrow, hcid, hpending, hconsumed⟩

theorem mirrors_undoWitnessed {witness : UndoWitness} {fp0 : Fingerprint} {Q : Unit → Sys → Prop}
    (h : Mirrored s.engine) (hQ : Q () s) : Mirrors w (undoWitnessed witness fp0) s Q := by
  unfold undoWitnessed
  split
  next => exact ends_refuseIf (fun _ => h) fun _ => hQ
  next => exact ends_fail h
  next => exact .pure hQ

theorem mirrors_draftUndo (hw : WritesLand w) {intentId : IntentId} {rngSeed : ℕ}
    {stamp : Timestamp} {Q : Unit → Sys → Prop} (h : Mirrored s.engine)
    (hQ : ∀ s', Mirrored s'.engine → (∀ t, s'.engine.notes t = s.engine.notes t) → Q () s') :
    Mirrors w (draftUndo intentId rngSeed stamp) s Q := by
  refine .bind (ends_self (.ite (fun _ => .pure (hQ s h fun _ => rfl)) fun _ => ?_))
  refine ends_recordThen hw (hQ _ (h.draft _ _ _) fun t => ?_)
  exact (notesOf_append t _ _).trans (List.append_nil _)

theorem size_of_blobOf {disk : Disk} {cid : Cid} {d : PlannedDelta} (h : blobOf disk cid = some d) :
    Canon.blobBytes d.substrate d.payload ≤ maxBlobBytes := by
  unfold blobOf at h
  split at h
  · split at h
    · cases h
    · next hsize =>
      simp only [Option.ite_none_right_eq_some, Option.some.injEq] at h
      obtain ⟨_, rfl⟩ := h
      exact Nat.not_lt.mp hsize
  · cases h

theorem mirrors_planUndo (hw : WritesLand w) {inverse : PlannedDelta} {t : Transformation}
    {fp0 : Fingerprint} {pre : ObjectSnapshot} {inputGeneration : BoundaryStage}
    {witness : UndoWitness} {stamp : Timestamp} {Q : Unit → Sys → Prop} (h : Mirrored s.engine)
    (hsize : Canon.blobBytes inverse.substrate inverse.payload ≤ maxBlobBytes)
    (hmints : Mints entry original inverse t) (hblank : (rowOf t.id (s.engine.notes t.id)).Blank)
    (hQ : ∀ s', Mirrored s'.engine → Q () s') :
    Mirrors w (planUndo (Canon.intent (undoIntent entry inverse)) t inverse fp0 pre
      inputGeneration witness stamp) s Q := by
  refine .bind (ends_noteThen hw (.bind (ends_blobPut hw hsize fun s₁ he₁ => ?_)))
  exact ends_update (hQ _ (mirrored_seated h hblank hmints.names rfl rfl rfl he₁))

theorem mirrors_undo (hw : WritesLand w) {witness : UndoWitness} {rngSeed : ℕ} {stamp : Timestamp}
    (h : Mirrored s.engine) (hblank : UndoesBlank s original) :
    Mirrors w (undo original witness rngSeed stamp) s fun _ s' => Mirrored s'.engine := by
  refine .bind (mirrors_undoable h fun entry hentry => ?_)
  refine .bind (mirrors_undoInverse h fun inverse hinverse => .bind (ends_adapter h fun _ => ?_))
  refine .bind (ends_queryOr h fun pre _ => .bind (ends_queryOr h fun fp0 _ => ?_))
  refine .bind (mirrors_undoWitnessed h (.bind (mirrors_draftUndo hw h fun s₁ h₁ hn₁ => ?_)))
  refine .bind (ends_self (.bind (.orThrow (fun _ => h₁) fun t ht => ?_)))
  have hnotes₁ : s₁.engine.notes t.id = s.engine.notes t.id := hn₁ t.id
  obtain ⟨hcid, hintent, hsubject, htarget, hdelta, hcontext, hactor, hparents⟩ :=
    Transformation.id_new ht
  have hmints : Mints entry original inverse t :=
    ⟨⟨rfl, hcid.symm, hintent, hdelta⟩, hparents, htarget, hsubject, hcontext, hactor⟩
  have hsize := size_of_blobOf hinverse.body
  have hplan : (rowOf t.id (s₁.engine.notes t.id)).Blank →
      Mirrors w (do
        planUndo (Canon.intent (undoIntent entry inverse)) t inverse fp0 pre
          (s₁.engine.joinedInputGeneration entry.delta.substrate entry.transformation.actor)
          witness stamp
        return (Canon.intent (undoIntent entry inverse), t.id)) s₁ fun _ s' => Mirrored s'.engine :=
    fun hrow => .bind (mirrors_planUndo hw h₁ hsize hmints hrow fun _ h' => .pure h')
  have habsent : s₁.engine.table[t.id]? = none → (rowOf t.id (s₁.engine.notes t.id)).Blank := by
    intro hnone
    have hrow := h₁.rows t.id
    rw [hnone] at hrow
    rw [rowOf_of_none hrow.symm]
    exact StateRow.blank_new _
  split
  next hnone =>
    refine hplan (habsent ?_)
    cases hlive : s₁.engine.table[t.id]? with
    | none => rfl
    | some e =>
      rw [undoState, hlive] at hnone
      cases hnone
  next =>
    refine .ite (fun _ => ?_) fun hnot => hplan (habsent (ExtTreeMap.getElem?_eq_none hnot))
    exact .bind (.bind (ends_self (ends_whenSome
      (fun _ _ => ends_refuseIf (fun _ => h₁) fun _ => .pure h₁) fun _ => .pure h₁)))
  next reason hstate =>
    refine hplan ?_
    cases hlive : s₁.engine.table[t.id]? with
    | none => exact habsent hlive
    | some e =>
      rw [undoState, hlive] at hstate
      rw [hnotes₁]
      refine hblank entry inverse t hentry hinverse hmints reason ?_
      rw [sigmaState_eq, ← state_rowOf t.id, ← show s₁.engine.notes t.id =
        notesOf t.id s.engine.records from hnotes₁, h₁.row hlive]
      exact hstate
  next => exact ends_fail h₁

/-- A commit is under way and the tables are what the journal says. -/
structure Working (s : Sys) (id : TransformationId) : Prop where
  mirrored : Mirrored s.engine
  live : ∃ now, s.engine.table[id]? = some now ∧ now.state = .committing

theorem Working.isSome (h : Working s id) : s.engine.table[id]?.isSome := by
  obtain ⟨now, hnow, _⟩ := h.live
  rw [hnow]
  rfl

theorem Working.of_engine {s' : Sys} (h : Working s id) (he : s'.engine = s.engine) :
    Working s' id := by
  refine ⟨?_, ?_⟩
  · rw [he]
    exact h.mirrored
  · rw [he]
    exact h.live

/-- A note that only its row shows, over a commit under way. -/
theorem Working.noteLive (h : Working s id) {n : Note} {t : Timestamp} {f : Entry → Entry}
    (hn : n.rowOnly = true) (hrow : ∀ e : Entry, (f e).stateRow id = (e.stateRow id).absorb n)
    (hbody : ∀ e : Entry, (f e).transformation = e.transformation ∧ (f e).intentId = e.intentId ∧
      (f e).delta = e.delta ∧ (f e).rollback = e.rollback ∧ (f e).state = e.state) :
    Working ((s.note id n t).live id f) id := by
  obtain ⟨now, hnow, hstate⟩ := h.live
  obtain ⟨ht, hi, hd, hr, hs⟩ := hbody now
  have hclean := h.mirrored.clean id now hnow
  refine ⟨h.mirrored.noteLive hn hnow (hclean.late ⟨ht, hi, hd⟩ (.inl ?_) ?_) (hrow now),
    ⟨f now, getElem?_modify_self hnow, hs.trans hstate⟩⟩
  · rw [hr]
    exact hclean.rollback_none (by rw [hstate]; nofun)
  · rw [hs, hstate]
    exact ⟨nofun, nofun⟩

theorem mirrors_measure {kind : SubstrateKind} {locator : String} {Q : Fingerprint → Sys → Prop}
    (h : Mirrored s.engine) (hQ : ∀ fp s', s'.engine = s.engine → Q fp s') :
    Mirrors w (measure kind locator) s Q :=
  .bind (ends_queryOr h fun _ _ => ends_queryOr h fun fp _ => hQ fp _ rfl)

theorem mirrors_casGuard (hw : WritesLand w) {stamp : Timestamp} {Q : Option Lifecycle → Sys → Prop}
    (h : Working s id) (hon : ∀ s', Working s' id → Q none s')
    (hstop : ∀ state s', Mirrored s'.engine → Q (some state) s') :
    Mirrors w (casGuard id entry stamp) s Q := by
  refine .bind (mirrors_measure h.mirrored fun fp s₁ he₁ => ?_)
  have h₁ := h.of_engine he₁
  split
  next => exact .pure (hon s₁ h₁)
  next => exact .bind (mirrors_abort hw h₁.mirrored h₁.isSome fun s' h' => .pure (hstop _ s' h'))
  next => exact .bind (mirrors_abort hw h₁.mirrored h₁.isSome fun s' h' => .pure (hstop _ s' h'))

theorem mirrors_readWorld {kind : SubstrateKind} {locator : String}
    {Q : Option Fingerprint → Sys → Prop} (hQ : ∀ fp s', s'.engine = s.engine → Q fp s') :
    Mirrors w (readWorld kind locator) s Q := by
  refine .bind (ends_query ?_)
  split
  next => exact .pure (hQ _ _ rfl)
  next =>
    refine .bind (ends_query ?_)
    split
    next => exact .pure (hQ _ _ rfl)
    next => exact .pure (hQ _ _ rfl)

theorem mirrors_announceApply (hw : WritesLand w) {kind : SubstrateKind} {delta : PlannedDelta}
    {stamp : Timestamp} {Q : Except String AppliedDelta → Sys → Prop} (h : Working s id)
    (hQ : ∀ answer s', Working s' id → Q answer s') :
    Mirrors w (announceApply id kind delta stamp) s Q := by
  refine .bind (ends_noteThen hw ?_)
  have h₁ : Working ((s.note id (.applyStarted delta.cid) stamp).live id fun e =>
      { e with applyStarted := some delta.cid }) id :=
    h.noteLive rfl (fun _ => rfl) fun _ => ⟨rfl, rfl, rfl, rfl, rfl⟩
  refine .bind (.ask (.bind (.get ?_)))
  rw [hw]
  exact .bind (.modify (.pure (hQ _ _ (h₁.of_engine rfl))))

theorem mirrors_notAttempted {why : NotAttemptedBecause} {Q : Rollback → Sys → Prop}
    (h : Working s id) (hQ : ∀ s', Working s' id → Q .notAttempted s') :
    Mirrors w (notAttempted id why) s Q := by
  have hm := h.mirrored
  refine .bind (ends_update (.pure (hQ _ ⟨?_, h.live⟩)))
  exact ⟨hm.drafts, hm.rows, hm.shadow, hm.resolved, hm.escrow, hm.held, hm.committed, hm.clean,
    hm.head⟩

theorem mirrors_compensate (hw : WritesLand w) {escrowed : Option Escrowed} {stamp : Timestamp}
    {Q : Rollback → Sys → Prop} (h : Working s id) (hQ : ∀ v s', Working s' id → Q v s') :
    Mirrors w (compensate id entry escrowed stamp) s Q := by
  have hnot : ∀ {why s₁}, s₁.engine = s.engine →
      Mirrors w (notAttempted id why) s₁ Q :=
    fun he => mirrors_notAttempted (h.of_engine he) fun s' h' => hQ _ s' h'
  unfold compensate
  split
  next => exact hnot rfl
  next => exact hnot rfl
  next =>
    refine .bind (.bind (mirrors_readWorld fun fp s₁ he₁ => ?_))
    split
    next => exact .pure (hnot he₁)
    next =>
      split
      next => exact .pure (hnot he₁)
      next =>
        refine .pure (.bind (.bind (mirrors_readWorld fun fp' s₂ he₂ => ?_)))
        have he := he₂.trans he₁
        split
        next => exact .pure (hnot he)
        next =>
          refine .pure ?_
          split
          next => exact hnot he
          next => exact hnot he
          next =>
            refine .bind (mirrors_announceApply hw (h.of_engine he) fun answer s₃ h₃ => ?_)
            split
            next =>
              refine .bind (mirrors_readWorld fun fp₃ s₄ he₄ => ?_)
              have h₄ := h₃.of_engine he₄
              split
              next => exact .pure (hQ _ _ h₄)
              next =>
                split
                next => exact .pure (hQ _ _ h₄)
                next => exact .pure (hQ _ _ h₄)
                next => exact .pure (hQ _ _ h₄)
            next => exact .pure (hQ _ _ h₃)
      next => exact .pure (hnot he₁)

theorem Working.live_row (h : Working s id) {f : Entry → Entry}
    (hf : ∀ e : Entry, (f e).stateRow id = e.stateRow id ∧ (e.Clean id → (f e).Clean id))
    (hstate : ∀ e : Entry, (f e).state = e.state) : Working (s.live id f) id := by
  obtain ⟨now, hnow, hcommitting⟩ := h.live
  refine ⟨h.mirrored.live hf, f now, getElem?_modify_self hnow, ?_⟩
  rw [hstate, hcommitting]

theorem clean_inverseCid (o : Option Cid) (e : Entry) :
    ({ e with inverseCid := o } : Entry).stateRow id = e.stateRow id ∧
      (e.Clean id → ({ e with inverseCid := o } : Entry).Clean id) :=
  ⟨rfl, fun h => ⟨h.names, h.rollback, h.unruled, h.blank⟩⟩

/-- A note about the escrow, and the row of the escrow held with it. -/
theorem Working.escrowed (h : Working s id) {n : Note} {t : Timestamp} {row : EscrowRow} {s₁ : Sys}
    (he : s₁.engine = (s.note id n t).engine)
    (hrow : ∀ held, EscrowRow.absorb held id n = some row)
    (hstate : ∀ r : StateRow, r.absorb n = r) (hseq : ∀ held, committedSeq held n = held) :
    Working (s₁.withEngine fun e => { e with escrow := e.escrow.insert id row }) id := by
  obtain ⟨now, hnow, hcommitting⟩ := h.live
  have hm := h.mirrored
  refine ⟨?_, now, ?_, hcommitting⟩
  · refine hm.noted (n := n) (t := t) ?_ ?_ (fun other _ => ?_) ⟨now, ?_, hm.clean id now hnow, ?_⟩
      (fun other hsome hne => ?_) (fun i other hmem => ?_) (fun other => ?_)
      (fun other held hheld => ?_) (fun other => ?_) ?_
    · rw [Sys.withEngine, he]
      rfl
    · rw [Sys.withEngine, he]
      rfl
    · rw [Sys.withEngine, he]
      rfl
    · rw [Sys.withEngine, he]
      exact hnow
    · rw [hm.row hnow, hstate]
    · rw [Sys.withEngine, he] at hsome
      rw [← show (s.engine.shadow.fold (.about id n t)).rows[other]? = _ from
        (SigmaShadow.rows_fold s.engine.shadow id n t other).trans (if_neg hne)]
      exact hsome
    · rw [Sys.withEngine, he] at hmem
      exact .inr hmem
    · rw [Sys.withEngine, he]
      exact SigmaShadow.escrow_fold s.engine.shadow id n t other
    · rw [Sys.withEngine, he] at hheld ⊢
      refine (SigmaShadow.escrow_fold s.engine.shadow id n t other).trans ?_
      by_cases hne : id = other
      · subst hne
        rw [if_pos rfl, hrow]
        exact ExtTreeMap.getElem?_insert_self.symm.trans hheld
      · rw [if_neg hne, hm.escrow]
        exact hm.held other held
          ((ExtTreeMap.getElem?_insert.trans (if_neg (by simpa using hne))).symm.trans hheld)
    · rw [Sys.withEngine, he, hseq]
      by_cases hne : id = other
      · subst hne
        rw [if_pos rfl]
        rfl
      · rw [if_neg hne]
        rfl
    · rw [Sys.withEngine, he]
      exact ⟨rfl, rfl, rfl⟩
  · rw [Sys.withEngine, he]
    exact hnow

theorem mirrors_escrowInverse (hw : WritesLand w) {outcome : InvertOutcome} {stamp : Timestamp}
    {Q : Option Escrowed → Sys → Prop} (h : Working s id)
    (hsize : ∀ d, outcome.inverse = some d →
      Canon.blobBytes d.substrate d.payload ≤ maxBlobBytes)
    (hQ : ∀ escrowed s', Working s' id → Q escrowed s') :
    Mirrors w (escrowInverse id entry outcome stamp) s Q := by
  have hrow : ∀ pending, (pending = true → outcome.inverse.isSome) → ∀ held,
      EscrowRow.absorb held id (.inverseEscrowed (escrowBody outcome pending)) =
        some (escrowRow id outcome pending) := fun pending hpending held =>
    (escrowOf?_append id [] _).symm.trans (escrowOf?_escrowBody id [] outcome pending hpending)
  unfold escrowInverse
  split
  next inverse hinverse =>
    have hneeds : ∀ pending s₁, s₁.engine = s.engine → Mirrors w (do
        noteThen id (.inverseEscrowed (escrowBody outcome pending)) stamp fun e => e
        blobPut inverse
        insertEscrow id (escrowRow id outcome pending)
        modifyEntry id fun entry => { entry with inverseCid := some inverse.cid }
        return some ⟨inverse, pending⟩) s₁ Q := by
      intro pending s₁ he₁
      refine .bind (ends_noteThen hw (.bind (ends_blobPut hw (hsize inverse hinverse) ?_)))
      intro s₂ he₂
      have h₂ := (h.of_engine he₁).escrowed he₂ (hrow pending fun _ => by rw [hinverse]; rfl)
        (fun _ => rfl) fun _ => rfl
      refine .bind (ends_update (.bind (ends_modifyEntry (.pure (hQ _ _ ?_)))))
      exact h₂.live_row (clean_inverseCid _) fun _ => rfl
    refine .bind (.bind (ends_self (.ite (fun _ => ?_) fun _ => .pure (hneeds false s rfl))))
    exact ends_queryOr h.mirrored fun pending _ => hneeds pending _ rfl
  next =>
    refine .bind (ends_noteThen hw (.bind (ends_update (.pure (hQ _ _ ?_)))))
    exact h.escrowed rfl (hrow false nofun) (fun _ => rfl) fun _ => rfl

theorem mirrors_requireBody {escrowed : Option Escrowed} {Q : Unit → Sys → Prop}
    (h : Mirrored s.engine) (hQ : Q () s) : Mirrors w (requireBody escrowed) s Q :=
  ends_whenSome (fun _ _ => .bind (.get (ends_refuseIf (fun _ => h) fun _ => hQ))) fun _ => hQ

theorem mirrors_recordObservation (hw : WritesLand w) {bytes : Bytes} {stamp : Timestamp}
    {Q : Unit → Sys → Prop} (h : Working s id) (hQ : ∀ s', Working s' id → Q () s') :
    Mirrors w (recordObservation id bytes stamp) s Q := by
  have hseated : ∀ s₁ : Sys, s₁.engine =
      (s.note id (.applyObserved (Canon.observation bytes)) stamp).engine →
      Working (s₁.live id fun entry =>
        { entry with observationCid := some (Canon.observation bytes) }) id := by
    intro s₁ he₁
    have h₁ : Working ((s.note id (.applyObserved (Canon.observation bytes)) stamp).live id
        fun entry => { entry with observationCid := some (Canon.observation bytes) }) id :=
      h.noteLive rfl (fun _ => rfl) fun _ => ⟨rfl, rfl, rfl, rfl, rfl⟩
    refine h₁.of_engine ?_
    exact congrArg (onEntry id _) he₁
  refine .bind (ends_noteThen hw (.bind (.bind (.get (.ite (fun _ => ?_) fun _ => ?_)))))
  · exact .pure (ends_modifyEntry (hQ _ (hseated _ rfl)))
  · exact ends_durable hw (ends_modifyEntry (hQ _ (hseated _ rfl)))

theorem mirrors_completedInverse (hb : BodiesFit w) {partialInverse : Option PlannedDelta}
    {observation : Option Bytes} {Q : Option PlannedDelta → Sys → Prop}
    (hQ : ∀ full s', s'.engine = s.engine →
      (∀ d, full = some d → Canon.blobBytes d.substrate d.payload ≤ maxBlobBytes) → Q full s') :
    Mirrors w (completedInverse partialInverse observation) s Q := by
  have hnone : Mirrors w (pure none) s Q := .pure (hQ none s rfl nofun)
  unfold completedInverse
  split
  next inverse bytes =>
    refine .bind (ends_self (.ite (fun _ => .bind (ends_query ?_)) fun _ => hnone))
    split
    next full hfull =>
      exact .pure (hQ full _ rfl fun d hd =>
        hb.completed _ _ _ d (hfull.trans (congrArg Except.ok hd)))
    next => exact .pure (hQ none _ rfl nofun)
  next => exact hnone

theorem mirrors_settlePendingEscrow (hw : WritesLand w) (hb : BodiesFit w)
    {partialInverse : Option PlannedDelta} {observation : Option Bytes} {stamp : Timestamp}
    {Q : Option Cid → Sys → Prop} (h : Working s id) (hQ : ∀ inverse s', Working s' id → Q inverse s') :
    Mirrors w (settlePendingEscrow id partialInverse observation stamp) s Q := by
  refine .bind (mirrors_completedInverse hb fun full s₁ he₁ hsize => ?_)
  have h₁ := h.of_engine he₁
  split
  next full =>
    refine .bind (ends_noteThen hw (.bind (ends_blobPut hw (hsize full rfl) fun s₂ he₂ => ?_)))
    have h₂ : Working (s₂.withEngine fun e =>
        { e with escrow := e.escrow.insert id ⟨id, some full.cid, .available⟩ }) id :=
      h₁.escrowed he₂ (fun _ => rfl) (fun _ => rfl) fun _ => rfl
    refine .bind (ends_update (.bind (ends_modifyEntry (.pure (hQ _ _ ?_)))))
    exact h₂.live_row (clean_inverseCid _) fun _ => rfl
  next =>
    have h₂ : Working ((s₁.note id (.inverseCompleted none) stamp).withEngine fun e =>
        { e with escrow := e.escrow.insert id ⟨id, none, .unavailable⟩ }) id :=
      h₁.escrowed rfl (fun _ => rfl) (fun _ => rfl) fun _ => rfl
    refine .bind (ends_noteThen hw (.bind (ends_update (.bind (ends_modifyEntry ?_)))))
    exact .pure (hQ _ _ (h₂.live_row (clean_inverseCid _) fun _ => rfl))

theorem mirrors_finalInverse (hw : WritesLand w) (hb : BodiesFit w) {escrowed : Option Escrowed}
    {applied : AppliedDelta} {stamp : Timestamp} {Q : Option Cid → Sys → Prop} (h : Working s id)
    (hQ : ∀ inverse s', Working s' id → Q inverse s') :
    Mirrors w (finalInverse id escrowed applied stamp) s Q := by
  unfold finalInverse
  split
  next => exact .pure (hQ _ s h)
  next => exact .pure (hQ _ s h)
  next =>
    split
    next => exact mirrors_settlePendingEscrow hw hb h hQ
    next =>
      refine .ite (fun _ => ?_) fun _ => mirrors_settlePendingEscrow hw hb h hQ
      exact .bind (mirrors_recordObservation hw h fun _ h₁ => mirrors_settlePendingEscrow hw hb h₁ hQ)

theorem rootAt_isSome {ledger : List LedgerEntry} (h : ledger ≠ []) :
    (rootAt ledger ledger.length).isSome := by
  rw [rootAt, if_neg (by simp [h]), List.take_length]
  exact mth_isSome (by simpa using h)

theorem ends_recordHead (hw : WritesLand w) {key : KeyId} {E : Sys → Prop} {Q : Unit → Sys → Prop}
    (hhead : s.engine.rolledBack = true ∨ ∀ floor, s.engine.headFloor = some floor →
      floor.treeSize ≤ s.engine.ledger.length ∧
        (0 < floor.treeSize → rootAt s.engine.ledger floor.treeSize = some floor.rootHash))
    (hkept : Q () s)
    (hwritten : ∀ floor s', s'.engine = { s.engine with headFloor := some floor } →
      floor.treeSize = s.engine.ledger.length →
      rootAt s.engine.ledger floor.treeSize = some floor.rootHash → Q () s') :
    Prog.Ends w (recordHead key) s E Q := by
  refine .bind (ends_self (.ite (fun _ => .pure hkept) fun hkeeps => ?_))
  refine .ite (fun _ => .pure hkept) fun _ => .ite (fun _ => .pure hkept) fun hnonempty => ?_
  have hne : s.engine.ledger ≠ [] := fun hnil => hnonempty (congrArg List.length hnil)
  have hwrite : Prog.Ends w (recordHead.writeHead key s.engine s.engine.ledger.length
      (rootAt s.engine.ledger s.engine.ledger.length)) s E Q := by
    refine .bind (.orThrow (fun hnone => ?_) fun root hroot => ends_durable hw ?_)
    · have hsome := rootAt_isSome hne
      rw [hnone] at hsome
      cases hsome
    · exact hwritten ⟨_, root, _, _⟩ _ rfl rfl hroot
  dsimp only
  split
  next floor hfloor =>
    refine .ite (fun _ => .pure hkept) fun _ => .ite (fun hsize => ?_) fun _ => hwrite
    refine .ite (fun _ => .pure hkept) fun hroot => ?_
    rcases hhead with hrolled | hhead
    · rw [hrolled, Bool.or_true] at hkeeps
      exact absurd rfl hkeeps
    · have hpos : 0 < floor.treeSize := by omega
      rw [hsize] at hroot
      exact absurd ((hhead floor hfloor).2 hpos) hroot
  next => exact hwrite

theorem mirrored_headed {e : Engine} (h : Mirrored e) {floor : HeadFloor}
    (hsize : floor.treeSize = e.ledger.length)
    (hroot : rootAt e.ledger floor.treeSize = some floor.rootHash) :
    Mirrored { e with headFloor := some floor } where
  drafts := h.drafts
  rows := h.rows
  shadow := h.shadow
  resolved := h.resolved
  escrow := h.escrow
  held := h.held
  committed := h.committed
  clean := h.clean
  head := by
    refine .inr fun floor' hfloor => ?_
    cases hfloor
    exact ⟨hsize.le, fun _ => hroot⟩

theorem mirrored_leafed {e : Engine} (h : Mirrored e) (leaf : LedgerEntry) :
    Mirrored { e with ledger := e.ledger ++ [leaf] } where
  drafts := h.drafts
  rows := h.rows
  shadow := h.shadow
  resolved := h.resolved
  escrow := h.escrow
  held := h.held
  committed := h.committed
  clean := h.clean
  head := by
    rcases h.head with hrolled | hhead
    · exact .inl hrolled
    · refine .inr fun floor hfloor => ?_
      obtain ⟨hsize, hroot⟩ := hhead floor hfloor
      refine ⟨hsize.trans (by simp), fun hpos => ?_⟩
      rw [rootAt_append hsize, hroot hpos]

theorem mirrors_ledgerAppend (hw : WritesLand w) {digest : Cid} {stamp : Timestamp}
    {Q : LedgerEntry → Sys → Prop} (h : Working s id)
    (hQ : ∀ leaf s', Working s' id → Q leaf s') :
    Mirrors w (ledgerAppend id digest stamp) s Q := by
  refine .bind (ends_self ?_)
  split
  next => exact .ite (fun _ => .pure (hQ _ s h)) fun _ => ends_fail h.mirrored
  next => exact .bind (ends_durable hw (.pure (hQ _ _ ⟨mirrored_leafed h.mirrored _, h.live⟩)))

theorem mirrors_issueOr {action : String} {payload : ReceiptPayload} {stamp : Timestamp}
    {key : KeyId} {Q : Receipt → Sys → Prop} (h : Mirrored s.engine) (hQ : ∀ r, Q r s) :
    Mirrors w (issueOr action payload stamp key) s Q := by
  unfold issueOr
  split
  next r _ => exact .pure (hQ r)
  next => exact ends_fail h

theorem mirrors_fileReceipt (hw : WritesLand w) {receipt : Receipt} {Q : Unit → Sys → Prop}
    (hQ : ∀ s', s'.engine = s.engine → Q () s') : Mirrors w (fileReceipt id receipt) s Q := by
  refine .bind (ends_self ?_)
  split
  next => exact .pure (hQ s rfl)
  next => exact ends_durable hw (hQ _ rfl)

theorem Working.committed (h : Working s id) (leaf : LedgerEntry) (stamp : Timestamp)
    (receipt : Receipt) :
    Mirrored (((s.note id (.committed leaf.index) stamp).withEngine fun e =>
      { e with committed := e.committed.insert id leaf.index }).live id fun entry =>
        Entry.at .committed stamp
          { entry with appliedAt := some stamp, receipt := some receipt }).engine := by
  obtain ⟨now, hnow, hcommitting⟩ := h.live
  have hm := h.mirrored
  have hclean := hm.clean id now hnow
  have hrollback := hclean.rollback_none (by rw [hcommitting]; nofun)
  refine hm.noted (n := .committed leaf.index) (t := stamp) rfl rfl
    (fun other hne => getElem?_modify_ne hne)
    ⟨_, getElem?_modify_self hnow, hclean.late ⟨rfl, rfl, rfl⟩ (.inl hrollback) ⟨nofun, nofun⟩, ?_⟩
    (fun other hsome hne => ?_) (fun _ _ hmem => .inr hmem)
    (fun other => SigmaShadow.escrow_fold s.engine.shadow id _ stamp other)
    (fun other row hrow => ?_) (fun other => ?_) ⟨rfl, rfl, rfl⟩
  · rw [hm.row hnow]
    rfl
  · rw [← show (s.engine.shadow.fold (.about id (.committed leaf.index) stamp)).rows[other]? = _ from
      (SigmaShadow.rows_fold s.engine.shadow id _ stamp other).trans (if_neg hne)]
    exact hsome
  · refine (SigmaShadow.escrow_fold s.engine.shadow id _ stamp other).trans ?_
    have hheld := hm.held other row hrow
    rw [← hm.escrow] at hheld
    by_cases hne : id = other
    · subst hne
      rw [if_pos rfl]
      exact hheld
    · rw [if_neg hne, hheld]
  · refine ExtTreeMap.getElem?_insert.trans ?_
    by_cases hne : id = other
    · subst hne
      rw [if_pos rfl, if_pos (by simp)]
      rfl
    · rw [if_neg hne, if_neg (by simpa using hne)]
      rfl

theorem mirrored_superseded (h : Mirrored s.engine) {by_ : TransformationId}
    (horiginal : supersededOriginal s.engine by_ = some original) (stamp : Timestamp) :
    Mirrored ((s.note original (.superseded by_) stamp).withEngine fun e =>
      onEntry original
        (fun entry => Entry.at .superseded stamp { entry with supersededBy := some by_ })
        { e with
          supersedes := e.supersedes.insertIfNew original by_
          escrow := e.escrow.modify original fun row => { row with status := .consumed by_ } }).engine := by
  obtain ⟨_, entry, _, _, hentry, _, _, hcommitted, _⟩ := supersededOriginal_spec horiginal
  have hclean := h.clean original entry hentry
  have hrollback := hclean.rollback_none (by rw [hcommitted]; nofun)
  refine h.noted (n := .superseded by_) (t := stamp) rfl rfl
    (fun other hne => getElem?_modify_ne hne)
    ⟨_, getElem?_modify_self hentry, hclean.late ⟨rfl, rfl, rfl⟩ (.inl hrollback) ⟨nofun, nofun⟩, ?_⟩
    (fun other hsome hne => ?_) (fun _ _ hmem => .inr hmem)
    (fun other => SigmaShadow.escrow_fold s.engine.shadow original _ stamp other)
    (fun other row hrow => ?_) (fun other => ?_) ⟨rfl, rfl, rfl⟩
  · rw [h.row hentry]
    rfl
  · rw [← show (s.engine.shadow.fold (.about original (.superseded by_) stamp)).rows[other]? = _ from
      (SigmaShadow.rows_fold s.engine.shadow original _ stamp other).trans (if_neg hne)]
    exact hsome
  · refine (SigmaShadow.escrow_fold s.engine.shadow original _ stamp other).trans ?_
    by_cases hne : original = other
    · subst hne
      have hrow' : s.engine.escrow[original]?.map
          (fun row => { row with status := .consumed by_ }) = some row := by
        rw [← ExtTreeMap.getElem?_modify_self]
        exact hrow
      obtain ⟨before, hbefore, rfl⟩ := Option.map_eq_some_iff.mp hrow'
      rw [if_pos rfl, h.escrow, h.held original before hbefore]
      rfl
    · rw [if_neg hne, h.escrow]
      exact h.held other row ((getElem?_modify_ne hne).symm.trans hrow)
  · by_cases hne : original = other
    · subst hne
      rw [if_pos rfl]
      rfl
    · rw [if_neg hne]
      rfl

theorem mirrors_supersedeAfterCommit (hw : WritesLand w) {stamp : Timestamp}
    {Q : Option TransformationId → Sys → Prop} (h : Mirrored s.engine)
    (hQ : ∀ o s', Mirrored s'.engine → Q o s') :
    Mirrors w (supersedeAfterCommit id stamp) s Q := by
  refine .bind (ends_self ?_)
  split
  next => exact .pure (hQ _ s h)
  next original horiginal =>
    exact .bind (ends_noteThen hw (.pure (hQ _ _ (mirrored_superseded h horiginal stamp))))

theorem mirrors_closeCommit (hw : WritesLand w) {facts : CommitFacts} {stamp : Timestamp}
    {key : KeyId} (h : Working s id) :
    Mirrors w (closeCommit id facts stamp key) s fun _ s' => Mirrored s'.engine := by
  refine .bind (mirrors_ledgerAppend hw h fun leaf s₁ h₁ => .bind (ends_self ?_))
  refine .bind (.orThrow (fun _ => h₁.mirrored) fun proof _ => ?_)
  refine .bind (mirrors_issueOr h₁.mirrored fun receipt => ?_)
  refine .bind (mirrors_fileReceipt hw fun s₂ he₂ => .bind (ends_noteThen hw ?_))
  have hclosed := (h₁.of_engine he₂).committed leaf stamp receipt
  have hclose : ∀ s₃ : Sys, Mirrored (s₃.live id fun entry => Entry.at .committed stamp
      { entry with appliedAt := some stamp, receipt := some receipt }).engine → Mirrors w (do
      modifyEntry id fun entry => Entry.at .committed stamp
        { entry with appliedAt := some stamp, receipt := some receipt }
      let _ ← supersedeAfterCommit id stamp
      return Lifecycle.committed) s₃ fun _ s' => Mirrored s'.engine := by
    intro s₃ h₃
    exact .bind (ends_modifyEntry (.bind (mirrors_supersedeAfterCommit hw h₃
      fun _ _ h' => .pure h')))
  refine .bind (ends_recordHead hw hclosed.head (hclose _ hclosed) ?_)
  intro floor s₃ he₃ hsize hroot
  refine hclose s₃ ?_
  rw [show (s₃.live id _).engine = onEntry id _ s₃.engine from rfl, he₃]
  exact mirrored_headed hclosed hsize hroot

theorem mirrors_settleApplied (hw : WritesLand w) (hb : BodiesFit w) {canonicalCid : Cid}
    {verdict : Option VerdictSummary} {outcome : InvertOutcome} {escrowed : Option Escrowed}
    {applied : AppliedDelta} {stamp : Timestamp} {key : KeyId} (h : Working s id) :
    Mirrors w (settleApplied id entry canonicalCid verdict outcome escrowed applied stamp key) s
      fun _ s' => Mirrored s'.engine := by
  refine .bind (mirrors_finalInverse hw hb h fun inverse s₁ h₁ => ?_)
  refine .bind (mirrors_entryOf h₁.mirrored fun live _ => .ite (fun _ => ?_) fun _ => ?_)
  · exact .bind (mirrors_notAttempted h₁ fun s₂ h₂ =>
      mirrors_abort hw h₂.mirrored h₂.isSome fun _ h' => h')
  · exact .bind (ends_self (mirrors_closeCommit hw h₁))

theorem mirrors_commitEscrow (hw : WritesLand w) (hb : BodiesFit w) {canonicalCid : Cid}
    {verdict : Option VerdictSummary} {stamp : Timestamp} {key : KeyId} (h : Working s id) :
    Mirrors w (commitEscrow id entry canonicalCid verdict stamp key) s
      fun _ s' => Mirrored s'.engine := by
  refine .bind (ends_queryOr h.mirrored fun outcome houtcome => ?_)
  have hsize := fun d hd => hb.inverted _ _ _ _ outcome d houtcome hd
  refine .bind (mirrors_escrowInverse hw (h.of_engine rfl) hsize fun escrowed s₁ h₁ => ?_)
  refine .bind (mirrors_requireBody h₁.mirrored (.bind (mirrors_casGuard hw h₁ ?_ ?_)))
  · intro s₂ h₂
    refine .bind (mirrors_announceApply hw h₂ fun answer s₃ h₃ => ?_)
    split
    next =>
      exact .bind (mirrors_compensate hw h₃ fun _ _ h₄ =>
        mirrors_abort hw h₄.mirrored h₄.isSome fun _ h' => h')
    next => exact mirrors_settleApplied hw hb h₃
  · intro state s' h'
    exact .pure h'

theorem mirrors_startCommitting (hw : WritesLand w) {stamp : Timestamp} {Q : Unit → Sys → Prop}
    (h : Mirrored s.engine) (hentry : s.engine.table[id]? = some entry)
    (hstate : entry.state = .canonicalized) (hQ : ∀ s', Working s' id → Q () s') :
    Mirrors w (startCommitting id entry stamp) s Q := by
  have hclean := h.clean id entry hentry
  have hrollback := hclean.rollback_none (by rw [hstate]; nofun)
  have hclean₁ : (Entry.at .committing stamp entry).Clean id :=
    hclean.late ⟨rfl, rfl, rfl⟩ (.inl hrollback) ⟨nofun, nofun⟩
  have hlive := getElem?_modify_self (g := Entry.at .committing stamp) hentry
  refine .bind (ends_appendThen hw (.bind (ends_self (ends_appendThen hw (hQ _ ?_)))))
  have h₁ := h.appendLive (f := Entry.at .committing stamp) (t := stamp) (n := .committingStarted)
    rfl hentry hclean₁ rfl
  refine ⟨?_, _, getElem?_modify_self hlive, rfl⟩
  exact h₁.appendLive rfl hlive
    (hclean₁.late ⟨rfl, rfl, rfl⟩ (.inl hrollback) ⟨nofun, nofun⟩) rfl

theorem mirrors_commit (hw : WritesLand w) (hb : BodiesFit w) {stamp : Timestamp} {key : KeyId}
    (h : Mirrored s.engine) :
    Mirrors w (commit id stamp key) s fun _ s' => Mirrored s'.engine := by
  refine .bind (mirrors_expireIfDue hw h fun _ s₁ h₁ => ?_)
  refine .bind (mirrors_entryOf h₁ fun entry hentry => ?_)
  split
  next => exact .pure h₁
  next => exact .pure h₁
  next hstate =>
    refine .bind (.orThrow (fun _ => h₁) fun canonicalCid _ => ?_)
    refine .bind (.orThrow (fun _ => h₁) fun verdict _ => .bind (ends_adapter h₁ fun _ => ?_))
    refine .bind (mirrors_startCommitting hw h₁ hentry hstate fun s₂ h₂ => ?_)
    refine .bind (mirrors_casGuard hw h₂ ?_ ?_)
    · intro s₃ h₃
      exact mirrors_commitEscrow hw hb h₃
    · intro state s' h'
      exact .pure h'
  next => exact ends_fail h₁

end Tracefold.Engine
