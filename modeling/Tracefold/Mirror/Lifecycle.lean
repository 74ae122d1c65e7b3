import Mathlib.Tactic.Common
import Tracefold.Mirror

/-! The operations before a commit keep the tables what the journal says. -/

namespace Tracefold.Engine

open Library
open Std (ExtTreeMap)

variable [Canon]

/-- The program leaves tables that are what the journal says, and an answer satisfies `Q`. -/
abbrev Mirrors {α : Type} (w : World) (x : M α) (s : Sys) (Q : α → Sys → Prop) : Prop :=
  Prog.Ends w x s (fun s => Mirrored s.engine) Q

variable {w : World} {s : Sys} {id : TransformationId}

theorem mirrors_submit (hw : WritesLand w) {intent : Intent} {rngSeed : ℕ} {stamp : Timestamp}
    (h : Mirrored s.engine) :
    Mirrors w (submit intent rngSeed stamp) s fun _ s' => Mirrored s'.engine := by
  refine .bind (ends_self (.ite (fun _ => .pure h) fun _ => ?_))
  exact .bind (ends_recordThen hw (.pure (h.draft _ _ _)))

theorem mirrors_abort (hw : WritesLand w) {reason : AbortReason} {rollback : Option Rollback}
    {stamp : Timestamp} {Q : Lifecycle → Sys → Prop} (h : Mirrored s.engine)
    (hsome : s.engine.table[id]?.isSome)
    (hQ : ∀ s', Mirrored s'.engine → Q (.aborted reason) s') :
    Mirrors w (abort id reason rollback stamp) s Q := by
  obtain ⟨entry, hentry⟩ := Option.isSome_iff_exists.mp hsome
  have hclean := h.clean id entry hentry
  refine .bind (ends_noteThen hw (.pure (hQ _ ?_)))
  refine h.noteLive rfl hentry ⟨hclean.names, .inr ⟨reason, rfl⟩, ?_, nofun⟩ rfl
  rintro (hstate | hstate) <;> cases hstate

theorem mirrors_expireIfDue (hw : WritesLand w) {now : Timestamp} {Q : Bool → Sys → Prop}
    (h : Mirrored s.engine) (hQ : ∀ due s', Mirrored s'.engine → Q due s') :
    Mirrors w (expireIfDue id now) s Q := by
  refine .bind (ends_self ?_)
  split
  next => exact .pure (hQ false s h)
  next due hdue =>
    refine .ite (fun _ => .pure (hQ false s h)) fun _ => .bind (mirrors_abort hw h ?_ ?_)
    · cases hentry : s.engine.table[id]? with
      | some entry => rfl
      | none =>
        rw [deadline, hentry] at hdue
        obtain ⟨state, hstate, _⟩ := Option.bind_eq_some_iff.mp hdue
        obtain ⟨row, hrow, _⟩ := Option.bind_eq_some_iff.mp hstate
        have hsome := h.shadow id (by rw [hrow]; rfl)
        rw [hentry] at hsome
        cases hsome
    · exact fun s' h' => .pure (hQ true s' h')

theorem mirrors_reapEach (hw : WritesLand w) {now : Timestamp} {ids : List TransformationId}
    {Q : List TransformationId → Sys → Prop} (h : Mirrored s.engine)
    (hQ : ∀ out s', Mirrored s'.engine → Q out s') : Mirrors w (reapEach now ids) s Q := by
  induction ids generalizing s Q with
  | nil => exact .pure (hQ [] s h)
  | cons id rest ih =>
    refine .bind (mirrors_expireIfDue hw h fun due s₁ h₁ => ?_)
    exact .bind (ih h₁ fun out s₂ h₂ => .pure (hQ _ s₂ h₂))

theorem mirrors_reap (hw : WritesLand w) {now : Timestamp} (h : Mirrored s.engine) :
    Mirrors w (reap now) s fun _ s' => Mirrored s'.engine :=
  .bind (ends_self (.bind (mirrors_reapEach hw h fun _ _ h' => .pure h')))

theorem mirrors_entryOf {Q : Entry → Sys → Prop} (h : Mirrored s.engine)
    (hQ : ∀ entry, s.engine.table[id]? = some entry → Q entry s) :
    Mirrors w (entryOf id) s Q :=
  .bind (ends_self (.orThrow (fun _ => h) hQ))

theorem mirrors_cancel (hw : WritesLand w) {stamp : Timestamp} (h : Mirrored s.engine) :
    Mirrors w (cancel id stamp) s fun _ s' => Mirrored s'.engine := by
  refine .bind (mirrors_expireIfDue hw h fun _ s₁ h₁ => ?_)
  refine .bind (mirrors_entryOf h₁ fun entry hentry => ?_)
  have habort : Mirrors w (abort id .ownerCancelled none stamp) s₁ fun _ s' => Mirrored s'.engine :=
    mirrors_abort hw h₁ (by rw [hentry]; rfl) fun _ h' => h'
  split
  next => exact .pure h₁
  next => exact habort
  next => exact habort
  next => exact habort
  next => exact habort
  next => exact habort
  next => exact ends_fail h₁

theorem mirrors_issueVerdictReceipt {verdict : Option VerdictSummary} {stamp : Timestamp}
    {key : KeyId} {Q : Unit → Sys → Prop} (h : Mirrored s.engine)
    (hQ : ∀ s', Mirrored s'.engine → Q () s') :
    Mirrors w (issueVerdictReceipt id verdict stamp key) s Q := by
  refine .bind (ends_self ?_)
  split
  next => exact .pure (hQ s h)
  next =>
    dsimp only
    split
    next => exact ends_fail h
    next =>
      exact ends_update (hQ _ ⟨h.drafts, h.rows, h.shadow, h.resolved, h.escrow, h.held,
        h.committed, h.clean, h.head⟩)

theorem mirrors_escalation (hw : WritesLand w) {ruling : HumanRuling} {stamp : Timestamp}
    {key : KeyId} (h : Mirrored s.engine) :
    Mirrors w (escalation id ruling stamp key) s fun _ s' => Mirrored s'.engine := by
  refine .bind (mirrors_expireIfDue hw h fun _ s₁ h₁ => ?_)
  refine .bind (mirrors_entryOf h₁ fun entry hentry => ?_)
  refine .bind (ends_refuseIf (fun _ => h₁) fun hstate => ?_)
  refine .bind (ends_refuseIf (fun _ => h₁) fun hdecision => ?_)
  refine .bind (ends_refuseIf (fun _ => h₁) fun _ => .bind (ends_noteThen hw ?_))
  have hescalated : entry.state = .escalated := not_not.mp hstate
  have hclean := h₁.clean id entry hentry
  have hrollback := hclean.rollback_none (by rw [hescalated]; nofun)
  refine .bind (mirrors_issueVerdictReceipt (h₁.noteLive rfl hentry
    (hclean.late ⟨rfl, rfl, rfl⟩ (.inl hrollback) (stateOfVerdict_late _)) rfl) fun s' h' => .pure h')

theorem mirrors_canonicalize (hw : WritesLand w) {stamp : Timestamp}
    {mode : Option EnforcementMode} (h : Mirrored s.engine) :
    Mirrors w (canonicalize id stamp mode) s fun _ s' => Mirrored s'.engine := by
  refine .bind (mirrors_expireIfDue hw h fun _ s₁ h₁ => ?_)
  refine .bind (mirrors_entryOf h₁ fun entry hentry => ?_)
  refine .ite (fun _ => .pure h₁) fun _ => .bind (ends_self ?_)
  refine .bind (ends_refuseIf (fun _ => h₁) fun hstate => ?_)
  refine .bind (ends_queryOr h₁ fun bytes _ => ?_)
  refine .bind (ends_refuseIf (fun _ => h₁) fun _ => .bind (ends_noteThen hw (.pure ?_)))
  have hclean := h₁.clean id entry hentry
  have hrollback := hclean.rollback_none (by grind)
  exact h₁.noteLive (s := s₁.push .asked) rfl hentry
    (hclean.late ⟨rfl, rfl, rfl⟩ (.inl hrollback) ⟨nofun, nofun⟩) rfl

theorem mirrors_unreachableCollector (hw : WritesLand w) {stamp : Timestamp} {key : KeyId}
    {entry : Entry} (h : Mirrored s.engine) (hentry : s.engine.table[id]? = some entry)
    (hstate : entry.state = .verifying) :
    Mirrors w (unreachableCollector id stamp key) s fun _ s' => Mirrored s'.engine := by
  have hclean := h.clean id entry hentry
  have hrollback := hclean.rollback_none (by simp [hstate])
  refine .bind (ends_self ?_)
  split
  next =>
    refine .bind (ends_noteThen hw (.pure ?_))
    refine h.noteLive rfl hentry (hclean.late ⟨rfl, rfl, rfl⟩ (.inr ⟨_, rfl⟩) ⟨by simp [Entry.at], by simp [Entry.at]⟩) ?_
    rw [Entry.stateRow, Entry.stateRow, StateRow.absorb]
    simp [Entry.at, hrollback]
  next =>
    refine .bind (ends_noteThen hw (.bind (mirrors_issueVerdictReceipt ?_ fun s' h' => .pure h')))
    exact h.noteLive rfl hentry
      (hclean.late ⟨rfl, rfl, rfl⟩ (.inl hrollback) ⟨by simp [Entry.at], by simp [Entry.at]⟩) rfl

theorem mirrors_gateRuling (hw : WritesLand w) {stamp : Timestamp} {key : KeyId}
    (h : Mirrored s.engine)
    (hstate : ∀ entry, s.engine.table[id]? = some entry → entry.state = .verifying) :
    Mirrors w (gateRuling id stamp key) s fun _ s' => Mirrored s'.engine := by
  refine .bind (mirrors_entryOf h fun entry hentry => .bind (ends_query ?_))
  have hverifying := hstate entry hentry
  have hclean := h.clean id entry hentry
  have hrollback := hclean.rollback_none (by rw [hverifying]; nofun)
  split
  next => exact mirrors_unreachableCollector hw (s := s.push .asked) h hentry hverifying
  next =>
    refine .bind (ends_adapter h fun _ => .bind (ends_queryOr h fun outcome _ => ?_))
    refine .bind (ends_query ?_)
    split
    next =>
      refine .bind (ends_noteThen hw (.pure ?_))
      refine h.noteLive (s := ((s.push .asked).push .asked).push .asked) rfl hentry
        (hclean.late ⟨rfl, rfl, rfl⟩ (.inr ⟨_, rfl⟩) ⟨nofun, nofun⟩) ?_
      rw [Entry.stateRow, Entry.stateRow, StateRow.absorb]
      simp [Entry.at, hrollback]
    next verdict _ =>
      refine .bind (.orThrow (fun _ => h) fun digest _ => .bind (ends_noteThen hw ?_))
      refine .bind (mirrors_issueVerdictReceipt ?_ fun s' h' => .pure h')
      refine h.noteLive (s := ((s.push .asked).push .asked).push .asked) rfl hentry
        (hclean.late ⟨rfl, rfl, rfl⟩ (.inl hrollback) (stateOfVerdict_late _)) ?_
      have hunruled := hclean.unruled (.inr hverifying)
      rw [Entry.stateRow, Entry.stateRow, StateRow.absorb]
      simp [Entry.at, hunruled]

theorem mirrors_firstConflict {kind : SubstrateKind} {delta : PlannedDelta}
    {mode : EnforcementMode} {rows : List (TransformationId × Entry)}
    {Q : Option TransformationId → Sys → Prop} (h : Mirrored s.engine)
    (hQ : ∀ blocker s', s'.engine = s.engine → Q blocker s') :
    Mirrors w (firstConflict kind delta mode rows) s Q := by
  induction rows generalizing s with
  | nil => exact .pure (hQ none s rfl)
  | cons row rest ih =>
    refine .ite (fun _ => .bind (ends_queryOr h fun answer _ => ?_)) fun _ => ih h hQ
    split
    next => exact .pure (hQ _ _ rfl)
    next => exact ih h fun blocker s' he => hQ blocker s' he

theorem mirrors_conflictingPredecessor {mode : EnforcementMode}
    {Q : Option TransformationId → Sys → Prop} (h : Mirrored s.engine)
    (hQ : ∀ blocker s', s'.engine = s.engine → Q blocker s') :
    Mirrors w (conflictingPredecessor id mode) s Q := by
  refine .bind (ends_self ?_)
  split
  next => exact .pure (hQ none s rfl)
  next => exact .bind (ends_adapter h fun _ => mirrors_firstConflict h hQ)

theorem clean_blockedBy (o : Option TransformationId) (e : Entry) :
    ({ e with blockedBy := o } : Entry).stateRow id = e.stateRow id ∧
      (e.Clean id → ({ e with blockedBy := o } : Entry).Clean id) :=
  ⟨rfl, fun h => ⟨h.names, h.rollback, h.unruled, h.blank⟩⟩

theorem mirrors_unblock (id : TransformationId) {blockedBy : Option TransformationId}
    {Q : Unit → Sys → Prop} (h : Mirrored s.engine)
    (hQ : ∀ s', Mirrored s'.engine → s'.engine.table[id]?.map (·.state) =
      s.engine.table[id]?.map (·.state) → Q () s') :
    Mirrors w (unblock id blockedBy) s Q := by
  refine ends_whenSome (fun blocker _ => ?_) fun _ => hQ s h rfl
  refine .bind (ends_self (.bind (ends_refuseIf (fun _ => h) fun _ => ?_)))
  refine ends_modifyEntry (hQ _ (h.live (clean_blockedBy none)) ?_)
  rw [getElem?_live, Option.map_map]
  rfl

theorem mirrors_verify (hw : WritesLand w) {stamp : Timestamp} {key : KeyId}
    {mode : Option EnforcementMode} (h : Mirrored s.engine) :
    Mirrors w (verify id stamp key mode) s fun _ s' => Mirrored s'.engine := by
  refine .bind (ends_self (.bind (mirrors_expireIfDue hw h fun _ s₁ h₁ => ?_)))
  refine .bind (mirrors_entryOf h₁ fun entry hentry => ?_)
  refine .bind (ends_refuseIf (fun _ => h₁) fun hstate => ?_)
  refine .bind (mirrors_unblock id h₁ fun s₂ h₂ hlive₂ => ?_)
  refine .bind (mirrors_conflictingPredecessor h₂ fun blocker s₃ he₃ => ?_)
  rw [← he₃] at h₂ hlive₂
  split
  next => exact .bind (ends_modifyEntry (.pure (h₂.live (clean_blockedBy _))))
  next =>
    have hcandidate : s₃.engine.table[id]?.map (·.state) = some .candidate := by
      rw [hlive₂, hentry, Option.map_some, not_not.mp hstate]
    obtain ⟨now, hnow, hcandidate⟩ := Option.map_eq_some_iff.mp hcandidate
    have hclean := h₂.clean id now hnow
    have hrollback := hclean.rollback_none (by rw [hcandidate]; nofun)
    refine .bind (ends_noteThen hw (mirrors_gateRuling hw (h₂.noteLive rfl hnow ?_ rfl) ?_))
    · refine ⟨hclean.names, .inl hrollback, fun _ => hclean.unruled (.inl hcandidate), ?_⟩
      intro hstate'
      cases hstate'
    · intro entry' hentry'
      obtain rfl := Option.some.inj (hentry'.symm.trans (getElem?_modify_self hnow))
      rfl

theorem mirrored_seated {intentId : IntentId} {body : PlannedBody} {t : Transformation}
    {delta : PlannedDelta} {fp0 : Fingerprint} {pre : ObjectSnapshot} {stamp : Timestamp}
    (h : Mirrored s.engine) (hblank : (rowOf id (s.engine.notes id)).Blank)
    (hnames : t.Names id intentId delta) (hintent : body.intentId = intentId)
    (hdelta : body.deltaCid = delta.cid) (hfp0 : body.fp0 = .ofFingerprint fp0) {e : Engine}
    (he : e = ((s.note id (.planned body) stamp).withEngine (remembered intentId id)).engine) :
    Mirrored { e with table := e.table.insert id (Entry.fresh intentId t delta fp0 pre stamp) } := by
  subst he
  refine h.noted (n := .planned body) (t := stamp) rfl rfl (fun other hne => ?_)
    ⟨_, ExtTreeMap.getElem?_insert_self, ⟨hnames, .inl rfl, fun _ => rfl, fun _ => rfl⟩, ?_⟩
    (fun other hsome hne => ?_) (fun i other hmem => ?_)
    (fun other => SigmaShadow.escrow_fold s.engine.shadow id _ stamp other) (fun other row hrow => ?_)
    (fun other => ?_) ⟨rfl, rfl, rfl⟩
  · exact ExtTreeMap.getElem?_insert.trans (if_neg (by simpa using hne))
  · rw [hblank, transformation_rowOf, StateRow.absorb, hintent, hdelta, hfp0]
    rfl
  · rw [← show (s.engine.shadow.fold (.about id (.planned body) stamp)).rows[other]? = _ from
      (SigmaShadow.rows_fold s.engine.shadow id _ stamp other).trans (if_neg hne)]
    exact hsome
  · rcases mem_remembered hmem with hold | hnew
    · exact .inr hold
    · exact .inl hnew
  · refine (SigmaShadow.escrow_fold s.engine.shadow id _ stamp other).trans ?_
    have hheld := h.held other row hrow
    rw [← h.escrow] at hheld
    by_cases hne : id = other
    · subst hne
      rw [if_pos rfl]
      exact hheld
    · rw [if_neg hne, hheld]
  · by_cases hne : id = other
    · subst hne
      rw [if_pos rfl]
      rfl
    · rw [if_neg hne]
      rfl

/-- The bodies the adapters answer with fit a blob. -/
structure BodiesFit (w : World) : Prop where
  planned : ∀ history kind intent pre d, (w history).plan kind intent pre = .ok d →
    Canon.blobBytes d.substrate d.payload ≤ maxBlobBytes
  inverted : ∀ history kind delta pre outcome d, (w history).invert kind delta pre = .ok outcome →
    outcome.inverse = some d → Canon.blobBytes d.substrate d.payload ≤ maxBlobBytes
  completed : ∀ history inverse bytes d, (w history).completeInverse inverse bytes = .ok (some d) →
    Canon.blobBytes d.substrate d.payload ≤ maxBlobBytes

theorem mirrors_planShape (hb : BodiesFit w) {intent : Intent} {stamp : Timestamp}
    {Q : PlanShape → Sys → Prop} (h : Mirrored s.engine)
    (hQ : ∀ (shape : PlanShape) s', s'.engine = s.engine →
      shape.transformation.Names shape.id (Canon.intent intent) shape.delta →
      Canon.blobBytes shape.delta.substrate shape.delta.payload ≤ maxBlobBytes → Q shape s') :
    Mirrors w (planShape intent stamp) s Q := by
  refine .bind (ends_adapter h fun _ => .bind (ends_queryOr h fun pre _ => ?_))
  refine .bind (ends_queryOr h fun delta hdelta => .bind (ends_queryOr h fun fp0 _ => ?_))
  refine .bind (.orThrow (fun _ => h) fun t ht => .pure (hQ _ _ rfl ?_ (hb.planned _ _ _ _ _ hdelta)))
  obtain ⟨hid, hintent, _, _, href, _⟩ := Transformation.id_new ht
  exact ⟨rfl, hid.symm, hintent, href⟩

theorem mirrors_plan [Canon.CollisionFree] (hw : WritesLand w) (hb : BodiesFit w) {intent : Intent}
    {stamp : Timestamp} (h : Mirrored s.engine) :
    Mirrors w (plan intent stamp) s fun _ s' => Mirrored s'.engine := by
  refine .bind (ends_self (.bind (ends_refuseIf (fun _ => h) fun _ => ?_)))
  split
  next => exact ends_fail h
  next halready =>
    refine .bind (mirrors_planShape hb h fun shape s₁ he₁ hnames hsize => .bind (ends_self ?_))
    rw [← he₁] at h halready
    split
    next => exact ends_fail h
    next =>
      refine .ite (fun hre => ?_) fun _ => ?_
      · have hre' : s₁.engine.resolvedLast (Canon.intent intent) = some shape.id ∧
            shape.id ∉ s₁.engine.table := by simpa [rehydrating] using hre
        obtain ⟨hlast, habsent⟩ := hre'
        have hsome := h.resolved _ _ (List.mem_of_getLast? hlast)
        rw [ExtTreeMap.getElem?_eq_none habsent] at hsome
        cases hsome
      · have hblank : (rowOf shape.id (s₁.engine.notes shape.id)).Blank := by
          cases hentry : s₁.engine.table[shape.id]? with
          | none =>
            have hrow := h.rows shape.id
            rw [hentry] at hrow
            rw [rowOf_of_none hrow.symm]
            exact StateRow.blank_new _
          | some entry =>
            have hclean := h.clean shape.id entry hentry
            rw [h.row hentry]
            exact hclean.blank
              (candidate_of_plannedAlready halready hentry (hclean.names.intent_unique hnames))
        refine .bind (ends_self (.bind (ends_noteThen hw (.bind (ends_blobPut hw hsize ?_)))))
        intro s₂ he₂
        exact .bind (ends_update (.pure (mirrored_seated h hblank hnames rfl rfl rfl he₂)))

end Tracefold.Engine
