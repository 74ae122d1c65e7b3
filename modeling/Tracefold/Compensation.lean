import Mathlib.Tactic.Common
import Tracefold.Calm
import Tracefold.Ideal

/-! A commit whose apply failed: what it reads of the world before it sends the escrowed inverse,
and what it records where it does not send it. -/

namespace Tracefold

open Library Engine
open Std (ExtTreeMap)

theorem splits_at_apply {l l' t t' : List Event} {x y : Event} (h : l ++ x :: t = l' ++ y :: t')
    (hl : ∀ ev ∈ l, ev.spares = true) (hy : y.spares = false)
    (hcases : (∀ ev ∈ l', ev.spares = true) ∧ x.spares = false ∨ ∀ ev ∈ t, ev.spares = true) :
    l = l' ∧ x = y ∧ t = t' := by
  induction l generalizing l' with
  | nil =>
    cases l' with
    | nil =>
      obtain ⟨rfl, rfl⟩ := List.cons.inj h
      exact ⟨rfl, rfl, rfl⟩
    | cons z l' =>
      obtain ⟨rfl, rfl⟩ := List.cons.inj h
      rcases hcases with ⟨hl', hx⟩ | ht
      · exact absurd (hl' x List.mem_cons_self) (Bool.eq_false_iff.mp hx)
      · exact absurd (ht y (List.mem_append_right _ List.mem_cons_self)) (Bool.eq_false_iff.mp hy)
  | cons z l ih =>
    cases l' with
    | nil =>
      obtain ⟨rfl, _⟩ := List.cons.inj h
      exact absurd (hl z List.mem_cons_self) (Bool.eq_false_iff.mp hy)
    | cons z' l' =>
      obtain ⟨rfl, htail⟩ := List.cons.inj h
      have hcases' : (∀ ev ∈ l', ev.spares = true) ∧ x.spares = false ∨
          ∀ ev ∈ t, ev.spares = true :=
        hcases.imp_left fun hcase =>
          ⟨fun ev hev => hcase.1 ev (List.mem_cons_of_mem _ hev), hcase.2⟩
      obtain ⟨rfl, rfl, rfl⟩ := ih htail (fun ev hev => hl ev (List.mem_cons_of_mem _ hev)) hcases'
      exact ⟨rfl, rfl, rfl⟩

/-- The fingerprint a reading of the row's object answers after a history; `none` for an object
that cannot be read. -/
def seenOf (w : World) (entry : Entry) (history : List Event) : Option Fingerprint :=
  match (w history).snapshot entry.delta.substrate entry.pre.locator with
  | .error _ => none
  | .ok guard =>
    ((w (history ++ [.asked])).precondition entry.delta.substrate guard).toOption

/-- Why the inverse is not sent after an apply that failed at the end of a history, or nothing:
of the escrow first, then of a reading right after the failure, then of a second one. -/
def sparedBecause (w : World) (entry : Entry) (history : List Event) :
    Option Escrowed → Option NotAttemptedBecause
  | none => some .noInverseWasEscrowed
  | some ⟨_, true⟩ => some .escrowStillPartial
  | some ⟨_, false⟩ =>
    match seenOf w entry history with
    | none => some .worldCouldNotBeRead
    | some left =>
      match entry.fp0.casEq left with
      | none => some .worldCouldNotBeRead
      | some true => some .worldNeverMoved
      | some false =>
        match seenOf w entry (history ++ [.asked, .asked]) with
        | none => some .worldCouldNotBeRead
        | some now =>
          match left.casEq now with
          | none => some .worldCouldNotBeRead
          | some false => some .worldMovedBeneath
          | some true => none

/-- The inverse is escrowed whole; the object is read as moved away from where the commit began,
right after the failure, and read again as where it was then. -/
structure TakesBack (w : World) (entry : Entry) (escrowed : Option Escrowed)
    (history : List Event) (inverse : PlannedDelta) : Prop where
  escrowed : escrowed = some ⟨inverse, false⟩
  reads : ∃ left now, seenOf w entry history = some left ∧ entry.fp0.casEq left = some false ∧
    seenOf w entry (history ++ [.asked, .asked]) = some now ∧ left.casEq now = some true

theorem TakesBack.not_spared {w : World} {entry : Entry} {escrowed : Option Escrowed}
    {history : List Event} {inverse : PlannedDelta} (h : TakesBack w entry escrowed history inverse) :
    sparedBecause w entry history escrowed = none := by
  obtain ⟨left, now, hleft, hmoved, hnow, hstill⟩ := h.reads
  rw [h.escrowed, sparedBecause, hleft]
  simp only [hmoved, hnow, hstill]

/-- What a compensation has added to the history, and the rollback it answers unless it stopped. -/
inductive Compensation [Canon] (w : World) (id : TransformationId) (stamp : Timestamp) (entry : Entry)
    (escrowed : Option Escrowed) (history : List Event) : List Event → Option Rollback → Prop where
  | spared {cause : NotAttemptedBecause} {asks : List Event}
      (hcause : sparedBecause w entry history escrowed = some cause)
      (hasks : ∀ ev ∈ asks, ev = .asked) :
      Compensation w id stamp entry escrowed history asks (some .notAttempted)
  | unannounced {inverse : PlannedDelta} {ev : Event}
      (hback : TakesBack w entry escrowed history inverse) (hev : ev = .failed ∨ ev = .crashed) :
      Compensation w id stamp entry escrowed history [.asked, .asked, .asked, .asked, ev] none
  | died {inverse : PlannedDelta} (hback : TakesBack w entry escrowed history inverse) :
      Compensation w id stamp entry escrowed history
        [.asked, .asked, .asked, .asked, .journal (.about id (.applyStarted inverse.cid) stamp),
          .crashed] none
  | sent {inverse : PlannedDelta} {answer : Except String AppliedDelta} {asks : List Event}
      {rollback : Rollback} (hback : TakesBack w entry escrowed history inverse)
      (hasks : ∀ ev ∈ asks, ev = .asked) (hnot : rollback ≠ .notAttempted)
      (hlanded : rollback = .succeeded → (∃ applied, answer = .ok applied) ∧
        ∃ fp, seenOf w entry (history ++ [.asked, .asked, .asked, .asked,
            .journal (.about id (.applyStarted inverse.cid) stamp), .apply id inverse answer]) =
          some fp ∧ entry.fp0.casEq fp = some true) :
      Compensation w id stamp entry escrowed history
        ([.asked, .asked, .asked, .asked, .journal (.about id (.applyStarted inverse.cid) stamp),
          .apply id inverse answer] ++ asks) (some rollback)

namespace Engine

variable {w : World} {s : Sys} {id : TransformationId} {entry : Entry} {E : Sys → Prop}

/-- A history that has grown, with the files and the process as they were. -/
def grown (s : Sys) (more : List Event) : Sys := { s with history := s.history ++ more }

theorem grown_nil (s : Sys) : grown s [] = s := by
  rw [grown, List.append_nil]

theorem grown_grown (s : Sys) (more more' : List Event) :
    grown (grown s more) more' = grown s (more ++ more') := by
  simp only [grown, List.append_assoc]

theorem ends_readWorld {Q : Option Fingerprint → Sys → Prop}
    (hnone : seenOf w entry s.history = none → ∀ asks, (∀ ev ∈ asks, ev = .asked) →
      Q none (grown s asks))
    (hsome : ∀ fp, seenOf w entry s.history = some fp → Q (some fp) (grown s [.asked, .asked])) :
    Prog.Ends w (readWorld entry.delta.substrate entry.pre.locator) s E Q := by
  have hasked : ∀ ev ∈ [Event.asked, .asked], ev = .asked := by simp
  refine .bind (ends_query ?_)
  unfold seenOf at hnone hsome
  split
  next why hsnapshot =>
    rw [hsnapshot] at hnone
    exact .pure (hnone rfl [.asked] (by simp))
  next guard hsnapshot =>
    rw [hsnapshot] at hnone hsome
    simp only at hnone hsome
    refine .bind (ends_query ?_)
    have hgrown : (s.push .asked).push .asked = grown s [.asked, .asked] := by
      simp only [Sys.push, grown, List.append_assoc, List.cons_append, List.nil_append]
    rw [hgrown, Sys.history_push]
    split
    next why hfp =>
      rw [hfp] at hnone
      exact .pure (hnone rfl _ hasked)
    next fp hfp =>
      rw [hfp] at hsome
      exact .pure (hsome fp rfl)

theorem ends_notAttempted {why : NotAttemptedBecause} {Q : Rollback → Sys → Prop}
    (h : Q .notAttempted (s.withEngine fun e =>
      { e with notAttemptedBecause := e.notAttemptedBecause.insert id why })) :
    Prog.Ends w (notAttempted id why) s E Q :=
  .bind (ends_update (.pure h))

theorem ends_applyOnce {kind : SubstrateKind} {delta : PlannedDelta}
    {Q : Except String AppliedDelta → Sys → Prop} (hcrash : E (s.push .crashed))
    (h : ∀ answer, Q answer (s.push (.apply id delta answer))) :
    Prog.Ends w (applyOnce id kind delta) s E Q := by
  refine .bind (.ask (.bind (.get ?_)))
  split
  next => exact .bind (.modify (.throw hcrash))
  next => exact .bind (.modify (.pure (h _)))

variable [Canon]

theorem ends_announceApply {kind : SubstrateKind} {delta : PlannedDelta} {stamp : Timestamp}
    {Q : Except String AppliedDelta → Sys → Prop}
    (hstop : ∀ ev, ev = .failed ∨ ev = .crashed → E (s.push ev))
    (hcrash : ∀ s', s'.history =
      s.history ++ [.journal (.about id (.applyStarted delta.cid) stamp), .crashed] → E s')
    (h : ∀ answer s', s'.history = s.history ++
        [.journal (.about id (.applyStarted delta.cid) stamp), .apply id delta answer] →
      (∀ other, other ∈ s.engine.table → other ∈ s'.engine.table) → Q answer s') :
    Prog.Ends w (announceApply id kind delta stamp) s E Q := by
  refine .bind (ends_noteThen_any (fun _ => hstop _ (.inl rfl)) (fun _ => hstop _ (.inr rfl))
    fun _ => ?_)
  refine ends_applyOnce (hcrash _ ?_) fun answer => h answer _ ?_ fun _ hid => ExtTreeMap.mem_modify.mpr hid
  · simp only [Sys.push, Sys.history_withEngine, Sys.history_record, List.append_assoc]
    rfl
  · simp only [Sys.push, Sys.history_withEngine, Sys.history_record, List.append_assoc]
    rfl

omit [Canon] in
theorem ends_rollbackLanded {Q : Rollback → Sys → Prop}
    (h : ∀ rollback asks, (∀ ev ∈ asks, ev = .asked) → rollback ≠ .notAttempted →
      (rollback = .succeeded →
        ∃ fp, seenOf w entry s.history = some fp ∧ entry.fp0.casEq fp = some true) →
      Q rollback (grown s asks)) :
    Prog.Ends w (rollbackLanded entry) s E Q := by
  have hasked : ∀ ev ∈ [Event.asked, .asked], ev = .asked := by simp
  refine .bind (ends_readWorld (fun _ asks hasks => ?_) fun fp hfp => ?_)
  · exact .pure (h .failed asks hasks nofun nofun)
  · dsimp only
    split
    next hsame => exact .pure (h .succeeded _ hasked nofun fun _ => ⟨fp, hfp, hsame⟩)
    next => exact .pure (h .diverged _ hasked nofun nofun)
    next => exact .pure (h .failed _ hasked nofun nofun)

omit [Canon] in
theorem ends_worldTheFailedApplyLeft {Q : CompensationVerdict → Sys → Prop}
    (hunreadable : (∀ left, seenOf w entry s.history = some left → entry.fp0.casEq left = none) →
      ∀ asks, (∀ ev ∈ asks, ev = .asked) → Q .unreadable (grown s asks))
    (hread : ∀ left, seenOf w entry s.history = some left →
      (entry.fp0.casEq left = some true → Q .nothingToTakeBack (grown s [.asked, .asked])) ∧
        (entry.fp0.casEq left = some false →
          Q (.takeBackFrom left) (grown s [.asked, .asked]))) :
    Prog.Ends w (worldTheFailedApplyLeft entry) s E Q := by
  refine .bind (ends_readWorld (fun hseen asks hasks => ?_) fun left hleft => ?_)
  · exact .pure (hunreadable (fun left hleft => nomatch hseen.symm.trans hleft) asks hasks)
  · obtain ⟨hsame, hmoved⟩ := hread left hleft
    dsimp only
    split
    next h => exact .pure (hsame h)
    next h => exact .pure (hmoved h)
    next h =>
      refine .pure (hunreadable (fun left' hleft' => ?_) _ (by simp))
      rw [← Option.some.inj (hleft.symm.trans hleft')]
      exact h

omit [Canon] in
theorem ends_worldIsStillAt {expected : Fingerprint} {Q : Option Bool → Sys → Prop}
    (hnone : seenOf w entry s.history = none → ∀ asks, (∀ ev ∈ asks, ev = .asked) →
      Q none (grown s asks))
    (hsome : ∀ now, seenOf w entry s.history = some now →
      Q (expected.casEq now) (grown s [.asked, .asked])) :
    Prog.Ends w (worldIsStillAt entry expected) s E Q :=
  .bind (ends_readWorld (fun hseen asks hasks => .pure (hnone hseen asks hasks)) fun now hnow =>
    .pure (hsome now hnow))

/-- A compensation from `s` that has answered, over the rows it found, with its cause recorded
where it sent nothing. -/
structure Answers (w : World) (id : TransformationId) (stamp : Timestamp) (entry : Entry)
    (escrowed : Option Escrowed) (s : Sys) (rollback : Rollback) (s' : Sys) : Prop where
  history : ∃ more, s'.history = s.history ++ more ∧
    Compensation w id stamp entry escrowed s.history more (some rollback)
  table : ∀ other, other ∈ s.engine.table → other ∈ s'.engine.table
  because : ∀ cause, sparedBecause w entry s.history escrowed = some cause →
    s'.engine.notAttemptedBecause[id]? = some cause

def Stops (w : World) (id : TransformationId) (stamp : Timestamp) (entry : Entry)
    (escrowed : Option Escrowed) (s s' : Sys) : Prop :=
  ∃ more, s'.history = s.history ++ more ∧
    Compensation w id stamp entry escrowed s.history more none

/-- A branch that sends nothing has read at most, and records its one cause. -/
theorem ends_spared {escrowed : Option Escrowed} {stamp : Timestamp} {cause : NotAttemptedBecause}
    {asks : List Event} {s₁ : Sys} (hs₁ : s₁ = grown s asks)
    (hcause : sparedBecause w entry s.history escrowed = some cause)
    (hasks : ∀ ev ∈ asks, ev = .asked) :
    Prog.Ends w (notAttempted id cause) s₁ (Stops w id stamp entry escrowed s)
      (Answers w id stamp entry escrowed s) := by
  subst hs₁
  refine ends_notAttempted ⟨⟨asks, rfl, .spared hcause hasks⟩, fun _ hid => hid, ?_⟩
  intro cause' hcause'
  obtain rfl := Option.some.inj (hcause.symm.trans hcause')
  exact ExtTreeMap.getElem?_insert_self

theorem ends_sent {escrowed : Option Escrowed} {stamp : Timestamp} {inverse : PlannedDelta}
    (hback : TakesBack w entry escrowed s.history inverse) :
    Prog.Ends w (do
        match ← announceApply id entry.delta.substrate inverse stamp with
        | .ok _ => rollbackLanded entry
        | .error _ => return .failed)
      (grown s [.asked, .asked, .asked, .asked]) (Stops w id stamp entry escrowed s)
      (Answers w id stamp entry escrowed s) := by
  have hbecause : ∀ {s' : Sys} (cause : NotAttemptedBecause),
      sparedBecause w entry s.history escrowed = some cause →
      s'.engine.notAttemptedBecause[id]? = some cause := by
    intro s' cause hcause
    rw [hback.not_spared] at hcause
    cases hcause
  have hnothing : ∀ ev ∈ ([] : List Event), ev = .asked := List.forall_mem_nil _
  refine .bind (ends_announceApply (fun ev hev => ?_) (fun s' hs' => ?_) fun answer s' hs' htable => ?_)
  · exact ⟨_, by rw [Sys.push, grown, List.append_assoc]; rfl, .unannounced hback hev⟩
  · exact ⟨_, by rw [hs', grown, List.append_assoc]; rfl, .died hback⟩
  · have hhistory : s'.history = s.history ++ [.asked, .asked, .asked, .asked,
        .journal (.about id (.applyStarted inverse.cid) stamp), .apply id inverse answer] := by
      rw [hs', grown, List.append_assoc]
      rfl
    split
    next applied =>
      refine ends_rollbackLanded fun rollback asks hasks hnot hlanded => ?_
      refine ⟨⟨_, ?_, @Compensation.sent _ _ _ _ _ _ _ _ (.ok applied) _ _ hback hasks hnot
        fun hsucceeded => ⟨⟨applied, rfl⟩, ?_⟩⟩, htable, hbecause⟩
      · rw [grown, hhistory, List.append_assoc]
      · rw [hhistory] at hlanded
        exact hlanded hsucceeded
    next why =>
      refine .pure ⟨⟨_, ?_, @Compensation.sent _ _ _ _ _ _ _ _ (.error why) _ _ hback hnothing
        nofun nofun⟩, htable, hbecause⟩
      rw [hhistory, List.append_nil]

theorem ends_compensate {escrowed : Option Escrowed} {stamp : Timestamp} :
    Prog.Ends w (compensate id entry escrowed stamp) s (Stops w id stamp entry escrowed s)
      (Answers w id stamp entry escrowed s) := by
  have hnothing : ∀ ev ∈ ([] : List Event), ev = .asked := List.forall_mem_nil _
  have hasked : ∀ ev ∈ [Event.asked, .asked], ev = .asked := by simp
  unfold compensate
  split
  next => exact ends_spared (grown_nil s).symm rfl hnothing
  next => exact ends_spared (grown_nil s).symm rfl hnothing
  next inverse =>
    refine .bind (ends_worldTheFailedApplyLeft (fun hseen asks hasks => ?_)
      fun left hleft => ⟨fun hsame => ?_, fun hmoved => ?_⟩)
    · refine ends_spared rfl ?_ hasks
      cases hleft : seenOf w entry s.history with
      | none => simp only [sparedBecause, hleft]
      | some left => simp only [sparedBecause, hleft, hseen left hleft]
    · exact ends_spared rfl (by simp only [sparedBecause, hleft, hsame]) hasked
    · refine .bind (ends_worldIsStillAt (fun hseen asks hasks => ?_) fun now hnow => ?_)
      · rw [grown] at hseen
        rw [grown_grown]
        refine ends_spared rfl (by simp only [sparedBecause, hleft, hmoved, hseen]) fun ev hev => ?_
        rcases List.mem_append.mp hev with hev | hev
        · exact hasked ev hev
        · exact hasks ev hev
      · rw [grown] at hnow
        rw [grown_grown]
        have hfour : ∀ ev ∈ [Event.asked, .asked] ++ [.asked, .asked], ev = .asked := by simp
        split
        next hstill =>
          exact ends_spared rfl (by simp only [sparedBecause, hleft, hmoved, hnow, hstill]) hfour
        next hstill =>
          exact ends_spared rfl (by simp only [sparedBecause, hleft, hmoved, hnow, hstill]) hfour
        next hstill => exact ends_sent ⟨rfl, left, now, hleft, hmoved, hnow, hstill⟩

end Engine

variable {w : World} {s s' : Sys} {id : TransformationId} {stamp : Timestamp} {entry : Entry}
  {escrowed : Option Escrowed} {history more : List Event} {rollback : Option Rollback}

/-- What a commit whose apply failed has done to the world, and what it has recorded, from the
failure on. -/
structure Compensated [Canon] (w : World) (id : TransformationId) (stamp : Timestamp)
    (entry : Entry) (escrowed : Option Escrowed) (history after : List Event)
    (answer : Option Lifecycle) (s' : Sys) : Prop where
  /-- The escrowed inverse is applied only over a world that was read twice, and nothing else is
  applied. -/
  guarded : ∀ before other inverse answer rest,
    after = before ++ .apply other inverse answer :: rest → other = id ∧
      TakesBack w entry escrowed history inverse ∧
      before = [.asked, .asked, .asked, .asked,
        .journal (.about id (.applyStarted inverse.cid) stamp)] ∧
      ∀ ev ∈ rest, ev.spares = true
  /-- In every other case nothing is applied, one cause is recorded, and the row ends aborted,
  unless the record of that cannot be written. -/
  spared : (∀ inverse, ¬ TakesBack w entry escrowed history inverse) →
    (∀ ev ∈ after, ev.spares = true) ∧
    (∃ cause, sparedBecause w entry history escrowed = some cause ∧
      s'.engine.notAttemptedBecause[id]? = some cause) ∧
    ((after.getLast? = some .failed ∨ after.getLast? = some .crashed) ∧ answer = none ∨
      answer = some (.aborted .applyFailed) ∧
        ∃ row, s'.engine.table[id]? = some row ∧ row.state = .aborted .applyFailed ∧
          row.rollback = some .notAttempted)
  /-- A rollback is recorded to have succeeded only if a reading after it is where the commit
  began. -/
  succeeded : ∀ other reason at_,
    .journal (.about other (.aborted reason (some .succeeded)) at_) ∈ after →
    ∃ before inverse applied rest fp, after = before ++ .apply id inverse (.ok applied) :: rest ∧
      seenOf w entry (history ++ before ++ [.apply id inverse (.ok applied)]) = some fp ∧
      entry.fp0.casEq fp = some true

section Shape

variable [Canon]

omit [Canon] in
theorem spares_of_asked {asks : List Event} (h : ∀ ev ∈ asks, ev = .asked) :
    ∀ ev ∈ asks, ev.spares = true := fun ev hev => h ev hev ▸ rfl

/-- What a compensation adds applies the inverse once over a world read twice, or nothing. -/
theorem Compensation.guarded (h : Compensation w id stamp entry escrowed history more rollback)
    {tail : List Event} (htail : ∀ ev ∈ tail, ev.spares = true) {before rest : List Event}
    {other : TransformationId} {inverse : PlannedDelta} {answer : Except String AppliedDelta}
    (hafter : more ++ tail = before ++ .apply other inverse answer :: rest) :
    other = id ∧ TakesBack w entry escrowed history inverse ∧
      before = [.asked, .asked, .asked, .asked,
        .journal (.about id (.applyStarted inverse.cid) stamp)] ∧
      ∀ ev ∈ rest, ev.spares = true := by
  have hnone : (∀ ev ∈ more, ev.spares = true) → False := by
    intro hmore
    have hmem : Event.apply other inverse answer ∈ more ++ tail := by
      rw [hafter]
      exact List.mem_append_right _ List.mem_cons_self
    rcases List.mem_append.mp hmem with hmem | hmem
    · exact absurd (hmore _ hmem) nofun
    · exact absurd (htail _ hmem) nofun
  cases h with
  | spared _ hasks => exact (hnone (spares_of_asked hasks)).elim
  | unannounced _ hev =>
    refine (hnone ?_).elim
    rcases hev with rfl | rfl <;> simp [Event.spares]
  | died =>
    refine (hnone ?_).elim
    simp [Event.spares]
  | @sent inverse' answer' asks _ hback hasks =>
    have hsplit : [.asked, .asked, .asked, .asked,
          .journal (.about id (.applyStarted inverse'.cid) stamp)] ++
        .apply id inverse' answer' :: (asks ++ tail) =
        before ++ .apply other inverse answer :: rest := by
      rw [← hafter]
      rfl
    have hrest : ∀ ev ∈ asks ++ tail, ev.spares = true := by
      intro ev hev
      rcases List.mem_append.mp hev with hev | hev
      · exact spares_of_asked hasks ev hev
      · exact htail ev hev
    obtain ⟨rfl, happly, rfl⟩ :=
      splits_at_apply hsplit (by simp [Event.spares]) rfl (.inr hrest)
    cases happly
    exact ⟨rfl, hback, rfl, hrest⟩

theorem Compensation.stopped (h : Compensation w id stamp entry escrowed history more none) :
    Compensated w id stamp entry escrowed history more none s' := by
  have hback : ∃ inverse, TakesBack w entry escrowed history inverse := by
    cases h with
    | unannounced hback => exact ⟨_, hback⟩
    | died hback => exact ⟨_, hback⟩
  refine ⟨fun before other inverse answer rest hafter => ?_, fun hnot => ?_, ?_⟩
  · exact h.guarded (List.forall_mem_nil _) (by rw [List.append_nil]; exact hafter)
  · obtain ⟨inverse, hback⟩ := hback
    exact absurd hback (hnot inverse)
  · intro other reason at_ hmem
    cases h with
    | unannounced _ hev => rcases hev with rfl | rfl <;> simp at hmem
    | died => simp at hmem

theorem Compensation.answered {r : Rollback} {last : Event} {answer : Option Lifecycle}
    (h : Compensation w id stamp entry escrowed history more (some r))
    (hbecause : ∀ cause, sparedBecause w entry history escrowed = some cause →
      s'.engine.notAttemptedBecause[id]? = some cause)
    (hlast : (last = .failed ∨ last = .crashed) ∧ answer = none ∨
      last = .journal (.about id (.aborted .applyFailed (some r)) stamp) ∧
        answer = some (.aborted .applyFailed) ∧
        ∃ row, s'.engine.table[id]? = some row ∧ row.state = .aborted .applyFailed ∧
          row.rollback = some r) :
    Compensated w id stamp entry escrowed history (more ++ [last]) answer s' := by
  have hspares : ∀ ev ∈ [last], ev.spares = true := by
    intro ev hev
    rw [List.mem_singleton.mp hev]
    rcases hlast with ⟨rfl | rfl, _⟩ | ⟨rfl, _⟩ <;> rfl
  refine ⟨fun before other inverse answer rest hafter => ?_, fun hnot => ?_, ?_⟩
  · exact h.guarded hspares hafter
  · cases h with
    | sent hback => exact absurd hback (hnot _)
    | @spared cause _ hcause hasks =>
      refine ⟨fun ev hev => ?_, ⟨cause, hcause, hbecause cause hcause⟩, ?_⟩
      · rcases List.mem_append.mp hev with hev | hev
        · exact spares_of_asked hasks ev hev
        · exact hspares ev hev
      · rw [List.getLast?_concat]
        rcases hlast with ⟨hlast, hanswer⟩ | ⟨_, hanswer, hrow⟩
        · exact .inl ⟨hlast.imp (congrArg some) (congrArg some), hanswer⟩
        · exact .inr ⟨hanswer, hrow⟩
  · intro other reason at_ hmem
    have hr : r = .succeeded := by
      rcases List.mem_append.mp hmem with hmem | hmem
      · cases h with
        | spared _ hasks => cases hasks _ hmem
        | sent _ hasks =>
          rcases List.mem_append.mp hmem with hmem | hmem
          · simp at hmem
          · cases hasks _ hmem
      · rw [List.mem_singleton] at hmem
        rcases hlast with ⟨rfl | rfl, _⟩ | ⟨rfl, _⟩ <;> cases hmem
        rfl
    subst hr
    cases h with
    | @sent inverse answer asks _ _ _ _ hlanded =>
      obtain ⟨⟨applied, rfl⟩, fp, hfp, hsame⟩ := hlanded rfl
      refine ⟨[.asked, .asked, .asked, .asked,
        .journal (.about id (.applyStarted inverse.cid) stamp)], inverse, applied,
        asks ++ [last], fp, ?_, ?_, hsame⟩
      · simp
      · rw [← hfp, List.append_assoc]
        rfl

end Shape

/-- The escrow a commit holds, as its journal has it. -/
def Escrows [Canon] (id : TransformationId) (stamp : Timestamp) (escrowed : Option Escrowed)
    (ev : Event) : Prop :=
  ∃ body, ev = .journal (.about id (.inverseEscrowed body) stamp) ∧
    body.inverseCid = escrowed.map (·.inverse.cid) ∧ body.pending = escrowed.any (·.pending)

section Walk

variable [Canon]

/-- The events from one state on. -/
abbrev since (s s' : Sys) : List Event := s'.history.drop s.history.length

omit [Canon] in
theorem Calm.since_mono {s₁ : Sys} (h : Calm s' s₁) {ev : Event} (hev : ev ∈ since s s') :
    ev ∈ since s s₁ := by
  obtain ⟨more, hmore, _⟩ := h.history
  rw [since, hmore, List.drop_append]
  exact List.mem_append_left _ hev

omit [Canon] in
theorem Calm.since_anti {s₁ : Sys} (h : Calm s s₁) {ev : Event} (hev : ev ∈ since s₁ s') :
    ev ∈ since s s' := by
  obtain ⟨more, hmore, _⟩ := h.history
  rw [since, hmore, List.length_append, ← List.drop_drop] at hev
  exact List.mem_of_mem_drop hev

theorem Engine.ends_escrowInverse {outcome : InvertOutcome} {E : Sys → Prop}
    {Q : Option Escrowed → Sys → Prop} (hstop : ∀ s', Calm s s' → E s')
    (h : ∀ escrowed s' ev, Calm s s' → ev ∈ since s s' → Escrows id stamp escrowed ev →
      Q escrowed s') :
    Prog.Ends w (escrowInverse id entry outcome stamp) s E Q := by
  have hnoted : ∀ {s₁ s₂ : Sys} {r : Record}, s₂.history = s₁.history ++ [.journal r] →
      .journal r ∈ since s₁ s₂ := by
    intro s₁ s₂ r hs₂
    rw [since, hs₂, List.drop_left]
    exact List.mem_singleton_self _
  have hnote : ∀ {s₁ : Sys} {body : EscrowBody},
      Calm s₁ ((s₁.note id (.inverseEscrowed body) stamp).withEngine fun e => e) :=
    fun {s₁ _} => (Calm.noted s₁ id stamp rfl).trans (.still rfl ⟨fun _ h => h, rfl, rfl, rfl⟩)
  have hfails : ∀ {s₁ : Sys}, Calm s s₁ → ∀ ev : Event, ev.spares = true → E (s₁.push ev) :=
    fun hs₁ ev hev => hstop _ (hs₁.trans (.push hev))
  unfold escrowInverse
  cases hinverse : outcome.inverse with
  | none =>
    refine .bind (ends_noteThen_any (fun _ => hfails (.refl s) _ rfl)
      (fun _ => hfails (.refl s) _ rfl) fun _ => ?_)
    refine .bind (ends_update (.pure (h none _ _ (hnote.trans (.still rfl ⟨fun _ h => h, rfl, rfl, rfl⟩))
      (hnoted rfl) ⟨_, rfl, ?_⟩)))
    rw [escrowBody, hinverse]
    exact ⟨rfl, rfl⟩
  | some inverse =>
    refine .bind ((calm_needs entry inverse).ends hstop fun pending s₁ hs₁ => ?_)
    refine .bind (ends_noteThen_any (fun _ => hfails hs₁ _ rfl) (fun _ => hfails hs₁ _ rfl)
      fun _ => ?_)
    have hs₂ : Calm s ((s₁.note id (.inverseEscrowed (escrowBody outcome pending)) stamp).withEngine
        fun e => e) := hs₁.trans hnote
    have hmem : .journal (.about id (.inverseEscrowed (escrowBody outcome pending)) stamp) ∈
        since s ((s₁.note id (.inverseEscrowed (escrowBody outcome pending)) stamp).withEngine
          fun e => e) := hs₁.since_anti (hnoted rfl)
    refine .bind ((calm_blobPut _).ends (fun s₃ hs₃ => hstop _ (hs₂.trans hs₃)) fun _ s₃ hs₃ => ?_)
    have hlast : Calm s₃ ((s₃.withEngine fun e =>
        { e with escrow := e.escrow.insert id (escrowRow id outcome pending) }).live id
          fun entry => { entry with inverseCid := some inverse.cid }) :=
      .still rfl ((Unruled.onEntry _ _ _).after rfl rfl rfl rfl)
    refine .bind (ends_update (.bind (ends_modifyEntry (.pure (h (some ⟨inverse, pending⟩) _ _
      (hs₂.trans (hs₃.trans hlast)) ((hs₃.trans hlast).since_mono hmem) ⟨_, rfl, ?_⟩)))))
    rw [escrowBody, hinverse]
    exact ⟨rfl, rfl⟩

/-- What is to be shown of a commit, from where it began: if its first apply failed, what it did
from there. -/
def Judged (w : World) (s : Sys) (id : TransformationId) (stamp : Timestamp)
    (answer : Option Lifecycle) (s' : Sys) : Prop :=
  ∀ before after delta why,
    s'.history = s.history ++ before ++ .apply id delta (.error why) :: after →
    (∀ ev ∈ before, ev.spares = true) →
    ∃ entry escrowed, s.engine.table[id]? = some entry ∧ delta = entry.delta ∧
      (∃ ev ∈ before, Escrows id stamp escrowed ev) ∧
      Compensated w id stamp entry escrowed
        (s.history ++ before ++ [.apply id delta (.error why)]) after answer s'

theorem Judged.of_spared {answer : Option Lifecycle}
    (h : ∃ more, s'.history = s.history ++ more ∧ ∀ ev ∈ more, ev.spares = true) :
    Judged w s id stamp answer s' := by
  intro before after delta why hhistory _
  obtain ⟨more, hmore, hspares⟩ := h
  rw [hmore, List.append_assoc] at hhistory
  have hmem : .apply id delta (.error why) ∈ more := by
    rw [List.append_cancel_left hhistory]
    exact List.mem_append_right _ List.mem_cons_self
  exact absurd (hspares _ hmem) nofun

theorem Judged.of_applied {answer : Option Lifecycle} {delta : PlannedDelta}
    {applied : AppliedDelta} {more rest : List Event}
    (h : s'.history = s.history ++ more ++ .apply id delta (.ok applied) :: rest)
    (hspares : ∀ ev ∈ more, ev.spares = true) : Judged w s id stamp answer s' := by
  intro before after delta' why hhistory hbefore
  rw [h, List.append_assoc, List.append_assoc] at hhistory
  obtain ⟨_, happly, _⟩ := splits_at_apply (List.append_cancel_left hhistory) hspares rfl
    (.inl ⟨hbefore, rfl⟩)
  cases happly

theorem Judged.of_failed {answer : Option Lifecycle} {why : String} {more rest : List Event}
    (hentry : s.engine.table[id]? = some entry)
    (h : s'.history = s.history ++ more ++ .apply id entry.delta (.error why) :: rest)
    (hspares : ∀ ev ∈ more, ev.spares = true) (hescrows : ∃ ev ∈ more, Escrows id stamp escrowed ev)
    (hcompensated : Compensated w id stamp entry escrowed
      (s.history ++ more ++ [.apply id entry.delta (.error why)]) rest answer s') :
    Judged w s id stamp answer s' := by
  intro before after delta' why' hhistory hbefore
  rw [h, List.append_assoc, List.append_assoc] at hhistory
  obtain ⟨rfl, happly, rfl⟩ := splits_at_apply (List.append_cancel_left hhistory) hspares rfl
    (.inl ⟨hbefore, rfl⟩)
  cases happly
  exact ⟨entry, escrowed, hentry, rfl, hescrows, hcompensated⟩

/-- From the failed apply to the end of the commit. -/
theorem Engine.ends_failed {why : String} {more : List Event} {s₁ : Sys}
    (hentry : s.engine.table[id]? = some entry) (hrow : id ∈ s₁.engine.table)
    (h : s₁.history = s.history ++ more ++ [.apply id entry.delta (.error why)])
    (hspares : ∀ ev ∈ more, ev.spares = true)
    (hescrows : ∃ ev ∈ more, Escrows id stamp escrowed ev) :
    Prog.Ends w (do
        let rollback ← compensate id entry escrowed stamp
        abort id .applyFailed (some rollback) stamp)
      s₁ (Judged w s id stamp none) fun state => Judged w s id stamp (some state) := by
  have hjudged : ∀ {s' : Sys} {rest : List Event} {answer : Option Lifecycle},
      s'.history = s₁.history ++ rest →
      Compensated w id stamp entry escrowed s₁.history rest answer s' →
      Judged w s id stamp answer s' := by
    intro s' rest answer hs' hcompensated
    rw [h] at hs' hcompensated
    refine .of_failed hentry ?_ hspares hescrows hcompensated
    rw [hs', List.append_assoc]
    rfl
  refine .bind (ends_compensate.weaken (fun s' hs' => ?_) fun r s₂ hs₂ => ?_)
  · obtain ⟨rest, hrest, hstops⟩ := hs'
    exact hjudged hrest hstops.stopped
  · obtain ⟨⟨rest, hrest, hanswers⟩, htable, hbecause⟩ := hs₂
    have hlost : ∀ ev : Event, ev = .failed ∨ ev = .crashed →
        Judged w s id stamp none (s₂.push ev) := by
      intro ev hev
      refine hjudged (by rw [Sys.history_push, hrest, List.append_assoc]) ?_
      exact hanswers.answered hbecause (.inl ⟨hev, rfl⟩)
    refine .bind (ends_noteThen_any (fun _ => hlost _ (.inl rfl)) (fun _ => hlost _ (.inr rfl))
      fun _ => .pure ?_)
    refine hjudged (by rw [Sys.history_withEngine, Sys.history_record, hrest, List.append_assoc]) ?_
    refine hanswers.answered hbecause (.inr ⟨rfl, rfl, ?_⟩)
    obtain ⟨row, hrow⟩ := Option.isSome_iff_exists.mp
      (ExtTreeMap.isSome_getElem?_iff_mem.mpr (htable id hrow))
    have hmodified : (s₂.engine.table.modify id fun entry =>
        Entry.at (.aborted .applyFailed) stamp { entry with rollback := some r })[id]? =
        some (Entry.at (.aborted .applyFailed) stamp { row with rollback := some r }) := by
      rw [ExtTreeMap.getElem?_modify_self, hrow]
      rfl
    exact ⟨_, hmodified, rfl, rfl⟩

theorem Engine.ends_commitEscrow {canonicalCid : Cid} {verdict : Option VerdictSummary}
    {key : KeyId} {s₁ : Sys} (hentry : s.engine.table[id]? = some entry) (hs₁ : Calm s s₁) :
    Prog.Ends w (commitEscrow id entry canonicalCid verdict stamp key) s₁
      (Judged w s id stamp none) fun state => Judged w s id stamp (some state) := by
  have hcalm : ∀ {s' : Sys} {answer : Option Lifecycle}, Calm s₁ s' →
      Judged w s id stamp answer s' := fun hs' => .of_spared (hs₁.trans hs').history
  refine .bind ((calm_queryOr _ _).ends (fun _ hs' => hcalm hs') fun outcome s₂ hs₂ => ?_)
  refine .bind (ends_escrowInverse (fun _ hs' => hcalm (hs₂.trans hs'))
    fun escrowed s₃ ev hs₃ hev hescrows => ?_)
  refine .bind ((calm_requireBody _).ends (fun _ hs' => hcalm (hs₂.trans (hs₃.trans hs')))
    fun _ s₄ hs₄ => ?_)
  refine .bind ((calm_casGuard _ _ _).ends
    (fun _ hs' => hcalm (hs₂.trans (hs₃.trans (hs₄.trans hs')))) fun state s₅ hs₅ => ?_)
  have hs₁₅ := hs₂.trans (hs₃.trans (hs₄.trans hs₅))
  obtain ⟨more, hmore, hspares⟩ := (hs₁.trans hs₁₅).history
  have hev₅ : ev ∈ more := by
    have hev₅ := (hs₁.trans hs₂).since_anti ((hs₄.trans hs₅).since_mono hev)
    rwa [since, hmore, List.drop_left] at hev₅
  cases state with
  | some state => exact .pure (hcalm hs₁₅)
  | none =>
    have hstops : ∀ {s' : Sys} {rest : List Event}, s'.history = s₅.history ++ rest →
        (∀ ev ∈ rest, ev.spares = true) → Judged w s id stamp none s' := by
      intro s' rest hs' hrest
      refine .of_spared ⟨more ++ rest, by rw [hs', hmore, List.append_assoc], fun ev hev => ?_⟩
      rcases List.mem_append.mp hev with hev | hev
      · exact hspares ev hev
      · exact hrest ev hev
    refine .bind (ends_announceApply (fun ev hev => hstops rfl ?_) (fun s' hs' => hstops hs' ?_)
      fun answer s' hs' htable => ?_)
    · rcases hev with rfl | rfl <;> simp [Event.spares]
    · simp [Event.spares]
    · have hannounced : s'.history = s.history ++
          (more ++ [.journal (.about id (.applyStarted entry.delta.cid) stamp)]) ++
          [.apply id entry.delta answer] := by
        rw [hs', hmore]
        simp only [List.append_assoc, List.cons_append, List.nil_append]
      have hspares' : ∀ ev ∈ more ++ [.journal (.about id (.applyStarted entry.delta.cid) stamp)],
          ev.spares = true := by
        intro ev hev
        rcases List.mem_append.mp hev with hev | hev
        · exact hspares ev hev
        · rw [List.mem_singleton.mp hev]
          rfl
      cases answer with
      | error why =>
        have hrow : id ∈ s'.engine.table :=
          htable id ((hs₁.trans hs₁₅).table
            (ExtTreeMap.mem_iff_isSome_getElem?.mpr (by rw [hentry]; rfl)))
        exact ends_failed hentry hrow hannounced hspares' ⟨ev, List.mem_append_left _ hev₅, hescrows⟩
      | ok applied =>
        have happlied : ∀ {s'' : Sys} {answer : Option Lifecycle}, Calm s' s'' →
            Judged w s id stamp answer s'' := by
          intro s'' answer hs''
          obtain ⟨rest, hrest, _⟩ := hs''.history
          have hhistory : s''.history = s.history ++
              (more ++ [.journal (.about id (.applyStarted entry.delta.cid) stamp)]) ++
              .apply id entry.delta (.ok applied) :: rest := by
            rw [hrest, hannounced, List.append_assoc]
            rfl
          exact .of_applied hhistory hspares'
        exact (calm_settleApplied _ _ _ _ _ _ _ _ _).ends (fun _ h => happlied h)
          fun _ _ h => happlied h

omit [Canon] in
theorem Engine.ends_expireIfDue {E : Sys → Prop} {Q : Bool → Sys → Prop}
    (hstop : ∀ s', Calm s s' → E s')
    (h : ∀ due s', Calm s s' → (∀ entry, s'.engine.table[id]? = some entry →
      entry.state = .canonicalized → s.engine.table[id]? = some entry) → Q due s') :
    Prog.Ends w (expireIfDue id stamp) s E Q := by
  refine .bind (ends_self ?_)
  split
  next => exact .pure (h _ s (.refl s) fun _ hentry _ => hentry)
  next due _ =>
    refine .ite (fun _ => .pure (h _ s (.refl s) fun _ hentry _ => hentry)) fun _ => ?_
    refine .bind (.bind (ends_noteThen_any (fun _ => hstop _ (.push rfl))
      (fun _ => hstop _ (.push rfl)) fun _ => .pure (.pure (h _ _ ?_ ?_))))
    · exact (Calm.noted s id stamp rfl).trans
        (.still rfl ((Unruled.onEntry _ _ _).after rfl rfl rfl rfl))
    · intro entry hentry hstate
      have hmodified : (s.engine.table.modify id fun entry =>
          Entry.at (.aborted .expired) stamp { entry with rollback := none })[id]? = some entry :=
        hentry
      rw [ExtTreeMap.getElem?_modify_self, Option.map_eq_some_iff] at hmodified
      obtain ⟨row, _, rfl⟩ := hmodified
      cases hstate

theorem Engine.ends_commit_judged (w : World) (s : Sys) (id : TransformationId)
    (stamp : Timestamp) (key : KeyId) :
    Prog.Ends w (commit id stamp key) s (Judged w s id stamp none)
      fun state => Judged w s id stamp (some state) := by
  have hcalm : ∀ {s' : Sys} {answer : Option Lifecycle}, Calm s s' →
      Judged w s id stamp answer s' := fun hs' => .of_spared hs'.history
  refine .bind (ends_expireIfDue (fun _ hs' => hcalm hs') fun _ s₁ hs₁ hkept => ?_)
  refine .bind (.bind (ends_self (.orThrow (fun _ => hcalm hs₁) fun entry hentry => ?_)))
  split
  next => exact .pure (hcalm hs₁)
  next => exact .pure (hcalm hs₁)
  next hstate =>
    have hfound := hkept entry hentry hstate
    refine .bind (.orThrow (fun _ => hcalm hs₁) fun canonicalCid _ => ?_)
    refine .bind (.orThrow (fun _ => hcalm hs₁) fun verdict _ => ?_)
    refine .bind ((calm_adapter _).ends (fun _ hs' => hcalm (hs₁.trans hs')) fun _ s₂ hs₂ => ?_)
    refine .bind ((calm_startCommitting _ _ _).ends
      (fun _ hs' => hcalm (hs₁.trans (hs₂.trans hs'))) fun _ s₃ hs₃ => ?_)
    refine .bind ((calm_casGuard _ _ _).ends
      (fun _ hs' => hcalm (hs₁.trans (hs₂.trans (hs₃.trans hs')))) fun state s₄ hs₄ => ?_)
    have hs₁₄ := hs₁.trans (hs₂.trans (hs₃.trans hs₄))
    cases state with
    | some state => exact .pure (hcalm hs₁₄)
    | none => exact ends_commitEscrow hfound hs₁₄
  next => exact ends_fail (hcalm hs₁)

/-- A commit whose apply failed sends the escrowed inverse over the world that apply left, read
twice as that, and over no other; where it does not send it, the row ends aborted with the one
cause recorded. -/
theorem compensation_spares_others {key : KeyId} {before after : List Event}
    {delta : PlannedDelta} {why : String}
    (hrun : ((commit id stamp key).final w s).history =
      s.history ++ before ++ .apply id delta (.error why) :: after)
    (hfirst : ∀ ev ∈ before, ev.spares = true) :
    ∃ entry escrowed, s.engine.table[id]? = some entry ∧ delta = entry.delta ∧
      (∃ ev ∈ before, Escrows id stamp escrowed ev) ∧
      Compensated w id stamp entry escrowed
        (s.history ++ before ++ [.apply id delta (.error why)]) after
        ((commit id stamp key).answer w s).toOption ((commit id stamp key).final w s) := by
  have hjudged : Judged w s id stamp ((commit id stamp key).answer w s).toOption
      ((commit id stamp key).final w s) := by
    have hends := ends_commit_judged w s id stamp key
    rw [Prog.Ends] at hends
    rw [Prog.answer, Prog.final]
    split at hends
    next heq => rw [heq]; exact hends
    next heq => rw [heq]; exact hends
  exact hjudged before after delta why hrun hfirst

end Walk

section Sent

open Tracefold.Ideal

/-- An object that a failed apply moves all the same, and that the inverse moves back. -/
def landedAndFailed : World := fun history =>
  { envAt (if history.countP (fun ev => !ev.spares) = 1 then 2 else 1) with
    apply := fun _ delta =>
      if delta.payload = [5] then .error ""
      else .ok ⟨delta.reference, fingerprintAt 1, ⟨[1]⟩, 0, none⟩ }

/-- An intent, up to its commit. -/
def canonicalized : List Action :=
  [.start 0 Ideal.config, .call 0 (.submit (intentFor 5) 0 0), .call 0 (.plan (intentFor 5) 0),
    .call 0 (.verify (idFor 5 1) 1 "k" none), .call 0 (.canonicalize (idFor 5 1) 1 none)]

/-- A failed apply of one transformation. -/
def Event.failsFor (id : TransformationId) : Event → Bool
  | .apply other _ (.error _) => other = id
  | _ => false

theorem compensation_spares_others_once :
    let p := Project.empty.run landedAndFailed canonicalized
    ∃ e, p.process 0 = some e ∧
      ∃ before after delta why,
        ((commit (idFor 5 1) 2 "k").final landedAndFailed ⟨p.history, p.disk, e⟩).history =
          p.history ++ before ++ .apply (idFor 5 1) delta (.error why) :: after ∧
        ∃ entry escrowed, Compensated landedAndFailed (idFor 5 1) 2 entry escrowed
          (p.history ++ before ++ [.apply (idFor 5 1) delta (.error why)]) after
          ((commit (idFor 5 1) 2 "k").answer landedAndFailed ⟨p.history, p.disk, e⟩).toOption
          ((commit (idFor 5 1) 2 "k").final landedAndFailed ⟨p.history, p.disk, e⟩) := by
  intro p
  have hfails : (p.process 0).any (fun e =>
      ((since ⟨p.history, p.disk, e⟩ ((commit (idFor 5 1) 2 "k").final landedAndFailed
        ⟨p.history, p.disk, e⟩)).find? fun ev => !ev.spares).any (Event.failsFor (idFor 5 1))) =
      true := by
    decide
  obtain ⟨e, he, hfails⟩ := (Option.any_eq_true ..).mp hfails
  obtain ⟨ev, hfind, hev⟩ := (Option.any_eq_true ..).mp hfails
  obtain ⟨_, before, after, hsplit, hbefore⟩ := List.find?_eq_some_iff_append.mp hfind
  have hgrows : p.history <+:
      ((commit (idFor 5 1) 2 "k").final landedAndFailed ⟨p.history, p.disk, e⟩).history := by
    have hheads : Fact (Policy.any.heads (idFor 5 1)) := ⟨trivial⟩
    have hmoves : Moves .any every landedAndFailed (commit (idFor 5 1) 2 "k")
        ⟨p.history, p.disk, e⟩ fun _ _ => True := moves_commit fun _ _ _ _ _ _ => trivial
    exact hmoves.history_grows
  cases ev with
  | apply other delta answer =>
    cases answer with
    | ok => cases hev
    | error why =>
      obtain rfl : other = idFor 5 1 := of_decide_eq_true hev
      obtain ⟨more, hmore⟩ := hgrows
      have hhistory : ((commit (idFor 5 1) 2 "k").final landedAndFailed
          ⟨p.history, p.disk, e⟩).history =
          p.history ++ before ++ .apply (idFor 5 1) delta (.error why) :: after := by
        rw [since, ← hmore, List.drop_left] at hsplit
        rw [← hmore, hsplit, List.append_assoc]
      obtain ⟨entry, escrowed, _, _, _, hcompensated⟩ :=
        compensation_spares_others hhistory fun ev hmem => by simpa using hbefore ev hmem
      exact ⟨e, he, before, after, delta, why, hhistory, entry, escrowed, hcompensated⟩
  | _ => cases hev

end Sent

end Tracefold
