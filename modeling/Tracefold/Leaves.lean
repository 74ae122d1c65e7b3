import Mathlib.Tactic.Common
import Tracefold.Files
import Tracefold.Ideal
import Tracefold.Lawful

/-! The leaves of the ledger and the `Committed` records of the journal. -/

namespace Tracefold

open Library Engine
open Std (ExtTreeMap)

theorem Lawful.canonicalized {notes : List Note} (h : Lawful notes)
    (hstate : stateOf? notes = some .committing) :
    ∃ cid enforced, .canonicalized cid enforced ∈ notes := by
  have hfound : ∃ n ∈ notes, ∃ cid enforced, n = .canonicalized cid enforced := by
    refine h.entered (P := fun state => state = .canonicalized ∨ state = .committing)
      (fun o n state hn hnext hp => ?_) hstate (.inr rfl)
    cases n with
    | canonicalized cid enforced => exact .inl ⟨cid, enforced, rfl⟩
    | provenanceDerived | inverseEscrowed | applyStarted | applyObserved | inverseCompleted =>
      exact .inr ⟨state, hnext, hp⟩
    | committingStarted =>
      obtain ⟨_, _, _, hnext', hedge⟩ := hn
      cases hnext'
      exact .inr ⟨_, hedge.to_committing rfl, .inl rfl⟩
    | verdict kind digest engaged =>
      have hcases := stateOfVerdict_cases kind
      cases hnext
      grind
    | humanDecision kind =>
      have hcases := stateOfVerdict_cases kind
      cases hnext
      grind
    | _ =>
      cases hnext
      rcases hp with h | h <;> cases h
  obtain ⟨_, hmem, cid, enforced, rfl⟩ := hfound
  exact ⟨cid, enforced, hmem⟩

theorem Lawful.committed {notes : List Note} (h : Lawful notes) {state : Lifecycle}
    (hstate : stateOf? notes = some state) (hs : state = .committed ∨ state = .superseded) :
    ∃ n, .committed n ∈ notes := by
  have hfound : ∃ n ∈ notes, ∃ m, n = .committed m := by
    refine h.entered (P := fun state => state = .committed ∨ state = .superseded)
      (fun o n state hn hnext hp => ?_) hstate hs
    cases n with
    | committed m => exact .inl ⟨m, rfl⟩
    | provenanceDerived | inverseEscrowed | applyStarted | applyObserved | inverseCompleted =>
      exact .inr ⟨state, hnext, hp⟩
    | superseded =>
      obtain ⟨_, _, _, hnext', hedge⟩ := hn
      cases hnext'
      exact .inr ⟨_, hedge.to_superseded rfl, .inl rfl⟩
    | verdict kind digest engaged =>
      have hcases := stateOfVerdict_cases kind
      cases hnext
      grind
    | humanDecision kind =>
      have hcases := stateOfVerdict_cases kind
      cases hnext
      grind
    | _ =>
      cases hnext
      rcases hp with h | h <;> cases h
  obtain ⟨_, hmem, m, rfl⟩ := hfound
  exact ⟨m, hmem⟩

theorem deltaCid_rowOf (id : TransformationId) {notes : List Note} {body : PlannedBody}
    (h : .planned body ∈ notes) :
    (rowOf id notes).deltaCid.isSome ∧ (rowOf id notes).fp0.isSome := by
  induction notes using List.reverseRecOn with
  | nil => cases h
  | append_singleton notes n ih =>
    rw [rowOf_append]
    rcases List.mem_append.mp h with h | h
    · have hrest := ih h
      cases n with
      | planned => exact ⟨rfl, rfl⟩
      | verdict kind digest engaged => cases engaged <;> exact hrest
      | _ => exact hrest
    · cases List.mem_singleton.mp h
      exact ⟨rfl, rfl⟩

theorem canonicalCid_rowOf (id : TransformationId) {notes : List Note} {cid : Cid}
    {enforced : Option Bool} (h : .canonicalized cid enforced ∈ notes) :
    (rowOf id notes).canonicalCid.isSome := by
  induction notes using List.reverseRecOn with
  | nil => cases h
  | append_singleton notes n ih =>
    rw [rowOf_append]
    rcases List.mem_append.mp h with h | h
    · have hrest := ih h
      cases n with
      | canonicalized => rfl
      | verdict kind digest engaged => cases engaged <;> exact hrest
      | _ => exact hrest
    · cases List.mem_singleton.mp h
      rfl

theorem Lawful.material_isSome {notes : List Note} (h : Lawful notes)
    (hstate : stateOf? notes = some .committing) (id : TransformationId) :
    (material (rowOf id notes)).isSome := by
  obtain ⟨body, hbody⟩ := h.planned (by rw [hstate]; nofun)
  obtain ⟨cid, enforced, hcid⟩ := h.canonicalized hstate
  obtain ⟨hdelta, hfp0⟩ := deltaCid_rowOf id hbody
  have hcanonical := canonicalCid_rowOf id hcid
  obtain ⟨deltaCid, hdelta⟩ := Option.isSome_iff_exists.mp hdelta
  obtain ⟨fp0, hfp0⟩ := Option.isSome_iff_exists.mp hfp0
  obtain ⟨canonicalCid, hcanonical⟩ := Option.isSome_iff_exists.mp hcanonical
  simp [material, hdelta, hfp0, hcanonical]

theorem plannedRecord_isSome {e : Engine} {id : TransformationId} {body : PlannedBody}
    (h : .planned body ∈ e.notes id) : (e.plannedRecord id).isSome := by
  obtain ⟨t, ht⟩ := mem_notesOf.mp h
  rw [plannedRecord, List.findSome?_isSome_iff]
  exact ⟨_, List.mem_reverse.mpr ht, by simp⟩

theorem seqOf?_eq_none {notes : List Note} : seqOf? notes = none ↔ ∀ n, .committed n ∉ notes := by
  induction notes using List.reverseRecOn with
  | nil => simp [seqOf?]
  | append_singleton notes note ih =>
    rw [seqOf?_append]
    cases note with
    | committed m =>
      refine ⟨fun h => ?_, fun h => absurd ?_ (h m)⟩
      · cases h
      · exact List.mem_append_right _ List.mem_cons_self
    | _ => simp [committedSeq, ih]

theorem mem_of_seqOf? {notes : List Note} {n : ℕ} (h : seqOf? notes = some n) :
    .committed n ∈ notes := by
  induction notes using List.reverseRecOn with
  | nil => cases h
  | append_singleton notes note ih =>
    rw [seqOf?_append] at h
    cases note with
    | committed m =>
      cases h
      exact List.mem_append_right _ List.mem_cons_self
    | _ => exact List.mem_append_left _ (ih h)

section Kept

variable [Canon]

variable {pol : Policy} {w : World} {id : TransformationId} {s s' : Sys}

/-- A leaf is appended for a row in `Committing` that had none, at the end of the ledger. -/
theorem Step.leafs (hstep : Step pol w id s s') {leaf : LedgerEntry}
    (hl : s'.engine.ledger = s.engine.ledger ++ [leaf]) :
    leaf.transformation = id ∧ leaf.index = s.engine.ledger.length ∧
      leafOf s.engine.ledger id = none ∧ stateOf? (s.engine.notes id) = some .committing ∧
      s'.history = s.history ++ [.leaf leaf] := by
  have hnone : s.engine.ledger ≠ s.engine.ledger ++ [leaf] := by simp
  cases hstep with
  | leafed entry outcome applied facts stamp hleaf =>
    cases List.append_cancel_left hl
    exact ⟨rfl, rfl, hleaf.noLeaf, hleaf.commit.state, rfl⟩
  | leafedAgain row delta applied facts stamp hid hleaf =>
    cases List.append_cancel_left hl
    exact ⟨rfl, rfl, hid ▸ hleaf.noLeaf, hid ▸ hleaf.resume.state, rfl⟩
  | _ => exact absurd hl hnone

theorem Step.commits (hstep : Step pol w id s s') {n : ℕ} {t : Timestamp}
    (hr : s'.engine.records = s.engine.records ++ [.about id (.committed n) t]) :
    ∃ leaf, leafOf s.engine.ledger id = some leaf ∧ leaf.index = n := by
  have hnone : s.engine.records ≠ s.engine.records ++ [.about id (.committed n) t] := by simp
  cases hstep with
  | committed leaf stamp hleaf hstate =>
    cases List.append_cancel_left hr
    exact ⟨leaf, hleaf, rfl⟩
  | _ =>
    first
    | exact absurd hr hnone
    | cases List.append_cancel_left hr

omit [Canon] in
theorem mem_of_leafOf {ledger : List LedgerEntry} {leaf : LedgerEntry}
    (h : leafOf ledger id = some leaf) : leaf ∈ ledger ∧ leaf.transformation = id :=
  ⟨List.mem_of_find?_eq_some h, by simpa using List.find?_some h⟩

omit [Canon] in
theorem leafOf_eq_none {ledger : List LedgerEntry} (h : leafOf ledger id = none) :
    ∀ leaf ∈ ledger, leaf.transformation ≠ id := by
  simpa [leafOf] using h

/-- The leaves of a ledger: one a transformation, each at its index. -/
structure Numbered (ledger : List LedgerEntry) : Prop where
  once : (ledger.map (·.transformation)).Nodup
  index : ∀ leaf ∈ ledger, ledger[leaf.index]? = some leaf

omit [Canon] in
theorem Numbered.unique {ledger : List LedgerEntry} (h : Numbered ledger) {a b : LedgerEntry}
    (ha : a ∈ ledger) (hb : b ∈ ledger) (hab : a.transformation = b.transformation) : a = b :=
  List.inj_on_of_nodup_map h.once ha hb hab

theorem Numbered.step (h : Numbered s.engine.ledger) (hstep : Step pol w id s s') :
    Numbered s'.engine.ledger := by
  cases hstep.writes with
  | nothing _ _ hl | record _ _ _ hl =>
    rw [hl]
    exact h
  | leaf leaf _ _ hl =>
    obtain ⟨hid, hindex, hnone, _, _⟩ := hstep.leafs hl
    rw [hl]
    refine ⟨?_, fun other hother => ?_⟩
    · rw [List.map_append, List.nodup_append]
      refine ⟨h.once, List.nodup_singleton _, fun a ha b hb => ?_⟩
      obtain ⟨other, hother, rfl⟩ := List.mem_map.mp ha
      rw [List.map_singleton, List.mem_singleton] at hb
      rw [hb, hid]
      exact leafOf_eq_none hnone other hother
    · rcases List.mem_append.mp hother with hold | hnew
      · have hget := h.index other hold
        rw [List.getElem?_append_left (List.getElem?_eq_some_iff.mp hget).1]
        exact hget
      · obtain rfl := List.mem_singleton.mp hnew
        rw [hindex]
        exact List.getElem?_concat_length

/-- Every `Committed` record names a leaf of its transformation. -/
def RecordsLeaves (records : List Record) (ledger : List LedgerEntry) : Prop :=
  ∀ id n, .committed n ∈ notesOf id records →
    ∃ leaf ∈ ledger, leaf.transformation = id ∧ leaf.index = n

theorem RecordsLeaves.step (h : RecordsLeaves s.engine.records s.engine.ledger)
    (hstep : Step pol w id s s') : RecordsLeaves s'.engine.records s'.engine.ledger := by
  have hmono : ∀ leaf ∈ s.engine.ledger, leaf ∈ s'.engine.ledger := by
    intro leaf hleaf
    cases hstep.writes with
    | nothing _ _ hl | record _ _ _ hl => rwa [hl]
    | leaf _ _ _ hl =>
      rw [hl]
      exact List.mem_append_left _ hleaf
  intro other n hn
  have hold : .committed n ∈ s.engine.notes other →
      ∃ leaf ∈ s'.engine.ledger, leaf.transformation = other ∧ leaf.index = n := by
    intro hmem
    obtain ⟨leaf, hleaf, hfacts⟩ := h other n hmem
    exact ⟨leaf, hmono leaf hleaf, hfacts⟩
  rcases hstep.notes other with hsame | ⟨rfl, note, t, hr, hnotes⟩
  · exact hold (hsame ▸ hn)
  · have hn' : .committed n ∈ s'.engine.notes other := hn
    rw [hnotes] at hn'
    rcases List.mem_append.mp hn' with hmem | hmem
    · exact hold hmem
    · obtain rfl := List.mem_singleton.mp hmem
      obtain ⟨leaf, hleaf, hindex⟩ := hstep.commits hr
      obtain ⟨hmem', hid⟩ := mem_of_leafOf hleaf
      exact ⟨leaf, hmono leaf hmem', hid, hindex⟩

/-- A leaf whose `Committed` record is in the journal, or is about to be: its row is in the
attempt the leaf was appended in. -/
def Answered (history : List Event) (records : List Record) (leaf : LedgerEntry) : Prop :=
  seqOf? (notesOf leaf.transformation records) = some leaf.index ∨
    seqOf? (notesOf leaf.transformation records) = none ∧
    stateOf? (notesOf leaf.transformation records) = some .committing ∧
    .leaf leaf ∈ attemptEvents leaf.transformation history

/-- A run whose plans leave a row alone that has a leaf and no `Committed` record. -/
def leafedOnly : Policy where
  plans e id := (leafOf e.ledger id).isSome → (seqOf? (e.notes id)).isSome
  undos _ _ := True
  reapplies _ _ := True
  commits _ _ := True

/-- A row with a leaf that waits for its `Committed` record is not aborted. -/
theorem MayAbort.leafless_of_committing (h : MayAbort s id) (hs : Synced s.engine)
    (hl : Lawful (s.engine.notes id)) (hstate : stateOf? (s.engine.notes id) = some .committing)
    {leaf : LedgerEntry} (hleaf : leaf ∈ s.engine.ledger) (hid : leaf.transformation = id) :
    .leaf leaf ∉ attemptEvents id s.history := by
  have hlive : ∀ entry, s.engine.table[id]? = some entry → entry.state = .committing ∨
      ∃ reason, entry.state = .aborted reason := by
    intro entry hentry
    by_contra hne
    rw [not_or, not_exists] at hne
    have heq := ((hs.row id).state entry hentry).eq_of_ne hne.1 hne.2
    rw [hstate] at heq
    exact hne.1 (Option.some.inj heq).symm
  cases h with
  | due entry hentry hstates | verifying entry hentry hstates | owner entry hentry hstates =>
    exfalso
    rcases hlive entry hentry with h | ⟨reason, h⟩ <;> simp [h] at hstates
  | dueShadow hstates =>
    exfalso
    have hlags := (hs.row id).shadow
    rw [hstate] at hlags
    rcases hstates with h | h | h
    · cases (hlags.eq_of_ne (by rw [h]; nofun)).trans h
    · cases (hlags.eq_of_ne (by rw [h]; nofun)).trans h
    · cases (hlags.eq_of_ne (by rw [h]; nofun)).trans h
  | commit entry hc => exact fun hmem => hc.noLeaf leaf hmem hid
  | leafless row hr hrow hnone => exact absurd hid (leafOf_eq_none hnone leaf hleaf)
  | immaterial row hr hrow hm =>
    exfalso
    obtain ⟨body, hbody⟩ := hl.planned (by rw [hstate]; nofun)
    rcases hm with hm | hm
    · have hsome := hl.material_isSome hstate id
      rw [show material (rowOf id (s.engine.notes id)) = none from hm] at hsome
      cases hsome
    · have hsome := plannedRecord_isSome hbody
      rw [hm] at hsome
      cases hsome

omit [Canon] in
theorem Legal.of_committing {n : Note} (h : Legal (some .committing) n) :
    (n.next (some .committing) = some .committing ∧ n.starts = false ∧
        ∀ held, committedSeq held n = held) ∨
      (∃ m, n = .committed m) ∨ (∃ reason rollback, n = .aborted reason rollback) ∨
      ∃ body, n = .planned body := by
  cases n with
  | provenanceDerived | inverseEscrowed | applyStarted | applyObserved | inverseCompleted =>
    exact .inl ⟨rfl, rfl, fun _ => rfl⟩
  | committed m => exact .inr (.inl ⟨m, rfl⟩)
  | aborted reason rollback => exact .inr (.inr (.inl ⟨reason, rollback, rfl⟩))
  | planned body => exact .inr (.inr (.inr ⟨body, rfl⟩))
  | committingStarted =>
    obtain ⟨_, _, _, hnext, hedge⟩ := h
    cases hnext
    cases hedge.to_committing rfl
  | superseded =>
    obtain ⟨_, _, _, hnext, hedge⟩ := h
    cases hnext
    cases hedge.to_superseded rfl
  | verdict kind | humanDecision kind =>
    obtain ⟨_, state, _, hnext, hedge⟩ := h
    have hcases := stateOfVerdict_cases kind
    rw [Note.next] at hnext
    cases hedge with
    | committed | aborted => grind
  | _ =>
    obtain ⟨_, state, _, hnext, hedge⟩ := h
    cases hedge with
    | committed | aborted => cases hnext

theorem Step.aborts (hstep : Step pol w id s s') {reason : AbortReason}
    {rollback : Option Rollback} {t : Timestamp}
    (hr : s'.engine.records = s.engine.records ++ [.about id (.aborted reason rollback) t]) :
    MayAbort s id := by
  have hnone : s.engine.records ≠ s.engine.records ++ [.about id (.aborted reason rollback) t] := by
    simp
  cases hstep with
  | aborted reason' rollback' stamp hmay => exact hmay
  | unverified entry reason' stamp hlive hstate => exact .verifying entry hlive hstate
  | _ =>
    first
    | exact absurd hr hnone
    | cases List.append_cancel_left hr

theorem Step.plans_committing [Canon.CollisionFree] (hs : Synced s.engine) (hi : Indexed s.engine)
    (hl : Lawful (s.engine.notes id)) (hstate : stateOf? (s.engine.notes id) = some .committing)
    (hstep : Step pol w id s s') {body : PlannedBody} {t : Timestamp}
    (hr : s'.engine.records = s.engine.records ++ [.about id (.planned body) t]) :
    pol.plans s.engine id := by
  have hnone : s.engine.records ≠ s.engine.records ++ [.about id (.planned body) t] := by simp
  cases hstep with
  | planned intent shape stamp hid hsound hdraft halready hresolved hanew hpol => exact hpol
  | undone original entry inverse fp0 pre t' stage witness stamp horiginal hcommitted hescrow hid
      hmints hpre hundo =>
    rcases undo_replans hs hi (hid ▸ hmints.names) hl hundo with h | h | ⟨reason, h⟩ <;>
      · rw [hstate] at h
        cases h
  | _ =>
    first
    | exact absurd hr hnone
    | cases List.append_cancel_left hr

theorem Answered.step [Canon.CollisionFree] (hs : Synced s.engine) (hi : Indexed s.engine)
    (hl : ∀ other, Lawful (s.engine.notes other)) (hnum : Numbered s.engine.ledger)
    {leaf : LedgerEntry} (hleaf : leaf ∈ s.engine.ledger)
    (h : Answered s.history s.engine.records leaf) (hstep : Step leafedOnly w id s s') :
    Answered s'.history s'.engine.records leaf := by
  rcases hstep.notes leaf.transformation with hsame | ⟨hid, n, t, hr, hnotes⟩
  · rw [Answered, show notesOf leaf.transformation s'.engine.records = _ from hsame]
    refine h.imp_right fun ⟨hseq, hstate, hmem⟩ => ⟨hseq, hstate, ?_⟩
    refine hstep.mem_attemptEvents hmem fun n t hr => ?_
    rw [Engine.notes, hr, notesOf_append, notesOf_about] at hsame
    simp at hsame
  · subst hid
    have hcommitted : ∀ m, n = .committed m → m = leaf.index := by
      rintro m rfl
      obtain ⟨leaf', hleaf', hindex⟩ := hstep.commits hr
      obtain ⟨hmem', hid'⟩ := mem_of_leafOf hleaf'
      rw [← hindex, hnum.unique hmem' hleaf hid']
    rw [Answered, show notesOf leaf.transformation s'.engine.records = _ from hnotes, seqOf?_append,
      stateOf?_append]
    rcases h with hseq | ⟨hseq, hstate, hmem⟩
    · refine .inl ?_
      rw [show seqOf? (s.engine.notes leaf.transformation) = some leaf.index from hseq]
      cases n with
      | committed m => rw [hcommitted m rfl]; rfl
      | _ => rfl
    · have hlegal := hstep.legal hs hr
      rw [show stateOf? (s.engine.notes leaf.transformation) = _ from hstate] at hlegal ⊢
      rcases hlegal.of_committing with ⟨hnext, hstarts, hsilent⟩ | ⟨m, rfl⟩ | ⟨_, _, rfl⟩ | ⟨_, rfl⟩
      · refine .inr ⟨by rw [hsilent]; exact hseq, hnext, hstep.mem_attemptEvents hmem ?_⟩
        intro n' t' hr'
        rw [hr] at hr'
        cases List.append_cancel_left hr'
        exact hstarts
      · rw [hcommitted m rfl]
        exact .inl rfl
      · exact absurd hmem ((hstep.aborts hr).leafless_of_committing hs (hl _) hstate hleaf rfl)
      · have hplans := Step.plans_committing hs hi (hl _) hstate hstep hr
        have hsome : (leafOf s.engine.ledger leaf.transformation).isSome := by
          rw [leafOf, List.find?_isSome]
          exact ⟨leaf, hleaf, by simp⟩
        have hseq' := hplans hsome
        rw [show seqOf? (s.engine.notes leaf.transformation) = none from hseq] at hseq'
        cases hseq'

theorem Answered.leafed (hrec : RecordsLeaves s.engine.records s.engine.ledger)
    (hstep : Step pol w id s s') {leaf : LedgerEntry}
    (hl : s'.engine.ledger = s.engine.ledger ++ [leaf])
    (hr : s'.engine.records = s.engine.records) : Answered s'.history s'.engine.records leaf := by
  obtain ⟨rfl, _, hnone, hstate, hh⟩ := hstep.leafs hl
  refine .inr ⟨?_, ?_, ?_⟩
  · rw [hr, seqOf?_eq_none]
    intro n hn
    obtain ⟨other, hother, hid, _⟩ := hrec _ n hn
    exact leafOf_eq_none hnone other hother hid
  · rw [hr]
    exact hstate
  · rw [hh, attemptEvents, afterLast_unmarked rfl]
    exact List.mem_append_right _ List.mem_cons_self

/-- The process's map of commits is that of the journal. -/
def Counted (e : Engine) : Prop := ∀ id, e.committed[id]? = seqOf? (e.notes id)

theorem Counted.openThrough (config : Config) (disk : Disk) :
    Counted (Engine.openThrough config disk) :=
  fun id => SigmaShadow.ledger_ofRecords disk.journal id

theorem Counted.step (h : Counted s.engine) (hstep : Step pol w id s s') : Counted s'.engine := by
  have hkept : s'.engine.committed = s.engine.committed → (∀ n t,
      s'.engine.records ≠ s.engine.records ++ [.about id (.committed n) t]) → Counted s'.engine := by
    intro hsame hquiet other
    rw [hsame, h other]
    rcases hstep.notes other with hnotes | ⟨rfl, n, t, hr, hnotes⟩
    · rw [hnotes]
    · rw [hnotes, seqOf?_append]
      cases n with
      | committed m => exact absurd hr (hquiet m t)
      | _ => rfl
  have hnone : ∀ n t, s.engine.records ≠ s.engine.records ++ [.about id (.committed n) t] := by simp
  have hinsert : ∀ n, s'.engine.committed = s.engine.committed.insert id n →
      seqOf? (s'.engine.notes id) = some n → Counted s'.engine := by
    intro n hinserted hseq other
    rw [hinserted, ExtTreeMap.getElem?_insert]
    by_cases hne : id = other
    · subst hne
      simp [hseq]
    · rw [(hstep.frame hne).notes, ← h other]
      simp [hne]
  cases hstep with
  | committed leaf stamp hleaf hstate =>
    refine hinsert leaf.index rfl ?_
    exact (congrArg seqOf? (Sys.notes_note s id _ stamp)).trans (seqOf?_append _ _)
  | indexed seq hseq => exact hinsert seq rfl hseq
  | _ =>
    refine hkept rfl fun n t hr => ?_
    first
    | exact absurd hr (hnone n t)
    | cases List.append_cancel_left hr

/-- The commits a process knows of are the leaves of the ledger. -/
def CommitsAreLeaves (e : Engine) : Prop :=
  ∀ id n, e.committed[id]? = some n ↔ ∃ leaf ∈ e.ledger, leaf.transformation = id ∧ leaf.index = n

omit [Canon] in
theorem commitsAreLeaves {e : Engine} (hc : Counted e) (hrec : RecordsLeaves e.records e.ledger)
    (h : ∀ leaf ∈ e.ledger, seqOf? (e.notes leaf.transformation) = some leaf.index) :
    CommitsAreLeaves e := by
  intro id n
  rw [hc id]
  refine ⟨fun hseq => hrec id n (mem_of_seqOf? hseq), ?_⟩
  rintro ⟨leaf, hleaf, rfl, rfl⟩
  exact h leaf hleaf

omit [Canon] in
theorem CommitsAreLeaves.size_eq {e : Engine} (h : CommitsAreLeaves e) (hnum : Numbered e.ledger) :
    e.committed.size = e.ledger.length := by
  have hperm : e.committed.keys.Perm (e.ledger.map (·.transformation)) := by
    rw [List.perm_ext_iff_of_nodup ExtTreeMap.nodup_keys hnum.once]
    intro id
    rw [ExtTreeMap.mem_keys, ExtTreeMap.mem_iff_isSome_getElem?, Option.isSome_iff_exists,
      List.mem_map]
    constructor
    · rintro ⟨n, hn⟩
      obtain ⟨leaf, hleaf, hid, _⟩ := (h id n).mp hn
      exact ⟨leaf, hleaf, hid⟩
    · rintro ⟨leaf, hleaf, hid⟩
      exact ⟨leaf.index, (h id _).mpr ⟨leaf, hleaf, hid, rfl⟩⟩
  rw [← ExtTreeMap.length_keys, hperm.length_eq, List.length_map]

theorem CommitsAreLeaves.ledgerAgrees {e : Engine} (h : CommitsAreLeaves e)
    (hnum : Numbered e.ledger) (hun : Unrolled e) : ledgerAgrees e = true := by
  have hsize := h.size_eq hnum
  have hall : ∀ entry ∈ e.committed.toList,
      (e.ledger[entry.2]?.any fun leaf => leaf.transformation = entry.1) = true := by
    rintro ⟨id, n⟩ hmem
    obtain ⟨leaf, hleaf, hid, rfl⟩ :=
      (h id n).mp (ExtTreeMap.mem_toList_iff_getElem?_eq_some.mp hmem)
    simp [hnum.index leaf hleaf, hid]
  have hroot : rootAt e.ledger e.committed.size = mth (e.ledger.map (·.leafCid)) := by
    rw [hsize, rootAt, List.take_length]
    split
    next hcond =>
      have hnil : e.ledger = [] := by
        rcases hcond with hzero | hlt
        · exact List.eq_nil_of_length_eq_zero hzero
        · exact absurd hlt (Nat.lt_irrefl _)
      rw [hnil]
      rfl
    next => rfl
  rw [Engine.ledgerAgrees, hun.departed, hun.rolled]
  simp only [Bool.not_false, Bool.true_and, Bool.and_eq_true, decide_eq_true_eq]
  exact ⟨⟨hsize, List.all_eq_true.mpr hall⟩, hroot⟩

/-- What the files of a project keep of its commits. -/
structure FilesLeafed (history : List Event) (disk : Disk) : Prop where
  floored : Floored disk
  lawful : ∀ id, Lawful (notesOf id disk.journal)
  named : ∀ id body, .planned body ∈ notesOf id disk.journal → Named id body
  numbered : Numbered disk.ledger
  records : RecordsLeaves disk.journal disk.ledger
  answered : ∀ leaf ∈ disk.ledger, Answered history disk.journal leaf

/-- What a process keeps of them. -/
structure ProcessLeafed (e : Engine) : Prop where
  unrolled : Unrolled e
  synced : Synced e
  indexed : Indexed e
  counted : Counted e

omit [Canon] in
theorem Numbered.nil : Numbered [] := ⟨List.nodup_nil, fun _ h => nomatch h⟩

theorem FilesLeafed.empty : FilesLeafed [] .empty := by
  refine ⟨Floored.empty, fun _ => Lawful.nil, fun id body h => ?_, Numbered.nil, fun id n h => ?_,
    fun leaf h => ?_⟩
  · cases h
  · cases h
  · cases h

theorem leaves_kept [Canon.CollisionFree] (w : World) :
    Project.Kept w leafedOnly FilesLeafed (fun s => ProcessLeafed s.engine) where
  init := .empty
  opens _ disk config hd := ⟨Unrolled.openThrough hd.floored config,
    Synced.openThrough config disk, Indexed.openThrough config hd.named,
    Counted.openThrough config disk⟩
  step id s s' hin hd he hstep := by
    obtain ⟨hfloored, hlawful, hnamed, hnum, hrec, hans⟩ := hd
    obtain ⟨hun, hs, hi, hcounted⟩ := he
    rw [← hin.records] at hlawful hnamed
    rw [← hin.ledger] at hnum
    rw [← hin.records, ← hin.ledger] at hrec
    rw [← hin.ledger, ← hin.records] at hans
    have hin' := hin.writes hstep.writes
    have hi' := hi.step hstep
    refine ⟨⟨hfloored.step hin hstep, ?_, ?_, ?_, ?_, ?_⟩, hun.step hstep, hs.step hstep, hi',
      hcounted.step hstep⟩
    · rw [← hin'.records]
      exact Lawful.step hs hstep hlawful
    · rw [← hin'.records]
      exact hi'.named
    · rw [← hin'.ledger]
      exact hnum.step hstep
    · rw [← hin'.records, ← hin'.ledger]
      exact hrec.step hstep
    · rw [← hin'.ledger, ← hin'.records]
      have hold : ∀ leaf ∈ s.engine.ledger, Answered s'.history s'.engine.records leaf :=
        fun leaf hleaf => (hans leaf hleaf).step hs hi hlawful hnum hleaf hstep
      intro leaf hleaf
      cases hstep.writes with
      | nothing _ _ hl | record _ _ _ hl => exact hold leaf (hl ▸ hleaf)
      | leaf new hr _ hl =>
        rw [hl] at hleaf
        rcases List.mem_append.mp hleaf with hmem | hmem
        · exact hold leaf hmem
        · obtain rfl := List.mem_singleton.mp hmem
          exact Answered.leafed hrec hstep hl hr

/-- Every commit has exactly one leaf, at the index its `Committed` record carries. -/
structure LedgerExact (disk : Disk) : Prop where
  once : (disk.ledger.map (·.transformation)).Nodup
  committed : ∀ id state, sigmaState disk.journal id = some state →
    state = .committed ∨ state = .superseded →
    ∃ leaf ∈ disk.ledger, leaf.transformation = id ∧ disk.ledger[leaf.index]? = some leaf ∧
      .committed leaf.index ∈ notesOf id disk.journal ∧
      ∀ n, .committed n ∈ notesOf id disk.journal → n = leaf.index

theorem FilesLeafed.exact {history : List Event} {disk : Disk} (h : FilesLeafed history disk) :
    LedgerExact disk := by
  refine ⟨h.numbered.once, fun id state hstate hterminal => ?_⟩
  rw [sigmaState_eq] at hstate
  obtain ⟨n, hn⟩ := (h.lawful id).committed hstate hterminal
  obtain ⟨leaf, hleaf, hid, rfl⟩ := h.records id n hn
  refine ⟨leaf, hleaf, hid, h.numbered.index leaf hleaf, hn, fun m hm => ?_⟩
  obtain ⟨other, hother, hid', rfl⟩ := h.records id m hm
  rw [h.numbered.unique hother hleaf (hid'.trans hid.symm)]

omit [Canon] in
theorem RowsResumed.answered {out : List Recovered}
    (h : RowsResumed (reconstruct s.engine.records).transformations s out s')
    (hout : ∀ r ∈ out, r.path ≠ .notResumed) {leaf : LedgerEntry}
    (hans : Answered s'.history s'.engine.records leaf) :
    seqOf? (s'.engine.notes leaf.transformation) = some leaf.index := by
  rcases hans with hseq | ⟨_, hstate, _⟩
  · exact hseq
  · exfalso
    by_cases hrow : ∃ row ∈ (reconstruct s.engine.records).transformations,
        row.transformation = leaf.transformation
    · obtain ⟨row, hrow, hid⟩ := hrow
      rw [← hid] at hstate
      by_cases hcommitting : row.state = some .committing
      · obtain ⟨recovered, hrecovered, _, hclosed, _⟩ := h.row row hrow hcommitting
        obtain ⟨hfinal, hne⟩ := hclosed (hout recovered hrecovered)
        rw [show stateOf? (s'.engine.notes row.transformation) = _ from hstate] at hfinal
        exact hne (Option.some.inj hfinal).symm
      · have hkept := (h.settled row hrow hcommitting).notes
        rw [show notesOf row.transformation s'.engine.records = _ from hkept,
          ← state_rowOf row.transformation] at hstate
        rw [(mem_transformations hrow).2] at hcommitting
        exact hcommitting hstate
    · have hkept := (h.frame leaf.transformation fun row hmem hid => hrow ⟨row, hmem, hid⟩).notes
      rw [show notesOf leaf.transformation s'.engine.records = _ from hkept,
        show stateOf? (s.engine.notes leaf.transformation) = _ from
          (sigmaState_eq s.engine.records leaf.transformation).symm] at hstate
      obtain ⟨row, hmem, hid, _⟩ := row_of_sigmaState hstate
      exact hrow ⟨row, hmem, hid⟩

/-- `plan` does not mint the id of a transformation that has a leaf and no `Committed` record,
where neither of its guards stops it and it does not rehydrate the last resolution of the
intent. -/
def PlansUnleafed (w : World) (p : Project) (a : Action) : Prop :=
  ∀ s intent stamp, p.calls a = some (s, .plan intent stamp) →
    ∀ shape, (planShape intent stamp).answer w s = .ok shape →
      s.engine.plannedAlready (Canon.intent intent) = none →
      s.engine.resolvedAlready (Canon.intent intent) shape.id = none →
      s.engine.rehydrating (Canon.intent intent) shape.id = false →
      (leafOf s.engine.ledger shape.id).isSome → (seqOf? (s.engine.notes shape.id)).isSome

/-- In a run of one process with crashes and restarts whose plans leave such rows alone, every
commit has exactly one leaf; and a recovery that answers and resumes every row leaves the commits
and the leaves in bijection. -/
theorem one_leaf_a_commit [Canon.CollisionFree] {w : World} {p : Project}
    (h : Project.empty.Reaches w (fun p a => a.Solo ∧ PlansUnleafed w p a) p) :
    LedgerExact p.disk ∧
      ∀ e, p.process 0 = some e → ∀ stamp key out,
        (recover stamp key).answer w ⟨p.history, p.disk, e⟩ = .ok out →
        (∀ r ∈ out, r.path ≠ .notResumed) →
        CommitsAreLeaves ((recover stamp key).final w ⟨p.history, p.disk, e⟩).engine ∧
          ledgerAgrees ((recover stamp key).final w ⟨p.history, p.disk, e⟩).engine = true := by
  have hkept := (leaves_kept w).solo h (fun _ _ ha => ha.1) fun p a ha s op hcalls => ?_
  · refine ⟨hkept.1.exact, fun e he stamp key out hanswer hout => ?_⟩
    obtain ⟨hin, hprocess⟩ := hkept.2 e he
    have hmoves : Moves leafedOnly every w (recover stamp key) ⟨p.history, p.disk, e⟩
        (RowsResumed (reconstruct e.records).transformations ⟨p.history, p.disk, e⟩) := by
      refine moves_recover (fun _ _ _ _ _ => trivial) (fun _ _ _ => trivial)
        (fun out hrefused => ?_) fun _ _ h => h
      rw [hprocess.unrolled.departed, hprocess.unrolled.rolled] at hrefused
      cases hrefused
    obtain ⟨hin', hfiles, hprocess'⟩ := (leaves_kept w).moves hin hkept.1 hprocess hmoves.steps
    have hnum := hfiles.numbered
    have hrec := hfiles.records
    have hans := hfiles.answered
    rw [← hin'.ledger] at hnum
    rw [← hin'.records, ← hin'.ledger] at hrec
    rw [← hin'.ledger, ← hin'.records] at hans
    have hcommits : CommitsAreLeaves ((recover stamp key).final w ⟨p.history, p.disk, e⟩).engine :=
      commitsAreLeaves hprocess'.counted hrec fun leaf hleaf =>
        RowsResumed.answered (s := ⟨p.history, p.disk, e⟩) (hmoves.answer hanswer) hout
          (hans leaf hleaf)
    exact ⟨hcommits, hcommits.ledgerAgrees hnum hprocess'.unrolled⟩
  · cases op with
    | plan intent stamp => exact ha.2 s intent stamp hcalls
    | undo original witness rngSeed stamp => exact fun _ _ _ _ _ _ => trivial
    | commit id stamp key => exact fun _ _ _ _ _ _ => trivial
    | recover stamp key => exact fun _ _ _ _ _ => trivial
    | canonicalize => exact fun _ _ _ _ => trivial
    | _ => trivial

end Kept

section Rewound

open Tracefold.Ideal

/-- The object is at its second version for one plan, and the process dies between the leaf and
its `Committed` record. -/
def leafedAlone : World := fun history =>
  if 6 ≤ history.length ∧ history.length < 10 then envAt 2
  else if history.length = 28 then { envAt 1 with fault := .crash }
  else envAt 1

/-- The intent is planned over both versions and its first plan is committed up to the leaf; after
a restart the intent is planned over the first version again. -/
def leafReplanned : List Action :=
  [.start 0 config, .call 0 (.submit intent 0 0), .call 0 (.plan intent 0),
    .call 0 (.plan intent 0)] ++ committing (idAt 1) ++ [.start 0 config, .call 0 (.plan intent 3)]

/-- A recovery that resumes every row leaves a leaf without its commit. -/
theorem leaf_without_a_commit :
    ¬ ∀ (w : World) (p : Project), Project.empty.Reaches w (fun _ a => a.Solo) p →
      ∀ e, p.process 0 = some e → ∀ stamp key out,
        (recover stamp key).answer w ⟨p.history, p.disk, e⟩ = .ok out →
        (∀ r ∈ out, r.path ≠ .notResumed) →
        ledgerAgrees ((recover stamp key).final w ⟨p.history, p.disk, e⟩).engine = true := by
  intro h
  have hreached : Project.empty.Reaches leafedAlone (fun _ a => a.Solo)
      (Project.empty.run leafedAlone leafReplanned) :=
    Project.reaches_run fun a ha _ => (by decide : ∀ a ∈ leafReplanned, a.Solo) a ha
  have hanswer : ((Project.empty.run leafedAlone leafReplanned).process 0).map (fun e =>
      ((recover 9 "k").answer leafedAlone ⟨(Project.empty.run leafedAlone leafReplanned).history,
        (Project.empty.run leafedAlone leafReplanned).disk, e⟩).toOption.map List.isEmpty) =
          some (some true) := by
    decide
  have hagrees : ((Project.empty.run leafedAlone leafReplanned).process 0).map (fun e =>
      ledgerAgrees ((recover 9 "k").final leafedAlone
        ⟨(Project.empty.run leafedAlone leafReplanned).history,
          (Project.empty.run leafedAlone leafReplanned).disk, e⟩).engine) = some false := by
    decide
  obtain ⟨e, he, hfinal⟩ := Option.map_eq_some_iff.mp hagrees
  rw [he, Option.map_some, Option.some.injEq, Option.map_eq_some_iff] at hanswer
  obtain ⟨out, hout, hempty⟩ := hanswer
  obtain rfl := List.isEmpty_iff.mp hempty
  have htrue := h leafedAlone _ hreached e he 9 "k" [] (Prog.ok_of_toOption hout) (by simp)
  rw [hfinal] at htrue
  cases htrue

/-- The process dies between the leaf and its `Committed` record. -/
def dyingLate : World := objectFrom 2 fun now env =>
  if now = 25 then { env with fault := .crash } else env

theorem one_leaf_a_commit_restarted :
    ∃ e, (Project.empty.run dyingLate (committed 2 ++ [.start 0 config])).process 0 = some e ∧
      ledgerAgrees e = false ∧
      ledgerAgrees ((recover 9 "k").final dyingLate
        ⟨(Project.empty.run dyingLate (committed 2 ++ [.start 0 config])).history,
          (Project.empty.run dyingLate (committed 2 ++ [.start 0 config])).disk, e⟩).engine =
        true := by
  have hreached : Project.empty.Reaches dyingLate (fun p a => a.Solo ∧ PlansUnleafed dyingLate p a)
      (Project.empty.run dyingLate (committed 2 ++ [.start 0 config])) := by
    refine Project.Reaches.refl.run ⟨⟨rfl, ?_⟩, ⟨rfl, ?_⟩, ⟨rfl, ?_⟩, ⟨rfl, ?_⟩, ⟨rfl, ?_⟩,
      ⟨rfl, ?_⟩, ⟨rfl, ?_⟩, trivial⟩
    case refine_3 =>
      intro s intent stamp hcalls shape _ _ _ _ hleaf
      cases hcalls
      cases hleaf
    all_goals
      intro s intent stamp hcalls
      cases Project.calls_op hcalls
  have hanswer : ((Project.empty.run dyingLate (committed 2 ++ [.start 0 config])).process 0).map
      (fun e => ((recover 9 "k").answer dyingLate
        ⟨(Project.empty.run dyingLate (committed 2 ++ [.start 0 config])).history,
          (Project.empty.run dyingLate (committed 2 ++ [.start 0 config])).disk, e⟩).toOption.map
        (·.all (·.path ≠ .notResumed))) = some (some true) := by decide +kernel
  have hagrees : ((Project.empty.run dyingLate (committed 2 ++ [.start 0 config])).process 0).map
      ledgerAgrees = some false := by decide +kernel
  obtain ⟨e, he, hbefore⟩ := Option.map_eq_some_iff.mp hagrees
  rw [he, Option.map_some, Option.some.injEq, Option.map_eq_some_iff] at hanswer
  obtain ⟨out, hout, hresumed⟩ := hanswer
  refine ⟨e, he, hbefore, ((one_leaf_a_commit hreached).2 e he 9 "k" out ?_ ?_).2⟩
  · exact Prog.ok_of_toOption hout
  · simpa using hresumed

end Rewound

end Tracefold
