import Mathlib.Tactic.Common
import Tracefold.Announced
import Tracefold.Heads
import Tracefold.Locked

/-! Nothing is applied and nothing enters the ledger that was not ruled on. -/

namespace Tracefold

open Library Engine

/-- A ruling that lets a row go on: the gate's, with its proof, none where the fail posture passes
over an unreachable collector, or a decision of an escalated row. -/
inductive Note.Admission : Note → Prop where
  | ruled (proof : Cid) : Admission (.verdict .Admit (some proof) false)
  | passed : Admission (.verdict .Admit none true)
  | decided (reason : String) (actor : Actor) (proof : Cid) :
      Admission (.humanDecision .Admit reason actor (some proof))

/-- A ruling that denies a row. -/
inductive Note.Refusal : Note → Prop where
  | ruled (proof : Cid) : Refusal (.verdict .Deny (some proof) false)
  | decided (reason : String) (actor : Actor) (proof : Cid) :
      Refusal (.humanDecision .Deny reason actor (some proof))

/-- A ruling and what canonicalization made of it: a denied row goes on only as one that is recorded
and not enforced. -/
inductive Warrant : Note → Option Bool → Prop where
  | admitted {ruling : Note} {enforced : Option Bool} (h : ruling.Admission) :
      Warrant ruling enforced
  | recorded {ruling : Note} (h : ruling.Refusal) : Warrant ruling (some false)

/-- A note of a commit under way. -/
def Note.works : Note → Bool
  | .provenanceDerived _ | .inverseEscrowed _ | .applyStarted _ | .applyObserved _
  | .inverseCompleted _ => true
  | _ => false

/-- Notes of a commit under way that rests on the ruling right before its canonical form. -/
def Warranted (notes : List Note) : Prop :=
  ∃ before ruling cid enforced work,
    notes = before ++ ruling :: .canonicalized cid enforced :: .committingStarted :: work ∧
      Warrant ruling enforced ∧ ∀ n ∈ work, n.works = true

/-- What the notes about a transformation end in, on the way from its ruling to its commit. -/
def Grounded (notes : List Note) : Prop :=
  match stateOf? notes with
  | some .admitted => ∃ before ruling, notes = before ++ [ruling] ∧ ruling.Admission
  | some .denied => ∃ before ruling, notes = before ++ [ruling] ∧ ruling.Refusal
  | some .canonicalized => ∃ before ruling cid enforced,
      notes = before ++ [ruling, .canonicalized cid enforced] ∧ Warrant ruling enforced
  | some .committing => Warranted notes
  | _ => True

/-- The form the engine gives a ruling and a canonicalization. -/
def Note.Formed (o : Option Lifecycle) : Note → Prop
  | .verdict kind proof engaged =>
    (∃ cid, proof = some cid ∧ engaged = false) ∨ kind = .Admit ∧ proof = none ∧ engaged = true
  | .humanDecision _ _ _ proof => ∃ cid, proof = some cid
  | .canonicalized _ enforced =>
    o = some .admitted ∨ o = some .denied ∧ enforced = some false
  | _ => True

theorem Warranted.work {notes : List Note} (h : Warranted notes) {n : Note}
    (hn : n.works = true) : Warranted (notes ++ [n]) := by
  obtain ⟨before, ruling, cid, enforced, work, rfl, hwarrant, hwork⟩ := h
  refine ⟨before, ruling, cid, enforced, work ++ [n], ?_, hwarrant, ?_⟩
  · rw [List.append_assoc]
    rfl
  · intro m hm
    rcases List.mem_append.mp hm with hold | hnew
    · exact hwork m hold
    · rw [List.mem_singleton.mp hnew]
      exact hn

theorem Grounded.committing {notes : List Note} (h : Grounded notes)
    (hstate : stateOf? notes = some .committing) : Warranted notes := by
  rw [Grounded, hstate] at h
  exact h

theorem Grounded.append {notes : List Note} {n : Note} (h : Grounded notes)
    (hlegal : Legal (stateOf? notes) n) (hformed : n.Formed (stateOf? notes)) :
    Grounded (notes ++ [n]) := by
  rw [Grounded, stateOf?_append]
  cases n with
  | planned | verifyStarted | aborted | committed | superseded => trivial
  | verdict kind proof engaged =>
    rcases hformed with ⟨cid, rfl, rfl⟩ | ⟨rfl, rfl, rfl⟩
    · cases kind with
      | Admit => exact ⟨notes, _, rfl, .ruled cid⟩
      | Deny => exact ⟨notes, _, rfl, .ruled cid⟩
      | Escalate => trivial
    · exact ⟨notes, _, rfl, .passed⟩
  | humanDecision kind reason actor proof =>
    obtain ⟨cid, rfl⟩ := hformed
    cases kind with
    | Admit => exact ⟨notes, _, rfl, .decided reason actor cid⟩
    | Deny => exact ⟨notes, _, rfl, .decided reason actor cid⟩
    | Escalate => trivial
  | canonicalized cid enforced =>
    rcases hformed with hstate | ⟨hstate, rfl⟩
    · rw [Grounded, hstate] at h
      obtain ⟨before, ruling, rfl, hadmits⟩ := h
      exact ⟨before, ruling, cid, enforced, by simp, .admitted hadmits⟩
    · rw [Grounded, hstate] at h
      obtain ⟨before, ruling, rfl, hrefuses⟩ := h
      exact ⟨before, ruling, cid, _, by simp, .recorded hrefuses⟩
  | committingStarted =>
    obtain ⟨_, _, _, hnext, hedge⟩ := hlegal
    rw [Grounded, hedge.to_committing (Option.some.inj hnext).symm] at h
    obtain ⟨before, ruling, cid, enforced, rfl, hwarrant⟩ := h
    exact ⟨before, ruling, cid, enforced, [], by simp, hwarrant, fun _ hm => nomatch hm⟩
  | provenanceDerived | inverseEscrowed | applyStarted | applyObserved | inverseCompleted =>
    have hstate : stateOf? notes = some .committing := hlegal
    rw [Note.next, hstate]
    exact (h.committing hstate).work rfl

theorem Lawful.last {notes : List Note} {n : Note} (h : Lawful (notes ++ [n])) :
    Legal (stateOf? notes) n := by
  generalize heq : notes ++ [n] = all at h
  cases h with
  | nil => simp at heq
  | append _ hn =>
    obtain ⟨rfl, hlast⟩ := List.append_inj' heq rfl
    cases hlast
    exact hn

/-- The transformation an event is an effect of: an apply, a leaf or a commit record. -/
def Event.effectOf : Event → Option TransformationId
  | .apply id _ _ => some id
  | .leaf entry => some entry.transformation
  | .journal (.about id (.committed _) _) => some id
  | _ => none

/-- Every effect of a history was warranted by what the journal had said by then. -/
def EffectsWarranted (history : List Event) : Prop :=
  EveryEntry (fun before ev => ∀ id, ev.effectOf = some id →
    Warranted (notesOf id (journalOf before))) history

section Kept

variable [Canon]

variable {pol : Policy} {w : World} {id : TransformationId} {s s' : Sys}

theorem Step.formed (hs : Synced s.engine) (hstep : Step pol w id s s') {n : Note} {t : Timestamp}
    (hr : s'.engine.records = s.engine.records ++ [.about id n t]) :
    n.Formed (stateOf? (s.engine.notes id)) := by
  have hrecord : ∀ {n'} {t'}, s.engine.records ++ [.about id n' t'] =
      s.engine.records ++ [.about id n t] → n' = n := fun heq => by
    cases List.append_cancel_left heq
    rfl
  have hnone : s.engine.records ≠ s.engine.records ++ [.about id n t] := by simp
  cases hstep with
  | asked | failed | crashed | blob | observation | filed | headed | seated | rehydrated | idle
  | restored | counted | explained | resumed | indexed | escrowHeld | applied | observationNamed
  | closed | leafed | leafedAgain => exact absurd hr hnone
  | drafted => cases List.append_cancel_left hr
  | ruled entry kind digest =>
    cases hrecord hr
    exact .inl ⟨digest, rfl, rfl⟩
  | opened =>
    cases hrecord hr
    exact .inr ⟨rfl, rfl, rfl⟩
  | decided =>
    cases hrecord hr
    exact ⟨_, rfl⟩
  | canonicalized entry enforced stamp hentry hstate henforced =>
    cases hrecord hr
    have hagrees := fun hne hna => ((hs.row id).state entry hentry).eq_of_ne hne hna
    rcases hstate with hstate | hstate
    · left
      rw [hagrees (by rw [hstate]; nofun) (by rw [hstate]; nofun), hstate]
    · right
      rw [hagrees (by rw [hstate]; nofun) (by rw [hstate]; nofun), hstate]
      exact ⟨rfl, by rw [henforced, if_pos (.inl hstate)]⟩
  | _ =>
    cases hrecord hr
    trivial

theorem Grounded.step (hs : Synced s.engine) (hstep : Step pol w id s s')
    (h : ∀ other, Grounded (s.engine.notes other)) (other : TransformationId) :
    Grounded (s'.engine.notes other) := by
  rcases hstep.notes other with hsame | ⟨rfl, n, t, hr, hnotes⟩
  · rw [hsame]
    exact h other
  · rw [hnotes]
    exact (h other).append (hstep.legal hs hr) (hstep.formed hs hr)

/-- An effect is of the transformation a move is on, while its commit is under way. -/
theorem Step.effects (hs : Synced s.engine) (hl : ∀ other, Lawful (s.engine.notes other))
    (hstep : Step pol w id s s') {ev : Event} {other : TransformationId}
    (hh : s'.history = s.history ++ [ev]) (hev : ev.effectOf = some other) :
    stateOf? (s.engine.notes other) = some .committing := by
  cases hstep.happens with
  | nothing hsame =>
    rw [hsame] at hh
    simp at hh
  | applied delta answer stamp hlast hthen =>
    rw [hthen] at hh
    cases List.append_cancel_left hh
    cases hev
    obtain ⟨before, hrecords⟩ := List.getLast?_eq_some_iff.mp hlast
    have hnotes : s.engine.notes id = notesOf id before ++ [.applyStarted delta.cid] := by
      rw [Engine.notes, hrecords, notesOf_append, notesOf_about]
    have hlegal : stateOf? (notesOf id before) = some .committing := (hnotes ▸ hl id).last
    rw [hnotes, stateOf?_append]
    exact hlegal
  | leaf leaf hthen hdisk =>
    rw [hthen] at hh
    cases List.append_cancel_left hh
    cases hev
    have hledger : s'.engine.ledger = s.engine.ledger ++ [leaf] := by
      cases hstep.writes with
      | leaf new _ _ hl hd =>
        rw [hdisk] at hd
        cases List.append_cancel_left hd
        exact hl
      | nothing _ _ _ hd | record _ _ _ _ hd =>
        rw [hdisk] at hd
        simp at hd
    obtain ⟨hid, _, _, hcommitting, _⟩ := hstep.leafs hledger
    rw [hid]
    exact hcommitting
  | journal r hthen hr =>
    rw [hthen] at hh
    cases List.append_cancel_left hh
    cases r with
    | draftCreated => cases hev
    | about t n stamp =>
      cases n with
      | committed k =>
        cases hev
        have hnew : s'.engine.notes other = s.engine.notes other ++ [.committed k] := by
          rw [Engine.notes, hr, notesOf_append, notesOf_about]
        rcases hstep.notes other with hsame | ⟨rfl, _⟩
        · rw [hsame] at hnew
          simp at hnew
        · obtain ⟨_, _, _, hnext, hedge⟩ := hstep.legal hs hr
          exact hedge.to_committed (Option.some.inj hnext).symm
      | _ => cases hev
  | other ev' hthen hjournal hleaves happlies =>
    rw [hthen] at hh
    cases List.append_cancel_left hh
    cases ev with
    | apply t delta answer =>
      have hnone := happlies t
      simp [appliesOf] at hnone
    | leaf entry => cases hleaves
    | journal r => cases hjournal
    | _ => cases hev

/-- What the files and the history keep of the rulings. -/
structure FilesWarranted (history : List Event) (disk : Disk) : Prop where
  told : Told history disk
  lawful : ∀ id, Lawful (notesOf id disk.journal)
  grounded : ∀ id, Grounded (notesOf id disk.journal)
  effects : EffectsWarranted history

theorem FilesWarranted.step (h : FilesWarranted s.history s.disk) (hin : InStep s)
    (hs : Synced s.engine) (hstep : Step pol w id s s') : FilesWarranted s'.history s'.disk := by
  obtain ⟨htold, hlawful, hgrounded, heffects⟩ := h
  have hin' := hin.writes hstep.writes
  have hnew : ∀ ev, s'.history = s.history ++ [ev] → EffectsWarranted (s.history ++ [ev]) := by
    intro ev hh
    apply heffects.append
    intro other hother
    rw [htold.journal, ← hin.records]
    rw [← hin.records] at hlawful hgrounded
    exact (hgrounded other).committing (hstep.effects hs hlawful hh hother)
  refine ⟨htold.step hstep, ?_, ?_, ?_⟩
  · rw [← hin.records] at hlawful
    rw [← hin'.records]
    exact Lawful.step hs hstep hlawful
  · rw [← hin.records] at hgrounded
    rw [← hin'.records]
    exact Grounded.step hs hstep hgrounded
  · cases hstep.happens with
    | nothing hh =>
      rw [hh]
      exact heffects
    | journal _ hh | leaf _ hh | applied _ _ _ _ hh | other _ hh =>
      rw [hh]
      exact hnew _ hh

theorem warranted_shared [Canon.CollisionFree] (w : World) :
    Project.Shared w .any FilesWarranted (fun e => Synced e) where
  init := ⟨.empty, fun _ => .nil, fun _ => trivial, .nil⟩
  opens config disk := Synced.openThrough config disk
  catches disk _ h := h.catchUp disk
  step _ _ _ hin hd hs hstep := ⟨hd.step hin hs hstep, hs.step hstep⟩

/-- Whatever any number of processes do to one project under its lock, dying and starting again at
any point: an apply, a leaf or a commit record comes only over notes that end in a ruling that
admits the row, or in a denial that is recorded as not enforced, its canonical form and the commit
under way. -/
theorem effects_are_warranted [Canon.CollisionFree] {w : World} {p : Project}
    (h : Project.empty.Reaches w (fun _ a => a.Locked) p) : EffectsWarranted p.history :=
  ((warranted_shared w).locked h (fun _ _ ha => ha) (fun _ _ _ _ _ _ => Policy.any_allows)
    fun _ => trivial).1.effects

end Kept

section Twice

open Tracefold.Ideal

theorem effects_are_warranted_twice :
    let history := (Project.empty.run (fun _ => envAt 1) ([.start 0 config, .start 1 config] ++
      committedUnderLock 0 1 ++ committedUnderLock 1 2)).history
    history.filterMap Event.effectOf = [idFor 1 1, idFor 1 1, idFor 1 1, idFor 2 1, idFor 2 1,
      idFor 2 1] ∧ EffectsWarranted history :=
  ⟨by decide, effects_are_warranted (Project.reaches_run fun a ha _ =>
    (by decide : ∀ a ∈ [.start 0 config, .start 1 config] ++ committedUnderLock 0 1 ++
      committedUnderLock 1 2, a.Locked) a ha)⟩

end Twice

end Tracefold
