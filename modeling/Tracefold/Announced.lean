import Mathlib.Tactic.Common
import Tracefold.Files
import Tracefold.Ideal

/-! Every apply is announced in its own attempt at a commit. -/

namespace Tracefold

open Library Engine
open Std (ExtTreeMap)

/-- What the journal has to say of a transformation before a delta is applied for it: since the
last `CommittingStarted`, an escrow and the announcement of the delta. -/
structure Announced (notes : List Note) (cid : Cid) : Prop where
  started : .committingStarted ∈ notes
  escrowed : ∃ body, .inverseEscrowed body ∈ attempt notes
  announced : .applyStarted cid ∈ attempt notes

/-- An apply was announced since the last `CommittingStarted`. -/
def Announces (notes : List Note) : Prop := ∃ cid, .applyStarted cid ∈ attempt notes

theorem committingStarted_mem {notes : List Note} (h : stateOf? notes = some .committing) :
    .committingStarted ∈ notes := by
  induction notes using List.reverseRecOn with
  | nil => cases h
  | append_singleton notes n ih =>
    rw [stateOf?_append] at h
    have hrest : stateOf? notes = some .committing → Note.committingStarted ∈ notes ++ [n] :=
      fun h => List.mem_append_left _ (ih h)
    cases n with
    | committingStarted => exact List.mem_append_right _ List.mem_cons_self
    | provenanceDerived | inverseEscrowed | applyStarted | applyObserved | inverseCompleted =>
      exact hrest h
    | verdict kind digest engaged =>
      cases engaged with
      | true => cases h
      | false => cases kind <;> cases h
    | humanDecision kind => cases kind <;> cases h
    | _ => cases h

theorem mem_attempt_of_getLast? {id : TransformationId} {records : List Record} {cid : Cid}
    {t : Timestamp} (h : records.getLast? = some (.about id (.applyStarted cid) t)) :
    .applyStarted cid ∈ attempt (notesOf id records) := by
  obtain ⟨before, rfl⟩ := List.getLast?_eq_some_iff.mp h
  rw [notesOf_append, notesOf_about, attempt, afterLast_unmarked rfl]
  exact List.mem_append_right _ List.mem_cons_self

/-- Notes in which nothing is announced before the inverse is escrowed. -/
def EscrowsFirst (notes : List Note) : Prop := ∀ cid, .applyStarted cid ∈ attempt notes →
  Announced notes cid

theorem EscrowsFirst.nil (id : TransformationId) : EscrowsFirst (notesOf id []) :=
  fun _ h => nomatch h

theorem EscrowsFirst.append {notes : List Note} {n : Note} (h : EscrowsFirst notes)
    (hn : ∀ cid, n = .applyStarted cid → .committingStarted ∈ notes ∧
      ∃ body, .inverseEscrowed body ∈ attempt notes) : EscrowsFirst (notes ++ [n]) := by
  intro cid hcid
  obtain ⟨hstarts, hmem⟩ := mem_afterLast_append hcid
  have hkept : ∀ {m}, m ∈ attempt notes → m ∈ attempt (notes ++ [n]) := by
    intro m hm
    rw [attempt, afterLast_unmarked hstarts]
    exact List.mem_append_left _ hm
  have hfound : .committingStarted ∈ notes ∧ ∃ body, .inverseEscrowed body ∈ attempt notes := by
    rcases hmem with hold | hnew
    · exact ⟨(h cid hold).started, (h cid hold).escrowed⟩
    · exact hn cid hnew.symm
  obtain ⟨hstarted, body, hbody⟩ := hfound
  exact ⟨List.mem_append_left _ hstarted, ⟨body, hkept hbody⟩, hcid⟩

section Kept

variable [Canon]

/-- Every apply of a history was announced by then. -/
def AppliesAnnounced (history : List Event) : Prop :=
  EveryEntry (fun before ev => ∀ id delta answer, ev = .apply id delta answer →
    Announced (notesOf id (journalOf before)) delta.cid) history

variable {pol : Policy} {w : World} {id : TransformationId} {s s' : Sys}

theorem Step.announces (hstep : Step pol w id s s') {cid : Cid} {t : Timestamp}
    (hr : s'.engine.records = s.engine.records ++ [.about id (.applyStarted cid) t]) :
    stateOf? (s.engine.notes id) = some .committing ∧
      ((∃ body, .inverseEscrowed body ∈ attempt (s.engine.notes id)) ∧
          (∃ before, pol.commits before id) ∨
        ∃ notes, pol.reapplies id notes ∧ (s.engine.notes id = notes ∨
          ∃ inverse, s.engine.notes id = notes ++ [.inverseCompleted inverse])) := by
  have hnone : s.engine.records ≠ s.engine.records ++ [.about id (.applyStarted cid) t] := by simp
  cases hstep with
  | announced entry delta stamp hcommit hescrowed hpol =>
    exact ⟨hcommit.state, .inl ⟨hescrowed, hpol⟩⟩
  | announcedAgain row cid' stamp hresume hid hannounced hleaf hcid hpol =>
    exact ⟨hid ▸ hresume.state, .inr hpol⟩
  | _ =>
    first
    | exact absurd hr hnone
    | cases List.append_cancel_left hr

/-- A run whose recoveries go by the attempt: a row is applied again only if its current attempt
announced an apply. -/
def currentOnly : Policy where
  plans _ _ := True
  undos _ _ := True
  reapplies _ notes := Announces notes
  commits _ _ := True

theorem EscrowsFirst.step (hstep : Step currentOnly w id s s')
    (h : ∀ other, EscrowsFirst (s.engine.notes other)) (other : TransformationId) :
    EscrowsFirst (s'.engine.notes other) := by
  rcases hstep.notes other with hsame | ⟨rfl, n, t, hr, hnotes⟩
  · rw [hsame]
    exact h other
  · rw [hnotes]
    refine (h other).append fun cid hcid => ?_
    subst hcid
    obtain ⟨hstate, hescrowed⟩ := hstep.announces hr
    refine ⟨committingStarted_mem hstate, ?_⟩
    rcases hescrowed with ⟨hbody, _⟩ | ⟨notes, ⟨cid', hcid'⟩, hnotes'⟩
    · exact hbody
    · have hmem : .applyStarted cid' ∈ attempt (s.engine.notes other) := by
        rcases hnotes' with hsame | ⟨inverse, hnotes'⟩
        · rw [hsame]
          exact hcid'
        · rw [hnotes', attempt, afterLast_unmarked rfl]
          exact List.mem_append_left _ hcid'
      exact (h other cid' hmem).escrowed

theorem AppliesAnnounced.step (hin : InStep s) (htold : Told s.history s.disk)
    (hfirst : ∀ other, EscrowsFirst (s.engine.notes other)) (h : AppliesAnnounced s.history)
    (hstep : Step pol w id s s') : AppliesAnnounced s'.history := by
  have hother : ∀ ev, (∀ t, appliesOf t [ev] = []) → AppliesAnnounced (s.history ++ [ev]) := by
    intro ev hnone
    refine EveryEntry.append h fun t delta answer heq => ?_
    have hempty := hnone t
    simp [heq, appliesOf] at hempty
  cases hstep.happens with
  | nothing hh =>
    rw [hh]
    exact h
  | journal r hh =>
    rw [hh]
    exact hother _ fun _ => rfl
  | leaf leaf hh =>
    rw [hh]
    exact hother _ fun _ => rfl
  | other ev hh _ _ happlies =>
    rw [hh]
    exact hother ev happlies
  | applied delta answer stamp hlast hh =>
    rw [hh]
    refine EveryEntry.append h fun t delta' answer' heq => ?_
    cases heq
    have hmem := mem_attempt_of_getLast? hlast
    rw [htold.journal, ← hin.records]
    exact hfirst id delta.cid hmem

/-- What the files of a project keep of the applies. -/
structure FilesAnnounced (history : List Event) (disk : Disk) : Prop where
  told : Told history disk
  floored : Floored disk
  first : ∀ id, EscrowsFirst (notesOf id disk.journal)
  announced : AppliesAnnounced history

theorem announced_kept (w : World) :
    Project.Kept w currentOnly FilesAnnounced (fun s => Unrolled s.engine) where
  init := ⟨.empty, Floored.empty, EscrowsFirst.nil, EveryEntry.nil⟩
  opens _ disk config hd := Unrolled.openThrough hd.floored config
  step id s s' hin hd he hstep := by
    obtain ⟨htold, hfloored, hfirst, hannounced⟩ := hd
    rw [← hin.records] at hfirst
    refine ⟨⟨htold.step hstep, hfloored.step hin hstep, ?_, ?_⟩, he.step hstep⟩
    · rw [← (hin.writes hstep.writes).records]
      exact EscrowsFirst.step hstep hfirst
    · exact hannounced.step hin htold hfirst hstep

/-- What `resume` reads of a row is of its current attempt: a row in `Committing` whose attempt
announced no apply has none folded from an earlier attempt, and no leaf of one. -/
def AttemptsCurrent (e : Engine) : Prop :=
  ∀ id, sigmaState e.records id = some .committing → ¬ Announces (e.notes id) →
    (e.row id).applyStarted = none ∧ leafOf e.ledger id = none

/-- A recovery starts where what it reads of a row is of the row's current attempt. -/
def RecoversCurrent (p : Project) (a : Action) : Prop :=
  ∀ s stamp key, p.calls a = some (s, .recover stamp key) → AttemptsCurrent s.engine

/-- The recovery of rows by what this state says of their attempts. -/
def recovering (e : Engine) : Policy where
  plans _ _ := True
  undos _ _ := True
  reapplies id _ := Announces (e.notes id)
  commits _ _ := False

omit [Canon] in
theorem AttemptsCurrent.announces {e : Engine} (h : AttemptsCurrent e) {row : StateRow}
    (hrow : row ∈ (reconstruct e.records).transformations) (hstate : row.state = some .committing)
    (hannounced : row.applyStarted.isSome) : Announces (e.notes row.transformation) := by
  have heq := (mem_transformations hrow).2
  by_contra hnone
  have hcommitting : sigmaState e.records row.transformation = some .committing := by
    rw [sigmaState_eq, ← state_rowOf row.transformation, ← hstate]
    exact congrArg StateRow.state heq.symm
  have hquiet := (h row.transformation hcommitting hnone).1
  rw [show row.applyStarted = (e.row row.transformation).applyStarted from
    congrArg StateRow.applyStarted heq, hquiet] at hannounced
  cases hannounced

/-- A recovery of an attempt that announced nothing applies nothing. -/
theorem unannounced_step {e : Engine} {t : TransformationId} (h : ¬ Announces (e.notes id))
    (hquiet : ¬ Announces (s.engine.notes id)) (hstep : Step (recovering e) w t s s') :
    ¬ Announces (s'.engine.notes id) ∧ appliesOf id s'.history = appliesOf id s.history := by
  refine ⟨fun hannounces => ?_, ?_⟩
  · rcases hstep.notes id with hsame | ⟨rfl, n, stamp, hr, hnotes⟩
    · rw [hsame] at hannounces
      exact hquiet hannounces
    · rw [hnotes] at hannounces
      obtain ⟨cid, hcid⟩ := hannounces
      obtain ⟨_, hold | hnew⟩ := mem_afterLast_append hcid
      · exact hquiet ⟨cid, hold⟩
      · subst hnew
        rcases (hstep.announces hr).2 with ⟨_, _, hpol⟩ | ⟨_, hpol, _⟩
        · exact hpol
        · exact h hpol
  · cases hstep.happens with
    | nothing hh => rw [hh]
    | journal r hh | leaf r hh =>
      rw [hh, appliesOf_append]
      exact List.append_nil _
    | other ev hh _ _ happlies => rw [hh, appliesOf_append, happlies, List.append_nil]
    | applied delta answer stamp hlast hh =>
      have hne : t ≠ id := by
        rintro rfl
        exact hquiet ⟨_, mem_attempt_of_getLast? hlast⟩
      rw [hh, appliesOf_append]
      simp [appliesOf, hne]

theorem unannounced_moves {e : Engine} (h : ¬ Announces (e.notes id))
    (hquiet : ¬ Announces (s.engine.notes id))
    (hmoves : Relation.ReflTransGen (Move (recovering e) every w) s s') :
    appliesOf id s'.history = appliesOf id s.history := by
  have hboth : ¬ Announces (s'.engine.notes id) ∧
      appliesOf id s'.history = appliesOf id s.history := by
    induction hmoves with
    | refl => exact ⟨hquiet, rfl⟩
    | tail _ hmove ih =>
      obtain ⟨t, _, hstep⟩ := hmove
      obtain ⟨hquiet', hsame⟩ := unannounced_step h ih.1 hstep
      exact ⟨hquiet', hsame.trans ih.2⟩
  exact hboth.2

/-- What a recovery does to an attempt that announced nothing: it applies nothing for it, and
when it answers the attempt is aborted. -/
structure AbortsUnannounced (w : World) (s : Sys) (stamp : Timestamp) (key : KeyId)
    (id : TransformationId) : Prop where
  applies : appliesOf id ((recover stamp key).final w s).history = appliesOf id s.history
  aborts : ∀ out, (recover stamp key).answer w s = .ok out →
    ∃ reason, sigmaState ((recover stamp key).final w s).engine.records id = some (.aborted reason)

theorem abortsUnannounced (hcurrent : AttemptsCurrent s.engine) (hun : Unrolled s.engine)
    (stamp : Timestamp) (key : KeyId) (hstate : sigmaState s.engine.records id = some .committing)
    (hquiet : ¬ Announces (s.engine.notes id)) : AbortsUnannounced w s stamp key id := by
  have hmoves : Moves (recovering s.engine) every w (recover stamp key) s
      (RowsResumed (reconstruct s.engine.records).transformations s) := by
    refine moves_recover ?_ (fun _ _ _ => trivial) ?_ fun _ _ h => h
    · intro row hrow hcommitting _ hannounced
      exact hcurrent.announces hrow hcommitting hannounced
    · intro out hrefused
      rw [hun.departed, hun.rolled] at hrefused
      cases hrefused
  refine ⟨unannounced_moves hquiet hquiet hmoves.steps, fun out hout => ?_⟩
  obtain ⟨hnone, hleaf⟩ := hcurrent id hstate hquiet
  obtain ⟨row, hrow, rfl, hcommitting⟩ := row_of_sigmaState hstate
  obtain ⟨recovered, _, _, hclosed, hunannounced⟩ := (hmoves.answer hout).row row hrow hcommitting
  have hrownone : row.applyStarted = none := by
    rw [← hnone]
    exact congrArg StateRow.applyStarted (mem_transformations hrow).2
  obtain ⟨hpath, reason, hreason⟩ := hunannounced hleaf hrownone
  refine ⟨reason, ?_⟩
  rw [sigmaState_eq, (hclosed hpath).1, hreason]

/-- In a run of one process with crashes and restarts whose recoveries each start where what they
read of a row is of its current attempt, every apply is announced in its own attempt, and a
recovery aborts an attempt that announced none. -/
theorem applies_are_announced {w : World} {p : Project}
    (h : Project.empty.Reaches w (fun p a => a.Solo ∧ RecoversCurrent p a) p) :
    AppliesAnnounced p.history ∧
      ∀ e, p.process 0 = some e → AttemptsCurrent e → ∀ stamp key id,
        sigmaState e.records id = some .committing → ¬ Announces (e.notes id) →
        AbortsUnannounced w ⟨p.history, p.disk, e⟩ stamp key id := by
  have hkept := (announced_kept w).solo h (fun _ _ ha => ha.1) fun p a ha s op hcalls => ?_
  · refine ⟨hkept.1.announced, fun e he hcurrent stamp key id hstate hquiet => ?_⟩
    exact abortsUnannounced (s := ⟨p.history, p.disk, e⟩) hcurrent (hkept.2 e he).2 stamp key hstate
      hquiet
  · cases op with
    | recover stamp key =>
      intro row hrow hstate _ hannounced
      exact (ha.2 s stamp key hcalls).announces hrow hstate hannounced
    | plan intent stamp => exact fun _ _ _ _ _ => trivial
    | undo original witness rngSeed stamp => exact fun _ _ _ _ _ _ => trivial
    | commit id stamp key => exact fun _ _ _ _ _ _ => trivial
    | canonicalize => exact fun _ _ _ _ => trivial
    | _ => trivial

end Kept

section Stale

open Tracefold.Ideal

/-- The first apply of the undo fails, and the process dies in the second commit of it, after
`CommittingStarted`. -/
def undoTwice : World := objectFrom 2 fun now env =>
  if now = 47 then { env with apply := fun _ _ => .error "unreachable" }
  else if now = 62 then { env with fault := .crash }
  else env

/-- A commit, its undo aborted and planned again, and a recovery of the second attempt. -/
def undoRecovered : List Action :=
  committed 2 ++ [.call 0 (.undo (idAt 2) (.attested ⟨[3]⟩) 0 3)] ++ committing (undoAt 2) ++
    [.call 0 (.undo (idAt 2) (.attested ⟨[3]⟩) 0 3)] ++ committing (undoAt 2) ++
    [.start 0 config, .call 0 (.recover 9 "k")]

/-- What an event applies. -/
def Event.applies? : Event → Option (TransformationId × Cid)
  | .apply id delta _ => some (id, delta.cid)
  | _ => none

def Note.escrows : Note → Bool
  | .inverseEscrowed _ => true
  | _ => false

/-- A recovery applies an attempt of an undo that crashed before its inverse was escrowed. -/
theorem apply_of_a_stale_announcement :
    ¬ ∀ (w : World) (p : Project), Project.empty.Reaches w (fun _ a => a.Solo) p →
      AppliesAnnounced p.history := by
  intro h
  have hannounced := h undoTwice (Project.empty.run undoTwice undoRecovered)
    (Project.reaches_run fun a ha _ => (by decide : ∀ a ∈ undoRecovered, a.Solo) a ha)
  have happly : ((Project.empty.run undoTwice undoRecovered).history[64]?.bind Event.applies?) =
      some (undoAt 2, Canon.delta .fs [2]) := by decide +kernel
  have hnone : ∀ n ∈ attempt (notesOf (undoAt 2)
      (journalOf ((Project.empty.run undoTwice undoRecovered).history.take 64))),
      n.escrows = false := by decide +kernel
  obtain ⟨ev, hev, happlies⟩ := Option.bind_eq_some_iff.mp happly
  cases ev with
  | apply id delta answer =>
    obtain ⟨rfl, _⟩ := Prod.mk.inj (Option.some.inj happlies)
    obtain ⟨body, hbody⟩ := (hannounced.getElem? hev (undoAt 2) delta answer rfl).escrowed
    cases hnone _ hbody
  | _ => cases happlies

/-- The process dies in a commit, after `CommittingStarted`. -/
def dyingEarly : World := objectFrom 2 fun now env =>
  if now = 14 then { env with fault := .crash } else env

theorem applies_are_announced_restarted :
    ∃ e, (Project.empty.run dyingEarly (committed 2 ++ [.start 0 config])).process 0 = some e ∧
      AbortsUnannounced dyingEarly
        ⟨(Project.empty.run dyingEarly (committed 2 ++ [.start 0 config])).history,
          (Project.empty.run dyingEarly (committed 2 ++ [.start 0 config])).disk, e⟩
        9 "k" (idAt 2) := by
  have hreached : Project.empty.Reaches dyingEarly (fun p a => a.Solo ∧ RecoversCurrent p a)
      (Project.empty.run dyingEarly (committed 2 ++ [.start 0 config])) := by
    refine Project.reaches_run fun a ha p => ⟨?_, fun s stamp key hcalls => ?_⟩
    · exact (by decide : ∀ a ∈ committed 2 ++ [.start 0 config], a.Solo) a ha
    · have hop := (by decide : ∀ a ∈ committed 2 ++ [.start 0 config],
        a.op?.all fun op => !Op.recovers op) a ha
      rw [Project.calls_op hcalls] at hop
      cases hop
  have hcurrent : ((Project.empty.run dyingEarly (committed 2 ++ [.start 0 config])).process 0).all
      fun e => (reconstruct e.records).transformations.all fun row =>
        (e.row row.transformation).applyStarted = none ∧
          leafOf e.ledger row.transformation = none := by decide
  have hstate : ((Project.empty.run dyingEarly (committed 2 ++ [.start 0 config])).process 0).map
      (fun e => (sigmaState e.records (idAt 2), attempt (e.notes (idAt 2)))) =
        some (some .committing, []) := by decide
  obtain ⟨e, he, heq⟩ := Option.map_eq_some_iff.mp hstate
  obtain ⟨hcommitting, hattempt⟩ := Prod.mk.inj heq
  rw [he] at hcurrent
  refine ⟨e, he, (applies_are_announced hreached).2 e he ?_ 9 "k" (idAt 2) hcommitting ?_⟩
  · intro id hid _
    obtain ⟨row, hrow, rfl, _⟩ := row_of_sigmaState hid
    simpa using List.all_eq_true.mp hcurrent row hrow
  · rintro ⟨cid, hcid⟩
    rw [hattempt] at hcid
    cases hcid

end Stale

end Tracefold
