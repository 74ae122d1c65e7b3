import Mathlib.Tactic.Common
import Tracefold.Moves.Lifecycle

/-! The commit critical section moves as the engine may. -/

namespace Tracefold

open Library Engine
open Std (ExtTreeMap)

/-- A note that leaves the state of its transformation and what its commit attests. -/
def Note.silent : Note → Bool
  | .inverseEscrowed _ => true
  | .applyStarted _ => true
  | .applyObserved _ => true
  | .inverseCompleted _ => true
  | _ => false

/-- An event that neither starts an attempt, nor applies, nor appends a leaf. -/
def Event.plain : Event → Bool
  | .journal (.about _ note _) => note.silent
  | .apply _ _ _ => false
  | .leaf _ => false
  | _ => true

/-- What goes on inside a commit and leaves it under way. -/
structure Keeps (id : TransformationId) (s s' : Sys) : Prop where
  live : ∃ f : Entry → Entry, (∀ e : Entry, e.Same (f e) ∧ (f e).state = e.state) ∧
    s'.engine.table[id]? = s.engine.table[id]?.map f
  notes : ∃ ns, s'.engine.notes id = s.engine.notes id ++ ns ∧ ∀ n ∈ ns, n.silent = true
  events : ∃ evs, s'.history = s.history ++ evs ∧ ∀ ev ∈ evs, ev.plain = true
  ledger : s'.engine.ledger = s.engine.ledger
  config : s'.engine.config = s.engine.config

namespace Keeps

variable {id : TransformationId} {s s' s'' : Sys}

theorem refl (id : TransformationId) (s : Sys) : Keeps id s s where
  live := ⟨fun e => e, fun e => ⟨.refl e, rfl⟩, by simp⟩
  notes := ⟨[], by simp, by simp⟩
  events := ⟨[], by simp, by simp⟩
  ledger := rfl
  config := rfl

theorem trans (h : Keeps id s s') (h' : Keeps id s' s'') : Keeps id s s'' := by
  obtain ⟨f, hf, hlive⟩ := h.live
  obtain ⟨f', hf', hlive'⟩ := h'.live
  obtain ⟨ns, hns, hsilent⟩ := h.notes
  obtain ⟨ns', hns', hsilent'⟩ := h'.notes
  obtain ⟨evs, hevs, hplain⟩ := h.events
  obtain ⟨evs', hevs', hplain'⟩ := h'.events
  refine ⟨⟨f' ∘ f, fun e => ?_, ?_⟩, ⟨ns ++ ns', ?_, ?_⟩, ⟨evs ++ evs', ?_, ?_⟩, ?_, ?_⟩
  · exact ⟨(hf e).1.trans (hf' (f e)).1, (hf' (f e)).2.trans (hf e).2⟩
  · rw [hlive', hlive, Option.map_map]
  · rw [hns', hns, List.append_assoc]
  · intro n hn
    exact (List.mem_append.mp hn).elim (hsilent n) (hsilent' n)
  · rw [hevs', hevs, List.append_assoc]
  · intro ev hev
    exact (List.mem_append.mp hev).elim (hplain ev) (hplain' ev)
  · exact h'.ledger.trans h.ledger
  · exact h'.config.trans h.config

theorem of_events (evs : List Event) (he : s'.engine = s.engine) (hh : s'.history = s.history ++ evs)
    (hplain : ∀ ev ∈ evs, ev.plain = true) : Keeps id s s' where
  live := ⟨fun e => e, fun e => ⟨.refl e, rfl⟩, by simp [he]⟩
  notes := ⟨[], by simp [he], by simp⟩
  events := ⟨evs, hh, hplain⟩
  ledger := by rw [he]
  config := by rw [he]

theorem push {ev : Event} (h : ev.plain = true) : Keeps id s (s.push ev) :=
  of_events [ev] rfl rfl (by simpa using h)

theorem note {n : Note} (h : n.silent = true) (t : Timestamp) : Keeps id s (s.note id n t) where
  live := ⟨fun e => e, fun e => ⟨.refl e, rfl⟩, by simp⟩
  notes := ⟨[n], Sys.notes_note s id n t, by simpa using h⟩
  events := ⟨[.journal (.about id n t)], rfl, by simpa [Event.plain] using h⟩
  ledger := rfl
  config := rfl

theorem of_live {f : Entry → Entry} (hf : ∀ e : Entry, e.Same (f e) ∧ (f e).state = e.state) :
    Keeps id s (s.live id f) where
  live := ⟨f, hf, getElem?_live s id f⟩
  notes := ⟨[], (List.append_nil _).symm, by simp⟩
  events := ⟨[], by simp, by simp⟩
  ledger := rfl
  config := rfl

theorem of_engine {f : Engine → Engine} (htable : (f s.engine).table = s.engine.table)
    (hrecords : (f s.engine).records = s.engine.records)
    (hledger : (f s.engine).ledger = s.engine.ledger)
    (hconfig : (f s.engine).config = s.engine.config) : Keeps id s (s.withEngine f) where
  live := ⟨fun e => e, fun e => ⟨.refl e, rfl⟩, by simp [htable]⟩
  notes := ⟨[], by simp [Engine.notes, hrecords], by simp⟩
  events := ⟨[], by simp, by simp⟩
  ledger := hledger
  config := hconfig

end Keeps

theorem Note.next_silent {n : Note} (h : n.silent = true) (state : Option Lifecycle) :
    n.next state = state := by
  cases n <;> first | rfl | cases h

theorem Note.starts_silent {n : Note} (h : n.silent = true) : n.starts = false := by
  cases n <;> first | rfl | cases h

theorem stateOf?_append_silent {notes ns : List Note} (h : ∀ n ∈ ns, n.silent = true) :
    stateOf? (notes ++ ns) = stateOf? notes := by
  induction ns using List.reverseRecOn with
  | nil => rw [List.append_nil]
  | append_singleton ns n ih =>
    rw [← List.append_assoc, stateOf?_append, Note.next_silent (h n (by simp))]
    exact ih fun m hm => h m (by simp [hm])

theorem attempt_append_silent {notes ns : List Note} (h : ∀ n ∈ ns, n.silent = true) :
    attempt (notes ++ ns) = attempt notes ++ ns := by
  induction ns using List.reverseRecOn with
  | nil => rw [List.append_nil, List.append_nil]
  | append_singleton ns n ih =>
    rw [attempt, ← List.append_assoc, afterLast_unmarked (Note.starts_silent (h n (by simp))),
      ← List.append_assoc]
    exact congrArg (· ++ [n]) (ih fun m hm => h m (by simp [hm]))

theorem Event.starts_plain {ev : Event} (h : ev.plain = true) (id : TransformationId) :
    ev.starts id = false := by
  cases ev with
  | journal r =>
    cases r with
    | draftCreated _ _ _ => rfl
    | about t n _ => cases n <;> first | rfl | cases h
  | _ => rfl

theorem attemptEvents_append_plain {history evs : List Event} (id : TransformationId)
    (h : ∀ ev ∈ evs, ev.plain = true) :
    attemptEvents id (history ++ evs) = attemptEvents id history ++ evs := by
  induction evs using List.reverseRecOn with
  | nil => rw [List.append_nil, List.append_nil]
  | append_singleton evs ev ih =>
    rw [attemptEvents, ← List.append_assoc, afterLast_unmarked (Event.starts_plain (h ev (by simp)) id),
      ← List.append_assoc]
    exact congrArg (· ++ [ev]) (ih fun e he => h e (by simp [he]))

theorem lastApply_append (id : TransformationId) (history evs : List Event)
    (h : ∀ ev ∈ evs, ev.plain = true) : lastApply id (history ++ evs) = lastApply id history := by
  induction evs using List.reverseRecOn with
  | nil => rw [List.append_nil]
  | append_singleton evs ev ih =>
    rw [lastApply, ← List.append_assoc, List.foldl_append, List.foldl_cons, List.foldl_nil]
    have hev := h ev (by simp)
    have hih := ih fun e he => h e (by simp [he])
    rw [lastApply] at hih
    cases ev with
    | apply _ _ _ => cases hev
    | _ => exact hih

theorem StateRow.provenance_silent {n : Note} (h : n.silent = true) (row : StateRow) :
    (row.absorb n).provenance = row.provenance := by
  cases n <;> first | rfl | cases h

theorem provenance_append_silent {notes ns : List Note} (id : TransformationId)
    (h : ∀ n ∈ ns, n.silent = true) :
    (rowOf id (notes ++ ns)).provenance = (rowOf id notes).provenance := by
  induction ns using List.reverseRecOn with
  | nil => rw [List.append_nil]
  | append_singleton ns n ih =>
    rw [← List.append_assoc, rowOf_append, StateRow.provenance_silent (h n (by simp))]
    exact ih fun m hm => h m (by simp [hm])

namespace Keeps

variable {id : TransformationId} {s s' : Sys} {entry : Entry}

theorem inCommit (h : Keeps id s s') (hc : InCommit s id entry) : InCommit s' id entry := by
  obtain ⟨f, hf, hlive⟩ := h.live
  obtain ⟨ns, hns, hsilent⟩ := h.notes
  obtain ⟨evs, hevs, hplain⟩ := h.events
  obtain ⟨now, hnow, hstate, hsame⟩ := hc.live
  refine ⟨⟨f now, by rw [hlive, hnow]; rfl, ?_, hsame.trans (hf now).1⟩, ?_, ?_⟩
  · exact (hf now).2.trans hstate
  · rw [hns, stateOf?_append_silent hsilent]
    exact hc.state
  · intro leaf hleaf
    rw [hevs, attemptEvents_append_plain id hplain] at hleaf
    rcases List.mem_append.mp hleaf with hleaf | hleaf
    · exact hc.noLeaf leaf hleaf
    · cases hplain _ hleaf

theorem mem_attempt (h : Keeps id s s') {n : Note} (hn : n ∈ attempt (s.engine.notes id)) :
    n ∈ attempt (s'.engine.notes id) := by
  obtain ⟨ns, hns, hsilent⟩ := h.notes
  rw [hns, attempt_append_silent hsilent]
  exact List.mem_append_left _ hn

theorem lastApply_eq (h : Keeps id s s') : lastApply id s'.history = lastApply id s.history := by
  obtain ⟨evs, hevs, hplain⟩ := h.events
  rw [hevs, lastApply_append id _ _ hplain]

theorem provenance (h : Keeps id s s')
    (hp : (s.engine.row id).provenance = some (deriveProvenance s.engine entry)) :
    (s'.engine.row id).provenance = some (deriveProvenance s'.engine entry) := by
  obtain ⟨ns, hns, hsilent⟩ := h.notes
  rw [Engine.row, hns, provenance_append_silent id hsilent]
  refine hp.trans ?_
  rw [deriveProvenance, deriveProvenance, h.config]

end Keeps

theorem Event.starts_provenance (id : TransformationId) (p : Provenance) (t : Timestamp) :
    (Event.journal (.about id (.provenanceDerived p) t)).starts id = false := rfl

theorem InCommit.push {id : TransformationId} {s : Sys} {entry : Entry} {ev : Event}
    (hc : InCommit s id entry) (hstart : ev.starts id = false) (hleaf : ∀ leaf, ev ≠ .leaf leaf) :
    InCommit (s.push ev) id entry := by
  refine ⟨hc.live, hc.state, fun leaf hmem => ?_⟩
  rw [Sys.history_push, attemptEvents, afterLast_unmarked hstart] at hmem
  rcases List.mem_append.mp hmem with hmem | hmem
  · exact hc.noLeaf leaf hmem
  · exact absurd (List.mem_singleton.mp hmem).symm (hleaf leaf)

theorem InCommit.mem_table {id : TransformationId} {s : Sys} {entry : Entry}
    (hc : InCommit s id entry) : id ∈ s.engine.table := by
  obtain ⟨now, hnow, _⟩ := hc.live
  exact ExtTreeMap.mem_iff_isSome_getElem?.mpr (by rw [hnow]; rfl)

namespace Engine

variable {id : TransformationId} {s : Sys}

theorem lastApply_push (id : TransformationId) (s : Sys) (delta : PlannedDelta)
    (answer : Except String AppliedDelta) :
    lastApply id (s.push (.apply id delta answer)).history = some (delta, answer) := by
  simp [lastApply]

theorem keeps_escrow (row : EscrowRow) :
    Keeps id s (s.withEngine fun e => { e with escrow := e.escrow.insert id row }) :=
  Keeps.of_engine rfl rfl rfl rfl

theorem keeps_inverseCid (o : Option Cid) :
    Keeps id s (s.live id fun entry => { entry with inverseCid := o }) :=
  Keeps.of_live fun _ => ⟨by constructor <;> rfl, rfl⟩

theorem keeps_blobPut {s s' : Sys} {cid : Cid} (he : s'.engine = s.engine)
    (hh : s'.history = s.history ∨ s'.history = s.history ++ [.blob cid]) : Keeps id s s' := by
  rcases hh with hh | hh
  · exact Keeps.of_events [] he (by simpa using hh) (by simp)
  · exact Keeps.of_events [.blob cid] he hh (by simp [Event.plain])

theorem leafOf_concat {ledger : List LedgerEntry} (leaf : LedgerEntry)
    (hnone : leafOf ledger leaf.transformation = none) :
    leafOf (ledger ++ [leaf]) leaf.transformation = some leaf := by
  simp only [leafOf] at hnone ⊢
  rw [List.find?_append, hnone]
  simp

/-- What the settling of a pending escrow leaves. -/
structure Settled (s s' : Sys) (id : TransformationId) (inverse : Option Cid) : Prop where
  keeps : Keeps id s s'
  notes : s'.engine.notes id = s.engine.notes id ++ [.inverseCompleted inverse]

theorem Settled.row {s s' : Sys} {inverse : Option Cid} (h : Settled s s' id inverse) :
    escrowOf? id (s'.engine.notes id) =
      some ⟨id, inverse, if inverse.isSome then .available else .unavailable⟩ := by
  rw [h.notes, escrowOf?_append]
  rfl

theorem Settled.mem_attempt {s s' : Sys} {inverse : Option Cid} (h : Settled s s' id inverse) :
    .inverseCompleted inverse ∈ attempt (s'.engine.notes id) := by
  rw [h.notes, attempt_append_silent (by simp [Note.silent])]
  exact List.mem_append_right _ (List.mem_singleton.mpr rfl)

end Engine

/-- The inversion of a commit under way has been recorded, and is held as it was recorded. -/
structure Held (s : Sys) (id : TransformationId) (outcome : InvertOutcome)
    (escrowed : Option Escrowed) [Canon] : Prop where
  noted : ∃ pending, .inverseEscrowed (escrowBody outcome pending) ∈ attempt (s.engine.notes id)
  row : escrowOf? id (s.engine.notes id) =
    some (escrowRow id outcome (escrowed.any (·.pending)))
  inverse : outcome.inverse = escrowed.map (·.inverse)

variable [Canon]

/-- What an undo supersedes is a live row that is committed, of the undo's parents and subject,
whose escrowed inverse the undo applied. -/
theorem supersededOriginal_spec {e : Engine} {id by_ : TransformationId}
    (h : supersededOriginal e by_ = some id) :
    ∃ undo entry row, e.table[by_]? = some undo ∧ e.table[id]? = some entry ∧
      e.escrow[id]? = some row ∧ id ∈ undo.transformation.parents ∧ entry.state = .committed ∧
      row.inverseCid = some undo.delta.cid ∧ row.status = .available ∧ id ∉ e.supersedes := by
  obtain ⟨undo, hundo, hfind⟩ := Option.bind_eq_some_iff.mp h
  have hmem := List.mem_of_find?_eq_some hfind
  have hp := List.find?_some hfind
  split at hp
  next row entry hrow hentry =>
    simp only [decide_eq_true_eq] at hp
    exact ⟨undo, entry, row, hundo, hentry, hrow, hmem, hp.2.2.1, hp.1, hp.2.1, hp.2.2.2.2⟩
  next => cases hp

theorem Held.of_engine {s s' : Sys} {id : TransformationId} {outcome : InvertOutcome}
    {escrowed : Option Escrowed} (h : Held s id outcome escrowed) (he : s'.engine = s.engine) :
    Held s' id outcome escrowed := by
  obtain ⟨hnoted, hrow, hinverse⟩ := h
  exact ⟨by rw [he]; exact hnoted, by rw [he]; exact hrow, hinverse⟩

theorem escrowOf?_escrowBody (id : TransformationId) (notes : List Note) (outcome : InvertOutcome)
    (pending : Bool) (h : pending = true → outcome.inverse.isSome) :
    escrowOf? id (notes ++ [.inverseEscrowed (escrowBody outcome pending)]) =
      some (escrowRow id outcome pending) := by
  rw [escrowOf?_append]
  cases outcome with
  | inverted inverse reads => cases pending <;> rfl
  | none reads =>
    cases pending with
    | true => cases h rfl
    | false => rfl
  | undetermined reads =>
    cases pending with
    | true => cases h rfl
    | false => rfl

namespace Engine

variable {pol : Policy} {ids : TransformationId → Prop} {id : TransformationId} {w : World}
  {s : Sys} {entry : Entry}

theorem moves_measure {kind : SubstrateKind} {locator : String} {Q : Fingerprint → Sys → Prop}
    (hid : ids id)
    (h : ∀ fp s', s'.engine = s.engine → s'.disk = s.disk → Keeps id s s' → Q fp s') :
    Moves pol ids w (measure kind locator) s Q := by
  refine .bind (moves_queryOr hid fun snap _ => moves_queryOr hid fun fp _ => h fp _ rfl rfl ?_)
  exact (Keeps.push rfl).trans (Keeps.push rfl)

theorem moves_casGuard {stamp : Timestamp} {Q : Option Lifecycle → Sys → Prop} (hid : ids id)
    (hc : InCommit s id entry) (hgo : ∀ s', s'.engine = s.engine → Keeps id s s' → Q none s')
    (hstop : ∀ state s', Q (some state) s') :
    Moves pol ids w (casGuard id entry stamp) s Q := by
  refine .bind (moves_measure hid fun fp s' he _ hk => ?_)
  have hmay : MayAbort s' id := .commit entry (hk.inCommit hc)
  split
  next => exact .pure (hgo s' he hk)
  next => exact .bind (moves_abort hid hmay (.pure (hstop _ _)))
  next => exact .bind (moves_abort hid hmay (.pure (hstop _ _)))

theorem moves_readWorld {kind : SubstrateKind} {locator : String}
    {Q : Option Fingerprint → Sys → Prop} (hid : ids id)
    (h : ∀ fp s', s'.engine = s.engine → s'.disk = s.disk → Keeps id s s' → Q fp s') :
    Moves pol ids w (readWorld kind locator) s Q := by
  have hk : Keeps id s (s.push .asked) := Keeps.push rfl
  refine .bind (moves_query hid ?_)
  split
  next => exact .pure (h none _ rfl rfl hk)
  next guard _ =>
    refine .bind (moves_query hid ?_)
    split
    next => exact .pure (h none _ rfl rfl (hk.trans (Keeps.push rfl)))
    next fp _ => exact .pure (h (some fp) _ rfl rfl (hk.trans (Keeps.push rfl)))

theorem moves_applyOnce {kind : SubstrateKind} {delta : PlannedDelta} {stamp : Timestamp}
    {Q : Except String AppliedDelta → Sys → Prop} (hid : ids id)
    (hlast : s.engine.records.getLast? = some (.about id (.applyStarted delta.cid) stamp))
    (h : ∀ answer, answer = (w s.history).apply kind delta →
      Q answer (s.push (.apply id delta answer))) :
    Moves pol ids w (applyOnce id kind delta) s Q := by
  refine .bind (.ask (.bind (.get ?_)))
  split
  next => exact .bind (.modify ⟨id, hid, .crashed s⟩ .throw)
  next =>
    exact .bind (.modify ⟨id, hid, .applied s kind delta stamp hlast⟩ (.pure (h _ rfl)))

theorem moves_announceApply {kind : SubstrateKind} {delta : PlannedDelta} {stamp : Timestamp}
    {outcome : InvertOutcome} {escrowed : Option Escrowed}
    {Q : Except String AppliedDelta → Sys → Prop} (hid : ids id)
    (hpol : ∃ before, pol.commits before id) (hc : InCommit s id entry)
    (hp : (s.engine.row id).provenance = some (deriveProvenance s.engine entry))
    (hh : Held s id outcome escrowed)
    (h : ∀ answer s', InCommit s' id entry → Held s' id outcome escrowed →
      (s'.engine.row id).provenance = some (deriveProvenance s'.engine entry) →
      lastApply id s'.history = some (delta, answer) → Q answer s') :
    Moves pol ids w (announceApply id kind delta stamp) s Q := by
  obtain ⟨pending, hnoted⟩ := hh.noted
  have hk : Keeps id s ((s.note id (.applyStarted delta.cid) stamp).live id fun e =>
      { e with applyStarted := some delta.cid }) :=
    (Keeps.note rfl stamp).trans (Keeps.of_live fun e => ⟨by constructor <;> rfl, rfl⟩)
  refine .bind (moves_noteLive hid (.announced s entry delta stamp hc ⟨_, hnoted⟩ hpol) ?_)
  refine moves_applyOnce hid List.getLast?_concat fun answer _ => h answer _ ?_ ?_ ?_ ?_
  · exact (hk.inCommit hc).push rfl fun _ hne => nomatch hne
  · refine ⟨⟨pending, hk.mem_attempt hnoted⟩, ?_, hh.inverse⟩
    refine Eq.trans ?_ hh.row
    exact (congrArg (escrowOf? id) (Sys.notes_note s id _ stamp)).trans (escrowOf?_append _ _ _)
  · exact hk.provenance hp
  · exact lastApply_push id _ delta answer

theorem moves_escrowHeld {row : EscrowRow} {Q : Unit → Sys → Prop} (hid : ids id)
    (hrow : escrowOf? id (s.engine.notes id) = some row)
    (hpending : row.status = .pending → id ∈ s.engine.table)
    (h : Q () (s.withEngine fun e => { e with escrow := e.escrow.insert id row })) :
    Moves pol ids w (insertEscrow id row) s Q :=
  moves_update hid (.escrowHeld s row hrow hpending) h

theorem idle_inverseCid (o : Option Cid) :
    Entry.Idle fun entry => { entry with inverseCid := o } :=
  ⟨fun _ => by constructor <;> rfl, fun _ _ => rfl, fun _ => rfl⟩

theorem moves_needs {inverse : PlannedDelta} {Q : Bool → Sys → Prop} (hid : ids id)
    (h : ∀ b s', s'.engine = s.engine → Keeps id s s' → Q b s') :
    Moves pol ids w (escrowInverse.needs entry inverse) s Q := by
  refine .bind (moves_self ?_)
  split
  next => exact moves_queryOr hid fun b _ => h b _ rfl (Keeps.push rfl)
  next => exact .pure (h false s rfl (Keeps.refl id s))

theorem keeps_escrowed (id : TransformationId) (s : Sys) (outcome : InvertOutcome) (pending : Bool)
    (stamp : Timestamp) (hpending : pending = true → outcome.inverse.isSome) :
    Keeps id s (s.note id (.inverseEscrowed (escrowBody outcome pending)) stamp) ∧
    .inverseEscrowed (escrowBody outcome pending) ∈
      attempt ((s.note id (.inverseEscrowed (escrowBody outcome pending)) stamp).engine.notes id) ∧
    escrowOf? id
      ((s.note id (.inverseEscrowed (escrowBody outcome pending)) stamp).engine.notes id) =
        some (escrowRow id outcome pending) := by
  refine ⟨Keeps.note rfl stamp, ?_, ?_⟩
  · rw [Sys.notes_note, attempt_append_silent (by simp [Note.silent])]
    exact List.mem_append_right _ (List.mem_singleton.mpr rfl)
  · rw [Sys.notes_note]
    exact escrowOf?_escrowBody id _ outcome pending hpending

theorem moves_escrowInverse {outcome : InvertOutcome} {stamp : Timestamp}
    {Q : Option Escrowed → Sys → Prop} (hid : ids id) (hc : InCommit s id entry)
    (h : ∀ escrowed s', Keeps id s s' → Held s' id outcome escrowed → Q escrowed s') :
    Moves pol ids w (escrowInverse id entry outcome stamp) s Q := by
  unfold escrowInverse
  split
  next inverse hinverse =>
    refine .bind (moves_needs hid fun pending s₁ _ hk₁ => ?_)
    obtain ⟨hk₂, hnoted, hrow⟩ := keeps_escrowed id s₁ outcome pending stamp fun _ => by
      rw [hinverse]; rfl
    refine .bind (moves_noteOnly hid (.escrowed s₁ entry outcome pending stamp (hk₁.inCommit hc)) ?_)
    refine .bind (moves_blobPut hid fun s₃ he₃ _ hh₃ _ => ?_)
    have hk₃ : Keeps id _ s₃ := keeps_blobPut he₃ hh₃
    have hc₃ : InCommit s₃ id entry := hk₃.inCommit (hk₂.inCommit (hk₁.inCommit hc))
    rw [← he₃] at hnoted hrow
    refine .bind (moves_escrowHeld hid hrow (fun _ => hc₃.mem_table) (.bind (moves_idle hid (idle_inverseCid _) (fun _ _ => .inl) ?_)))
    refine .pure (h _ _ ?_ ⟨⟨pending, hnoted⟩, hrow, by rw [hinverse]; rfl⟩)
    exact (((hk₁.trans hk₂).trans hk₃).trans (keeps_escrow _)).trans (keeps_inverseCid _)
  next hinverse =>
    obtain ⟨hk, hnoted, hrow⟩ := keeps_escrowed id s outcome false stamp fun hp => nomatch hp
    refine .bind (moves_noteOnly hid (.escrowed s entry outcome false stamp hc) ?_)
    refine .bind (moves_escrowHeld hid hrow (fun _ => (hk.inCommit hc).mem_table) (.pure (h _ _ (hk.trans (keeps_escrow _)) ?_)))
    exact ⟨⟨false, hnoted⟩, hrow, hinverse⟩

theorem moves_worldTheFailedApplyLeft {Q : CompensationVerdict → Sys → Prop} (hid : ids id)
    (h : ∀ v s', s'.engine = s.engine → Keeps id s s' → Q v s') :
    Moves pol ids w (worldTheFailedApplyLeft entry) s Q := by
  refine .bind (moves_readWorld hid fun fp s' he _ hk => ?_)
  split
  next => exact .pure (h _ s' he hk)
  next =>
    split
    next => exact .pure (h _ s' he hk)
    next => exact .pure (h _ s' he hk)
    next => exact .pure (h _ s' he hk)

theorem moves_worldIsStillAt {expected : Fingerprint} {Q : Option Bool → Sys → Prop}
    (hid : ids id) (h : ∀ v s', s'.engine = s.engine → Keeps id s s' → Q v s') :
    Moves pol ids w (worldIsStillAt entry expected) s Q := by
  refine .bind (moves_readWorld hid fun fp s' he _ hk => ?_)
  split
  next => exact .pure (h _ s' he hk)
  next => exact .pure (h _ s' he hk)

theorem moves_rollbackLanded {Q : Rollback → Sys → Prop} (hid : ids id)
    (h : ∀ v s', Keeps id s s' → Q v s') : Moves pol ids w (rollbackLanded entry) s Q := by
  refine .bind (moves_readWorld hid fun fp s' _ _ hk => ?_)
  split
  next => exact .pure (h _ s' hk)
  next =>
    split
    next => exact .pure (h _ s' hk)
    next => exact .pure (h _ s' hk)
    next => exact .pure (h _ s' hk)

theorem moves_notAttempted {why : NotAttemptedBecause} {Q : Rollback → Sys → Prop} (hid : ids id)
    (h : ∀ s', Keeps id s s' → s'.engine.records = s.engine.records →
      s'.engine.table = s.engine.table → Q .notAttempted s') :
    Moves pol ids w (notAttempted id why) s Q :=
  .bind (moves_update hid (.explained s why) (.pure (h _ (Keeps.of_engine rfl rfl rfl rfl) rfl rfl)))

theorem moves_compensate {escrowed : Option Escrowed} {outcome : InvertOutcome} {stamp : Timestamp}
    {Q : Rollback → Sys → Prop} (hid : ids id) (hpol : ∃ before, pol.commits before id)
    (hc : InCommit s id entry)
    (hp : (s.engine.row id).provenance = some (deriveProvenance s.engine entry))
    (hh : Held s id outcome escrowed) (h : ∀ v s', InCommit s' id entry → Q v s') :
    Moves pol ids w (compensate id entry escrowed stamp) s Q := by
  unfold compensate
  split
  next => exact moves_notAttempted hid fun s' hk _ _ => h _ s' (hk.inCommit hc)
  next => exact moves_notAttempted hid fun s' hk _ _ => h _ s' (hk.inCommit hc)
  next inverse =>
    refine .bind (moves_worldTheFailedApplyLeft hid fun left s₁ he₁ hk₁ => ?_)
    have hc₁ := hk₁.inCommit hc
    split
    next => exact moves_notAttempted hid fun s' hk _ _ => h _ s' (hk.inCommit hc₁)
    next => exact moves_notAttempted hid fun s' hk _ _ => h _ s' (hk.inCommit hc₁)
    next =>
      refine .bind (moves_worldIsStillAt hid fun still s₂ he₂ hk₂ => ?_)
      have hc₂ := hk₂.inCommit hc₁
      split
      next => exact moves_notAttempted hid fun s' hk _ _ => h _ s' (hk.inCommit hc₂)
      next => exact moves_notAttempted hid fun s' hk _ _ => h _ s' (hk.inCommit hc₂)
      next =>
        refine .bind (moves_announceApply hid hpol hc₂ (hk₂.provenance (hk₁.provenance hp))
          ((hh.of_engine he₁).of_engine he₂) fun answer s₃ hc₃ _ _ _ => ?_)
        split
        next => exact moves_rollbackLanded hid fun v s' hk => h v s' (hk.inCommit hc₃)
        next => exact .pure (h _ s₃ hc₃)

theorem moves_observationPut {bytes : Bytes} {Q : Unit → Sys → Prop} (hid : ids id)
    (h : ∀ s', s'.engine = s.engine → Keeps id s s' → Q () s') :
    Moves pol ids w (observationPut bytes) s Q := by
  refine .bind (.get ?_)
  split
  next => exact .pure (h s rfl (Keeps.refl id s))
  next =>
    refine moves_durable hid (.observation s bytes) (h _ rfl ?_)
    exact Keeps.of_events [.observation (Canon.observation bytes)] rfl rfl (by simp [Event.plain])

theorem moves_recordObservation {bytes : Bytes} {stamp : Timestamp} {Q : Unit → Sys → Prop}
    (hid : ids id) (hc : InCommit s id entry)
    (h : ∀ s', Keeps id s s' →
      escrowOf? id (s'.engine.notes id) = escrowOf? id (s.engine.notes id) → Q () s') :
    Moves pol ids w (recordObservation id bytes stamp) s Q := by
  refine .bind (moves_noteOnly hid (.observed s entry _ stamp hc) ?_)
  refine .bind (moves_observationPut hid fun s₂ he₂ hk₂ => ?_)
  have hnotes : s₂.engine.notes id =
      s.engine.notes id ++ [.applyObserved (Canon.observation bytes)] := by
    rw [he₂, Sys.notes_note]
  refine moves_modifyEntry hid (.observationNamed s₂ _ ?_) (h _ ?_ ?_)
  · rw [Engine.row, hnotes, rowOf_append]
    rfl
  · exact ((Keeps.note rfl stamp).trans hk₂).trans
      (Keeps.of_live fun _ => ⟨by constructor <;> rfl, rfl⟩)
  · refine (congrArg (escrowOf? id) hnotes).trans ?_
    rw [escrowOf?_append]
    rfl

theorem moves_completedInverse {partialInverse : Option PlannedDelta} {observation : Option Bytes}
    {Q : Option PlannedDelta → Sys → Prop} (hid : ids id)
    (h : ∀ full s', s'.engine = s.engine → Keeps id s s' → Q full s') :
    Moves pol ids w (completedInverse partialInverse observation) s Q := by
  unfold completedInverse
  split
  next =>
    refine .bind (moves_self ?_)
    split
    next =>
      refine .bind (moves_query hid ?_)
      split
      next => exact .pure (h _ _ rfl (Keeps.push rfl))
      next => exact .pure (h _ _ rfl (Keeps.push rfl))
    next => exact .pure (h _ _ rfl (Keeps.refl id s))
  next => exact .pure (h _ _ rfl (Keeps.refl id s))

theorem moves_settlePendingEscrow {partialInverse : Option PlannedDelta}
    {observation : Option Bytes} {stamp : Timestamp} {Q : Option Cid → Sys → Prop} (hid : ids id)
    (hstate : stateOf? (s.engine.notes id) = some .committing)
    (hpending : ∃ row, escrowOf? id (s.engine.notes id) = some row ∧ row.status = .pending)
    (h : ∀ inverse s', Settled s s' id inverse → Q inverse s') :
    Moves pol ids w (settlePendingEscrow id partialInverse observation stamp) s Q := by
  refine .bind (moves_completedInverse hid fun full s₁ he₁ hk₁ => ?_)
  rw [← he₁] at hstate hpending
  split
  next full =>
    refine .bind (moves_noteOnly hid (.completed s₁ (some full.cid) stamp hstate hpending) ?_)
    refine .bind (moves_blobPut hid fun s₂ he₂ _ hh₂ _ => ?_)
    have hk₂ : Keeps id _ s₂ := keeps_blobPut he₂ hh₂
    have hnotes : s₂.engine.notes id = s.engine.notes id ++ [.inverseCompleted (some full.cid)] := by
      rw [he₂, Sys.notes_note, he₁]
    refine .bind (moves_escrowHeld hid ?_ (fun hpending => by cases hpending)
      (.bind (moves_idle hid (idle_inverseCid _) (fun _ _ => .inl) ?_)))
    · rw [hnotes, escrowOf?_append]
      rfl
    · refine .pure (h _ _ ⟨?_, hnotes⟩)
      exact (((hk₁.trans (Keeps.note rfl stamp)).trans hk₂).trans (keeps_escrow _)).trans
        (keeps_inverseCid _)
  next =>
    refine .bind (moves_noteOnly hid (.completed s₁ none stamp hstate hpending) ?_)
    have hnotes : (s₁.note id (.inverseCompleted none) stamp).engine.notes id =
        s.engine.notes id ++ [.inverseCompleted none] := by
      rw [Sys.notes_note, he₁]
    refine .bind (moves_escrowHeld hid ?_ (fun hpending => by cases hpending)
      (.bind (moves_idle hid (idle_inverseCid _) (fun _ _ => .inl) ?_)))
    · rw [hnotes, escrowOf?_append]
      rfl
    · refine .pure (h _ _ ⟨?_, hnotes⟩)
      exact ((hk₁.trans (Keeps.note rfl stamp)).trans (keeps_escrow _)).trans (keeps_inverseCid _)

/-- The inverse a receipt names is the one the journal now escrows, and the journal has it as the
inversion was recorded or as its completion was. -/
structure Final (s : Sys) (id : TransformationId) (outcome : InvertOutcome) (inverse : Option Cid) :
    Prop where
  noted : ∃ pending, .inverseEscrowed (escrowBody outcome pending) ∈ attempt (s.engine.notes id)
  settled : escrowOf? id (s.engine.notes id) = some (escrowRow id outcome false) ∨
    ∃ inverse, outcome.inverse.isSome ∧ .inverseCompleted inverse ∈ attempt (s.engine.notes id) ∧
      escrowOf? id (s.engine.notes id) =
        some ⟨id, inverse, if inverse.isSome then .available else .unavailable⟩
  inverse_eq : inverse = (escrowOf? id (s.engine.notes id)).bind (·.inverseCid)

theorem final_settled {outcome : InvertOutcome} {held : Escrowed} {s' : Sys} {inverse : Option Cid}
    (hh : Held s id outcome (some held)) (h : Settled s s' id inverse) :
    Final s' id outcome inverse := by
  obtain ⟨pending, hnoted⟩ := hh.noted
  refine ⟨⟨pending, h.keeps.mem_attempt hnoted⟩, .inr ⟨inverse, ?_, h.mem_attempt, h.row⟩, ?_⟩
  · rw [hh.inverse]
    rfl
  · rw [h.row]
    rfl

theorem moves_finalInverse {escrowed : Option Escrowed} {outcome : InvertOutcome}
    {applied : AppliedDelta} {stamp : Timestamp} {Q : Option Cid → Sys → Prop} (hid : ids id)
    (hc : InCommit s id entry) (hh : Held s id outcome escrowed)
    (h : ∀ inverse s', Keeps id s s' → Final s' id outcome inverse → Q inverse s') :
    Moves pol ids w (finalInverse id escrowed applied stamp) s Q := by
  unfold finalInverse
  split
  next =>
    refine .pure (h _ s (Keeps.refl id s) ⟨hh.noted, .inl hh.row, ?_⟩)
    rw [hh.row, escrowRow, hh.inverse]
    rfl
  next inverse =>
    refine .pure (h _ s (Keeps.refl id s) ⟨hh.noted, .inl hh.row, ?_⟩)
    rw [hh.row, escrowRow, hh.inverse]
    rfl
  next inverse =>
    have hpending : ∃ row, escrowOf? id (s.engine.notes id) = some row ∧ row.status = .pending := by
      refine ⟨_, hh.row, ?_⟩
      rw [escrowRow, hh.inverse]
      rfl
    have hsettle : ∀ observation, Moves pol ids w
        (settlePendingEscrow id (some inverse) observation stamp) s Q := fun observation =>
      moves_settlePendingEscrow hid hc.state hpending fun _ s' hs =>
        h _ s' hs.keeps (final_settled hh hs)
    split
    next => exact hsettle none
    next bytes _ =>
      split
      next =>
        refine .bind (moves_recordObservation hid hc fun s₁ hk₁ hrow₁ => ?_)
        have hh₁ : Held s₁ id outcome (some ⟨inverse, true⟩) := by
          obtain ⟨pending, hnoted⟩ := hh.noted
          exact ⟨⟨pending, hk₁.mem_attempt hnoted⟩, hrow₁.trans hh.row, hh.inverse⟩
        rw [← hrow₁] at hpending
        exact moves_settlePendingEscrow hid (hk₁.inCommit hc).state hpending fun _ s' hs =>
          h _ s' (hk₁.trans hs.keeps) (final_settled hh₁ hs)
      next => exact hsettle none

/-- The leaf of a transformation: the one it has, or a new one. -/
theorem moves_ledgerAppend {digest : Cid} {stamp : Timestamp} {Q : LedgerEntry → Sys → Prop}
    (hid : ids id)
    (hstep : leafOf s.engine.ledger id = none →
      Step pol w id s (s.leafed (stagedLeaf s.engine.ledger id digest stamp)))
    (h : ∀ leaf s', leafOf s'.engine.ledger id = some leaf → leaf.receiptDigest = digest →
      s'.engine.records = s.engine.records → s'.engine.table = s.engine.table → Q leaf s') :
    Moves pol ids w (ledgerAppend id digest stamp) s Q := by
  refine .bind (moves_self ?_)
  split
  next recorded hrecorded =>
    split
    next hdigest => exact .pure (h recorded s hrecorded hdigest rfl rfl)
    next => exact moves_fail
  next hnone =>
    refine .bind (moves_durable hid (hstep hnone) (.pure (h _ _ ?_ rfl rfl rfl)))
    exact leafOf_concat (stagedLeaf s.engine.ledger id digest stamp) hnone

theorem moves_fileReceipt {receipt : Receipt} {leaf : LedgerEntry} {Q : Unit → Sys → Prop}
    (hid : ids id) (hleaf : leafOf s.engine.ledger id = some leaf)
    (hdigest : receipt.payload.ledgerDigest = leaf.receiptDigest)
    (hreceipt : receipt.payload.transformation = id) (h : ∀ s', s'.engine = s.engine → Q () s') :
    Moves pol ids w (fileReceipt id receipt) s Q := by
  refine .bind (moves_self ?_)
  split
  next => exact .pure (h s rfl)
  next => exact moves_durable hid (.filed s receipt leaf hleaf hdigest hreceipt) (h _ rfl)

theorem moves_recordHead [Fact (pol.heads id)] {key : KeyId} {Q : Unit → Sys → Prop} (hid : ids id)
    (hleaf : (leafOf s.engine.ledger id).isSome)
    (h : ∀ s', s'.engine.records = s.engine.records → s'.engine.table = s.engine.table →
      s'.engine.ledger = s.engine.ledger → Q () s') :
    Moves pol ids w (recordHead key) s Q := by
  have hs : Q () s := h s rfl rfl rfl
  have hwrite : s.engine.config.keepsHead = true →
      (∀ old, s.engine.headFloor = some old → old.treeSize < s.engine.ledger.length) →
      Moves pol ids w (recordHead.writeHead key s.engine s.engine.ledger.length
        (rootAt s.engine.ledger s.engine.ledger.length)) s Q := by
    intro hkeeps hgrew
    refine .bind (.orThrow fun root hroot => moves_durable hid ?_ (h _ rfl rfl rfl))
    exact .headed s ⟨_, root, _, _⟩ key ⟨rfl, hroot, rfl, rfl⟩ hkeeps hgrew hleaf Fact.out
  refine .bind (moves_self (.ite (fun _ => .pure hs) fun hclosed => ?_))
  have hkeeps : s.engine.config.keepsHead = true := by
    cases hk : s.engine.config.keepsHead with
    | true => rfl
    | false =>
      rw [hk] at hclosed
      exact absurd rfl hclosed
  refine .ite (fun _ => .pure hs) fun _ => .ite (fun _ => .pure hs) fun _ => ?_
  dsimp only
  split
  next floor hfloor =>
    refine .ite (fun _ => .pure hs) fun hlower => .ite (fun _ => ?_) fun hsize => ?_
    · exact .ite (fun _ => .pure hs) fun _ => moves_fail
    · refine hwrite hkeeps fun old hold => ?_
      obtain rfl := Option.some.inj (hold.symm.trans hfloor)
      omega
  next hnone =>
    refine hwrite hkeeps fun old hold => ?_
    rw [hnone] at hold
    cases hold

theorem moves_recordCommitted {leaf : LedgerEntry} {stamp : Timestamp} {Q : Unit → Sys → Prop}
    (hid : ids id) (hleaf : leafOf s.engine.ledger id = some leaf)
    (hstate : stateOf? (s.engine.notes id) = some .committing)
    (h : ∀ s', s'.engine.notes id = s.engine.notes id ++ [.committed leaf.index] →
      s'.engine.ledger = s.engine.ledger → s'.engine.table = s.engine.table → Q () s') :
    Moves pol ids w (recordCommitted id leaf stamp) s Q :=
  moves_noteThen hid (.committed s leaf stamp hleaf hstate)
    (h _ (Sys.notes_note s id _ stamp) rfl rfl)

theorem moves_supersedeAfterCommit {stamp : Timestamp} {Q : Option TransformationId → Sys → Prop}
    (hstate : stateOf? (s.engine.notes id) = some .committed) (h : ∀ o s', Q o s') :
    Moves pol every w (supersedeAfterCommit id stamp) s Q := by
  refine .bind (moves_self ?_)
  split
  next => exact .pure (h _ _)
  next original horiginal =>
    exact .bind (moves_noteThen (every_holds original)
      (.superseded s id stamp horiginal hstate) (.pure (h _ _)))

theorem moves_issueOr {action : String} {payload : ReceiptPayload} {stamp : Timestamp}
    {key : KeyId} {Q : Receipt → Sys → Prop} (h : ∀ r, r.payload = payload → Q r s) :
    Moves pol ids w (issueOr action payload stamp key) s Q := by
  unfold issueOr
  split
  next r hr => exact .pure (h r (Receipt.payload_issue hr))
  next => exact moves_fail

theorem ledgerDigest_proof (facts : CommitFacts) (proof : Option InclusionProof) :
    ({ facts.payload with inclusionProof := proof } : ReceiptPayload).ledgerDigest =
      facts.payload.ledgerDigest := rfl

theorem moves_closeCommit [Fact (pol.heads id)] {facts : CommitFacts} {stamp : Timestamp} {key : KeyId}
    (entry : Entry) (outcome : InvertOutcome) (applied : AppliedDelta)
    (hstate : stateOf? (s.engine.notes id) = some .committing) (hfacts : facts.transformation = id)
    (hleaf : leafOf s.engine.ledger id = none → LiveLeaf s id entry outcome applied facts) :
    Moves pol every w (closeCommit id facts stamp key) s fun _ _ => True := by
  have hid := every_holds id
  refine .bind (moves_ledgerAppend hid (fun hnone => .leafed s entry outcome applied facts stamp
    (hleaf hnone)) fun leaf s₁ hleaf₁ hdigest₁ hrecords₁ _ => ?_)
  have hstate₁ : stateOf? (s₁.engine.notes id) = some .committing := by
    rw [Engine.notes, hrecords₁]
    exact hstate
  refine .bind (moves_self (.bind (.orThrow fun proof _ => .bind (moves_issueOr fun r hr => ?_))))
  have hreceipt : r.payload.ledgerDigest = leaf.receiptDigest := by
    rw [hr, hdigest₁]
    exact ledgerDigest_proof facts _
  refine .bind (moves_fileReceipt hid hleaf₁ hreceipt (by rw [hr]; exact hfacts) fun s₂ he₂ => ?_)
  rw [← he₂] at hleaf₁ hstate₁
  refine .bind (moves_recordCommitted hid hleaf₁ hstate₁ fun s₃ hnotes₃ hledger₃ _ => ?_)
  refine .bind (moves_recordHead hid (by rw [hledger₃, hleaf₁]; rfl) fun s₄ hrecords₄ _ hledger₄ => ?_)
  have hcommitted : stateOf? (s₄.engine.notes id) = some .committed := by
    rw [Engine.notes, hrecords₄]
    exact (congrArg stateOf? hnotes₃).trans (stateOf?_append _ _)
  have hissued : IssuedFor s₄.engine.ledger id r := by
    rw [hledger₄, hledger₃]
    exact ⟨leaf, hleaf₁, hreceipt⟩
  refine .bind (moves_modifyEntry hid (.closed s₄ _ stamp hcommitted (fun _ => rfl) ?_) ?_)
  · intro before receipt heq
    obtain rfl := Option.some.inj heq
    exact .inr hissued
  exact .bind (moves_supersedeAfterCommit hcommitted fun _ _ => .pure trivial)

theorem moves_settleApplied [Fact (pol.heads id)] {canonicalCid : Cid} {verdict : Option VerdictSummary}
    {outcome : InvertOutcome} {escrowed : Option Escrowed} {applied : AppliedDelta}
    {stamp : Timestamp} {key : KeyId} (hc : InCommit s id entry)
    (hp : (s.engine.row id).provenance = some (deriveProvenance s.engine entry))
    (hh : Held s id outcome escrowed) (hcanonical : entry.canonicalCid = some canonicalCid)
    (hverdict : receiptVerdict entry.verdict entry.verdictDigest entry.failPostureEngaged =
      some verdict)
    (hlast : lastApply id s.history = some (entry.delta, .ok applied)) :
    Moves pol every w
      (settleApplied id entry canonicalCid verdict outcome escrowed applied stamp key) s
      fun _ _ => True := by
  have hid := every_holds id
  refine .bind (moves_finalInverse hid hc hh fun inverse s₁ hk₁ hfinal => ?_)
  have hc₁ := hk₁.inCommit hc
  refine .bind (moves_entryOf fun live hlive => ?_)
  split
  next =>
    refine .bind (moves_notAttempted hid fun s₂ hk₂ _ _ => ?_)
    exact moves_abort hid (.commit entry (hk₂.inCommit hc₁)) trivial
  next hkept =>
    refine .bind (moves_self ?_)
    refine moves_closeCommit entry outcome applied hc₁.state rfl fun hnone => ?_
    refine ⟨hc₁, hnone, hk₁.lastApply_eq.trans hlast, ?_, ?_, hk₁.provenance hp, hfinal.noted,
      hfinal.settled⟩
    · intro promised htarget
      obtain ⟨now, hnow, _, hsame⟩ := hc₁.live
      rw [hlive, Option.some.injEq] at hnow
      rw [← hnow] at hsame
      by_contra hne
      refine hkept ?_
      rw [← hsame.transformation, htarget]
      simpa using hne
    · exact ⟨live, canonicalCid, verdict, inverse, key, rfl, hlive, hcanonical, hverdict,
        hfinal.inverse_eq⟩

theorem moves_requireBody {escrowed : Option Escrowed} {Q : Unit → Sys → Prop} (h : Q () s) :
    Moves pol ids w (requireBody escrowed) s Q :=
  moves_whenSome (fun _ _ => .bind (.get (moves_refuseIf fun _ => h))) fun _ => h

theorem moves_commitEscrow [Fact (pol.heads id)] {canonicalCid : Cid} {verdict : Option VerdictSummary}
    {stamp : Timestamp} {key : KeyId} (hpol : ∃ before, pol.commits before id)
    (hc : InCommit s id entry)
    (hp : (s.engine.row id).provenance = some (deriveProvenance s.engine entry))
    (hcanonical : entry.canonicalCid = some canonicalCid)
    (hverdict : receiptVerdict entry.verdict entry.verdictDigest entry.failPostureEngaged =
      some verdict) :
    Moves pol every w (commitEscrow id entry canonicalCid verdict stamp key) s
      fun _ _ => True := by
  have hid := every_holds id
  refine .bind (moves_queryOr hid fun outcome _ => ?_)
  have hk₁ : Keeps id s (s.push .asked) := Keeps.push rfl
  refine .bind (moves_escrowInverse hid (hk₁.inCommit hc) fun escrowed s₂ hk₂ hh₂ => ?_)
  have hk := hk₁.trans hk₂
  refine .bind (moves_requireBody (.bind (moves_casGuard hid (hk.inCommit hc) ?_ ?_)))
  · intro s₃ he₃ hk₃
    have hk₃ := hk.trans hk₃
    refine .bind (moves_announceApply hid hpol (hk₃.inCommit hc) (hk₃.provenance hp)
      (hh₂.of_engine he₃) fun answer s₄ hc₄ hh₄ hp₄ hlast₄ => ?_)
    split
    next =>
      refine .bind (moves_compensate hid hpol hc₄ hp₄ hh₄ fun _ s₅ hc₅ => ?_)
      exact moves_abort hid (.commit entry hc₅) trivial
    next => exact moves_settleApplied hc₄ hp₄ hh₄ hcanonical hverdict hlast₄
  · intro _ _
    exact .pure trivial

theorem moves_startCommitting {stamp : Timestamp} {Q : Unit → Sys → Prop}
    (hlive : s.engine.table[id]? = some entry) (hstate : entry.state = .canonicalized)
    (hcanonical : entry.canonicalCid.isSome)
    (hverdict :
      (receiptVerdict entry.verdict entry.verdictDigest entry.failPostureEngaged).isSome)
    (hpol : pol.commits s.engine id)
    (h : ∀ s', InCommit s' id entry →
      (s'.engine.row id).provenance = some (deriveProvenance s'.engine entry) → Q () s') :
    Moves pol every w (startCommitting id entry stamp) s Q := by
  have hid := every_holds id
  refine .bind (moves_appendThen hid
    (.committing s entry stamp hlive hstate hcanonical hverdict hpol) ?_)
  have hlive₁ : ((s.append (.about id .committingStarted stamp)).live id
      (Entry.at .committing stamp)).engine.table[id]? = some (Entry.at .committing stamp entry) := by
    rw [getElem?_live]
    exact congrArg (Option.map _) hlive
  have hc₁ : InCommit ((s.append (.about id .committingStarted stamp)).live id
      (Entry.at .committing stamp)) id entry := by
    refine ⟨⟨_, hlive₁, rfl, by constructor <;> rfl⟩, ?_, ?_⟩
    · exact (congrArg stateOf? (Sys.notes_append s id _ stamp)).trans (stateOf?_append _ _)
    · intro leaf hleaf
      rw [Sys.history_live, Sys.history_append, attemptEvents,
        afterLast_marked (by simp [Event.starts])] at hleaf
      cases hleaf
  refine .bind (moves_self (moves_appendThen hid
    (.provenance _ entry stamp hc₁ ⟨s.engine, hpol⟩) (h _ ?_ ?_)))
  · refine ⟨⟨{ Entry.at .committing stamp entry with
      provenance := some (deriveProvenance s.engine entry) }, ?_, rfl, ?_⟩, ?_, ?_⟩
    · exact (getElem?_live (Sys.append _ _) id _).trans (congrArg (Option.map _) hlive₁)
    · constructor <;> rfl
    · refine (congrArg stateOf? (Sys.notes_append _ id _ stamp)).trans ?_
      rw [stateOf?_append]
      exact hc₁.state
    · exact (hc₁.push (Event.starts_provenance id _ stamp) fun _ hne => nomatch hne).noLeaf
  · refine (congrArg (fun notes => (rowOf id notes).provenance) (Sys.notes_append _ id _ stamp)).trans ?_
    rw [rowOf_append]
    rfl

theorem moves_commitCanonicalized [Fact (pol.heads id)] {stamp : Timestamp} {key : KeyId}
    (hlive : s.engine.table[id]? = some entry) (hstate : entry.state = .canonicalized)
    (hpol : entry.canonicalCid.isSome →
      (receiptVerdict entry.verdict entry.verdictDigest entry.failPostureEngaged).isSome →
      (s.engine.config.adapters entry.delta.substrate).isSome → pol.commits s.engine id) :
    Moves pol every w (commitCanonicalized id entry stamp key) s fun _ _ => True := by
  refine .bind (.orThrow fun canonicalCid hcanonical => .bind (.orThrow fun verdict hverdict => ?_))
  refine .bind (moves_adapter fun hadapter => ?_)
  have hcanonical' : entry.canonicalCid.isSome := by rw [hcanonical]; rfl
  have hverdict' : (receiptVerdict entry.verdict entry.verdictDigest
      entry.failPostureEngaged).isSome := by rw [hverdict]; rfl
  have hcommits := hpol hcanonical' hverdict' hadapter
  refine .bind (moves_startCommitting hlive hstate hcanonical' hverdict' hcommits fun s₁ hc₁ hp₁ => ?_)
  refine .bind (moves_casGuard (every_holds id) hc₁ (fun s₂ _ hk₂ => ?_) fun _ _ => .pure trivial)
  exact moves_commitEscrow ⟨s.engine, hcommits⟩ (hk₂.inCommit hc₁) (hk₂.provenance hp₁) hcanonical hverdict

theorem moves_commit [Fact (pol.heads id)] {stamp : Timestamp} {key : KeyId}
    (hpol : ∀ entry, s.engine.table[id]? = some entry → entry.state = .canonicalized →
      entry.canonicalCid.isSome →
      (receiptVerdict entry.verdict entry.verdictDigest entry.failPostureEngaged).isSome →
      (s.engine.config.adapters entry.delta.substrate).isSome → pol.commits s.engine id) :
    Moves pol every w (commit id stamp key) s fun _ _ => True := by
  refine .bind (moves_expireIfDue (every_holds id) fun _ s₁ hs₁ => ?_)
  refine .bind (moves_entryOf fun entry hentry => ?_)
  split
  next => exact .pure trivial
  next => exact .pure trivial
  next hstate =>
    rcases hs₁ with rfl | rfl
    · exact moves_commitCanonicalized hentry hstate (hpol entry hentry hstate)
    · rw [getElem?_live] at hentry
      obtain ⟨before, _, rfl⟩ := Option.map_eq_some_iff.mp hentry
      cases hstate
  next => exact moves_fail

end Engine

end Tracefold
