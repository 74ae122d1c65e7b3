import Mathlib.Tactic.Common
import Tracefold.Warrant

/-! What a leaf of the ledger is the digest of: the ruling, the canonical form and the apply that
its commit rests on. -/

namespace Tracefold

open Library Engine
open Std (ExtTreeMap)

/-- What a receipt says of a ruling: nothing of one that passed over an unreachable collector. -/
def Note.summary : Note → Option VerdictSummary
  | .verdict kind (some proofDigest) false => some ⟨kind, proofDigest⟩
  | .humanDecision kind _ _ (some proofDigest) => some ⟨kind, proofDigest⟩
  | _ => none

/-- The notes that say what was ruled, and what canonicalization made of it. -/
def Note.rules : Note → Bool
  | .verdict _ _ _ | .humanDecision _ _ _ _ | .canonicalized _ _ => true
  | _ => false

/-- A note about canonicalization says last whether the row is recorded without being enforced. -/
def Note.withholds (held : Bool) : Note → Bool
  | .canonicalized _ enforced => enforced = some false
  | _ => held

/-- The last canonicalization recorded the row as not enforced. -/
def withheld (notes : List Note) : Bool := notes.foldl Note.withholds false

theorem withheld_append (notes : List Note) (n : Note) :
    withheld (notes ++ [n]) = n.withholds (withheld notes) := by
  simp [withheld]

theorem Note.withholds_quiet {n : Note} (h : n.rules = false) (held : Bool) :
    n.withholds held = held := by
  cases n with
  | canonicalized => cases h
  | _ => rfl

theorem Note.works_quiet {n : Note} (h : n.works = true) : n.rules = false := by
  cases n with
  | provenanceDerived | inverseEscrowed | applyStarted | applyObserved | inverseCompleted => rfl
  | _ => cases h

/-- What two rows of the journal say of the ruling is the same. -/
structure StateRow.SameRuling (a b : StateRow) : Prop where
  verdict : a.verdict = b.verdict
  verdictDigest : a.verdictDigest = b.verdictDigest

theorem StateRow.absorb_quiet {n : Note} (h : n.rules = false) (row : StateRow) :
    (row.absorb n).SameRuling row := by
  cases n with
  | verdict | humanDecision | canonicalized => cases h
  | _ => exact ⟨rfl, rfl⟩

theorem enforced_rowOf (id : TransformationId) {notes : List Note} (h : withheld notes = true) :
    (rowOf id notes).enforced = false := by
  induction notes using List.reverseRecOn with
  | nil => cases h
  | append_singleton notes n ih =>
    rw [withheld_append] at h
    rw [rowOf_append]
    cases n with
    | canonicalized cid enforced =>
      have hwithheld : enforced = some false := of_decide_eq_true h
      exact if_pos hwithheld
    | verdict kind digest engaged =>
      cases engaged with
      | false => exact ih h
      | true => rfl
    | _ => exact ih h

theorem canonicalized_of_rowOf {id : TransformationId} {notes : List Note} {cid : Cid}
    (h : (rowOf id notes).canonicalCid = some cid) : ∃ enforced, .canonicalized cid enforced ∈ notes := by
  induction notes using List.reverseRecOn with
  | nil => cases h
  | append_singleton notes n ih =>
    have hold : (rowOf id notes).canonicalCid = some cid →
        ∃ enforced, .canonicalized cid enforced ∈ notes ++ [n] := fun hrow => by
      obtain ⟨enforced, hmem⟩ := ih hrow
      exact ⟨enforced, List.mem_append_left _ hmem⟩
    rw [rowOf_append] at h
    cases n with
    | canonicalized cid' enforced =>
      cases h
      exact ⟨enforced, List.mem_append_right _ List.mem_cons_self⟩
    | verdict kind digest engaged => cases engaged <;> exact hold h
    | _ => exact hold h

theorem planned_of_rowOf {id : TransformationId} {notes : List Note} {cid : Cid}
    (h : (rowOf id notes).deltaCid = some cid) :
    ∃ body, .planned body ∈ notes ∧ body.deltaCid = cid := by
  induction notes using List.reverseRecOn with
  | nil => cases h
  | append_singleton notes n ih =>
    have hold : (rowOf id notes).deltaCid = some cid →
        ∃ body, .planned body ∈ notes ++ [n] ∧ body.deltaCid = cid := fun hrow => by
      obtain ⟨body, hmem, hcid⟩ := ih hrow
      exact ⟨body, List.mem_append_left _ hmem, hcid⟩
    rw [rowOf_append] at h
    cases n with
    | planned body =>
      cases h
      exact ⟨body, List.mem_append_right _ List.mem_cons_self, rfl⟩
    | verdict kind digest engaged => cases engaged <;> exact hold h
    | _ => exact hold h

theorem rowOf_quiet (id : TransformationId) (notes : List Note) {more : List Note}
    (h : ∀ n ∈ more, n.rules = false) :
    (rowOf id (notes ++ more)).SameRuling (rowOf id notes) ∧
      withheld (notes ++ more) = withheld notes := by
  induction more using List.reverseRecOn with
  | nil => exact ⟨by rw [List.append_nil]; exact ⟨rfl, rfl⟩, by rw [List.append_nil]⟩
  | append_singleton more n ih =>
    obtain ⟨hrow, hheld⟩ := ih fun m hm => h m (List.mem_append_left _ hm)
    have hn : n.rules = false := h n (List.mem_append_right _ List.mem_cons_self)
    have hnext := (rowOf id (notes ++ more)).absorb_quiet hn
    rw [← List.append_assoc, rowOf_append, withheld_append, n.withholds_quiet hn]
    exact ⟨⟨hnext.verdict.trans hrow.verdict, hnext.verdictDigest.trans hrow.verdictDigest⟩, hheld⟩

/-- What the row of a warranted commit says: the summary of its ruling, and that it is not enforced
where its canonicalization said so. -/
theorem rowOf_warranted (id : TransformationId) (before : List Note) {ruling : Note} {cid : Cid}
    {enforced : Option Bool} {work : List Note} (hwarrant : Warrant ruling enforced)
    (hwork : ∀ n ∈ work, n.works = true) {notes : List Note}
    (hnotes : notes = before ++ ruling :: .canonicalized cid enforced :: .committingStarted :: work) :
    (∀ engaged verdict, receiptVerdict (rowOf id notes).verdict (rowOf id notes).verdictDigest
        engaged = some verdict → verdict = ruling.summary) ∧
      (enforced = some false → withheld notes = true) := by
  have hsplit : notes = (before ++ [ruling] ++ [.canonicalized cid enforced]) ++
      ([.committingStarted] ++ work) := by
    rw [hnotes]
    simp
  have hquiet : ∀ n ∈ [Note.committingStarted] ++ work, n.rules = false := by
    intro n hn
    rcases List.mem_append.mp hn with hstart | hrest
    · rw [List.mem_singleton.mp hstart]
      rfl
    · exact Note.works_quiet (hwork n hrest)
  obtain ⟨hrow, hheld⟩ := rowOf_quiet id (before ++ [ruling] ++ [.canonicalized cid enforced]) hquiet
  rw [← hsplit, withheld_append] at hheld
  rw [← hsplit, rowOf_append, rowOf_append] at hrow
  refine ⟨fun engaged verdict hverdict => ?_, fun h => ?_⟩
  · rw [hrow.verdict, hrow.verdictDigest] at hverdict
    have hruled : ∀ kind proof, ((rowOf id before).absorb ruling).verdict = some kind →
        ((rowOf id before).absorb ruling).verdictDigest = some proof →
        verdict = some ⟨kind, proof⟩ := by
      intro kind proof hkind hproof
      rw [StateRow.absorb, hkind, hproof] at hverdict
      exact (Option.some.inj hverdict).symm
    cases hwarrant with
    | admitted hadmits =>
      cases hadmits with
      | ruled proof => exact hruled .Admit proof rfl rfl
      | decided reason actor proof => exact hruled .Admit proof rfl rfl
      | passed =>
        have hnone : receiptVerdict none none engaged = some verdict := hverdict
        cases engaged with
        | true => exact (Option.some.inj hnone).symm
        | false => cases hnone
    | recorded hrefuses =>
      cases hrefuses with
      | ruled proof => exact hruled .Deny proof rfl rfl
      | decided reason actor proof => exact hruled .Deny proof rfl rfl
  · rw [hheld, h]
    rfl

/-- The states of a row between its ruling and the end of its commit. -/
def Lifecycle.ruled : Lifecycle → Bool
  | .admitted | .denied | .escalated | .canonicalized | .committing => true
  | _ => false

/-- The states of a row between its canonicalization and the end of its commit. -/
def Lifecycle.carried : Lifecycle → Bool
  | .canonicalized | .committing => true
  | _ => false

theorem Lifecycle.ruled_of_carried {state : Lifecycle} (h : state.carried = true) :
    state.ruled = true := by
  cases state with
  | canonicalized | committing => rfl
  | _ => cases h

theorem stateOfVerdict_not_carried (kind : VerdictKind) : (stateOfVerdict kind).carried = false := by
  cases kind <;> rfl

/-- A row of the table says of its ruling what the journal says of it. -/
structure Entry.Tells (id : TransformationId) (notes : List Note) (entry : Entry) : Prop where
  canonical : ∀ cid, entry.canonicalCid = some cid → cid = id
  verdict : entry.state.ruled = true → entry.verdict = (rowOf id notes).verdict
  verdictDigest : entry.state.ruled = true → entry.verdictDigest = (rowOf id notes).verdictDigest
  withheld : entry.state.carried = true → withheld notes = true → entry.enforced = false

namespace Entry.Tells

variable {id : TransformationId} {notes : List Note} {entry entry' : Entry}

theorem unruled (hstate : entry.state.ruled = false)
    (hcanonical : ∀ cid, entry.canonicalCid = some cid → cid = id) : entry.Tells id notes where
  canonical := hcanonical
  verdict h := absurd h (by rw [hstate]; nofun)
  verdictDigest h := absurd h (by rw [hstate]; nofun)
  withheld h := absurd (Lifecycle.ruled_of_carried h) (by rw [hstate]; nofun)

theorem quiet (h : entry.Tells id notes) {more : List Note} (hmore : ∀ n ∈ more, n.rules = false)
    (hruled : entry'.state.ruled = true → entry.state.ruled = true)
    (hcarried : entry'.state.carried = true → entry.state.carried = true)
    (hsame : entry'.verdict = entry.verdict ∧ entry'.verdictDigest = entry.verdictDigest ∧
      entry'.enforced = entry.enforced ∧ entry'.canonicalCid = entry.canonicalCid) :
    entry'.Tells id (notes ++ more) := by
  obtain ⟨hrow, hheld⟩ := rowOf_quiet id notes hmore
  obtain ⟨hverdict, hdigest, henforced, hcanonical⟩ := hsame
  refine ⟨fun cid hcid => ?_, fun hstate => ?_, fun hstate => ?_, fun hstate hwithheld => ?_⟩
  · exact h.canonical cid (hcanonical ▸ hcid)
  · rw [hverdict, hrow.verdict]
    exact h.verdict (hruled hstate)
  · rw [hdigest, hrow.verdictDigest]
    exact h.verdictDigest (hruled hstate)
  · rw [henforced]
    exact h.withheld (hcarried hstate) (hheld ▸ hwithheld)

theorem ruledOn (h : entry.Tells id notes) {n : Note}
    (hcanonical : entry'.canonicalCid = entry.canonicalCid)
    (hstate : entry'.state.carried = false)
    (hrow : entry'.verdict = ((rowOf id notes).absorb n).verdict ∧
      entry'.verdictDigest = ((rowOf id notes).absorb n).verdictDigest) :
    entry'.Tells id (notes ++ [n]) := by
  refine ⟨fun cid hcid => ?_, fun _ => ?_, fun _ => ?_, fun hcarried => ?_⟩
  · exact h.canonical cid (hcanonical ▸ hcid)
  · rw [rowOf_append]
    exact hrow.1
  · rw [rowOf_append]
    exact hrow.2
  · rw [hstate] at hcarried
    cases hcarried

end Entry.Tells

section Kept

variable [Canon]

variable {pol : Policy} {w : World} {id : TransformationId} {s s' : Sys}

/-- The row of the table says what the journal says. -/
def TellsAt (e : Engine) (id : TransformationId) : Prop :=
  ∀ entry : Entry, e.table[id]? = some entry → entry.Tells id (e.notes id)

/-- Every canonical form is that of the transformation itself. -/
def CanonicalForms (records : List Record) : Prop :=
  ∀ id cid enforced, .canonicalized cid enforced ∈ notesOf id records → cid = id

omit [Canon] in
theorem CanonicalForms.row {records : List Record} (h : CanonicalForms records)
    (id : TransformationId) {cid : Cid}
    (hcid : (rowOf id (notesOf id records)).canonicalCid = some cid) : cid = id := by
  obtain ⟨enforced, hmem⟩ := canonicalized_of_rowOf hcid
  exact h id cid enforced hmem

namespace TellsAt

variable {e e' : Engine}

omit [Canon] in
theorem change (h : TellsAt e id) (f : Entry → Entry)
    (htable : e'.table[id]? = e.table[id]?.map f)
    (hf : ∀ entry : Entry, e.table[id]? = some entry → entry.Tells id (e.notes id) →
      (f entry).Tells id (e'.notes id)) : TellsAt e' id := by
  intro entry hentry
  rw [htable] at hentry
  obtain ⟨before, hbefore, rfl⟩ := Option.map_eq_some_iff.mp hentry
  exact hf before hbefore (h before hbefore)

omit [Canon] in
theorem same (h : TellsAt e id) (htable : e'.table[id]? = e.table[id]?)
    (hnotes : e'.notes id = e.notes id) : TellsAt e' id := by
  intro entry hentry
  rw [htable] at hentry
  rw [hnotes]
  exact h entry hentry

omit [Canon] in
theorem noted (h : TellsAt e id) {n : Note} (hn : n.rules = false)
    (htable : e'.table[id]? = e.table[id]?) (hnotes : e'.notes id = e.notes id ++ [n]) :
    TellsAt e' id := by
  intro entry hentry
  rw [htable] at hentry
  rw [hnotes]
  refine (h entry hentry).quiet (fun m hm => ?_) (fun h => h) (fun h => h) ⟨rfl, rfl, rfl, rfl⟩
  rw [List.mem_singleton.mp hm]
  exact hn

omit [Canon] in
theorem insert {entry : Entry} (htable : e'.table = e.table.insert id entry)
    (hentry : entry.Tells id (e'.notes id)) : TellsAt e' id := by
  intro found hfound
  rw [htable, ExtTreeMap.getElem?_insert_self] at hfound
  obtain rfl := Option.some.inj hfound
  exact hentry

omit [Canon] in
theorem note (h : TellsAt s.engine id) {n : Note} {stamp : Timestamp} (f : Entry → Entry)
    (hf : ∀ entry : Entry, s.engine.table[id]? = some entry → entry.Tells id (s.engine.notes id) →
      (f entry).Tells id (s.engine.notes id ++ [n])) :
    TellsAt ((s.note id n stamp).live id f).engine id := by
  refine h.change f (getElem?_live (s.note id n stamp) id f) fun entry hentry htells => ?_
  exact (congrArg (fun notes => (f entry).Tells id notes) (Sys.notes_note s id n stamp)).mpr
    (hf entry hentry htells)

omit [Canon] in
theorem append (h : TellsAt s.engine id) {n : Note} {stamp : Timestamp} (f : Entry → Entry)
    (hf : ∀ entry : Entry, s.engine.table[id]? = some entry → entry.Tells id (s.engine.notes id) →
      (f entry).Tells id (s.engine.notes id ++ [n])) :
    TellsAt ((s.append (.about id n stamp)).live id f).engine id := by
  refine h.change f (getElem?_live (s.append (.about id n stamp)) id f) fun entry hentry htells => ?_
  exact (congrArg (fun notes => (f entry).Tells id notes) (Sys.notes_append s id n stamp)).mpr
    (hf entry hentry htells)

end TellsAt

omit [Canon] in
theorem Entry.rehydrated_tells {records : List Record} (hforms : CanonicalForms records)
    (id : TransformationId) (i : IntentId) (shape : PlanShape) (since : Timestamp) :
    (Entry.rehydrated i shape (rowOf? id (notesOf id records)) since).Tells id
      (notesOf id records) := by
  rw [rowOf?]
  split
  next => exact .unruled rfl fun _ h => by cases h
  next =>
    exact ⟨fun cid hcid => hforms.row id hcid, fun _ => rfl, fun _ => rfl,
      fun _ h => enforced_rowOf id h⟩

theorem TellsAt.step [Canon.CollisionFree] (h : TellsAt s.engine id) (hs : Synced s.engine)
    (hforms : CanonicalForms s.engine.records) (hstep : Step pol w id s s') :
    TellsAt s'.engine id := by
  have hsingle : ∀ {n : Note}, n.rules = false → ∀ m ∈ [n], m.rules = false := by
    intro n hn m hm
    rw [List.mem_singleton.mp hm]
    exact hn
  cases hstep with
  | asked | failed | crashed | blob | observation | filed | headed | counted | explained | resumed
  | indexed | escrowHeld | applied | leafed | leafedAgain => exact h.same rfl rfl
  | drafted => exact h.same rfl ((notesOf_append id _ _).trans (List.append_nil _))
  | planned intent shape stamp => exact h.noted rfl rfl (Sys.notes_note s id _ stamp)
  | undone original entry inverse fp0 pre t stage witness stamp =>
    exact h.noted rfl rfl (Sys.notes_note s id _ stamp)
  | seated body stamp t delta fp0 pre =>
    exact .insert rfl (.unruled rfl fun _ hcid => by cases hcid)
  | rehydrated intent shape stamp =>
    refine .insert rfl ?_
    rw [stateOf_reconstruct]
    exact Entry.rehydrated_tells hforms id _ shape _
  | restored row planned createdAt t delta fp0 pre intentId provenance habsent hrow hstate =>
    refine .insert rfl (.unruled ?_ fun cid hcid => ?_)
    · rcases hstate with hstate | hstate <;> simp [Entry.ofRow, hstate, Lifecycle.ruled]
    · rw [rowOf?] at hrow
      split at hrow
      next => cases hrow
      next =>
        cases hrow
        exact hforms.row id hcid
  | idle f hf hreceipt =>
    refine h.change f (getElem?_live s id f) fun entry _ htells => ?_
    have hsame := hf.same entry
    have hstate : (f entry).state = entry.state :=
      Option.some.inj (congrArg StateRow.state (hf.row id entry))
    rw [← List.append_nil (Engine.notes _ id)]
    exact htells.quiet (fun _ hn => absurd hn List.not_mem_nil) (fun hruled => hstate ▸ hruled)
      (fun hcarried => hstate ▸ hcarried)
      ⟨hsame.verdict.symm, hsame.verdictDigest.symm, hsame.enforced.symm, hsame.canonicalCid.symm⟩
  | observationNamed cid =>
    refine h.change _ (getElem?_live s id _) fun entry _ htells => ?_
    rw [← List.append_nil (Engine.notes _ id)]
    exact htells.quiet (fun _ hn => absurd hn List.not_mem_nil) (fun h => h) (fun h => h) ⟨rfl, rfl, rfl, rfl⟩
  | closed f stamp hstate hf =>
    refine h.change f (getElem?_live s id f) fun entry _ htells => .unruled ?_ fun cid hcid => ?_
    · rw [hf entry]
      rfl
    · rw [hf entry] at hcid
      exact htells.canonical cid hcid
  | verifyStarted | unverified | aborted =>
    exact h.note _ fun entry _ htells => .unruled rfl htells.canonical
  | superseded =>
    refine h.change _ (getElem?_live _ id _) fun entry _ htells => .unruled rfl htells.canonical
  | ruled entry kind digest stamp =>
    exact h.note _ fun found _ htells =>
      htells.ruledOn rfl (stateOfVerdict_not_carried kind) ⟨rfl, rfl⟩
  | opened entry stamp => exact h.note _ fun found _ htells => htells.ruledOn rfl rfl ⟨rfl, rfl⟩
  | decided entry ruling stamp =>
    exact h.note _ fun found _ htells =>
      htells.ruledOn rfl (stateOfVerdict_not_carried _) ⟨rfl, rfl⟩
  | canonicalized entry enforced stamp hlive hstate henforced =>
    refine h.note _ fun found hfound htells => ?_
    rw [hlive] at hfound
    obtain rfl := Option.some.inj hfound
    have hruled : entry.state.ruled = true := by
      rcases hstate with hstate | hstate <;> rw [hstate] <;> rfl
    refine ⟨fun cid hcid => ?_, fun _ => ?_, fun _ => ?_, fun _ hwithheld => ?_⟩
    · rw [← Option.some.inj hcid]
      exact ((hs.row id).names entry hlive).cid_eq
    · rw [rowOf_append]
      exact htells.verdict hruled
    · rw [rowOf_append]
      exact htells.verdictDigest hruled
    · rw [withheld_append] at hwithheld
      exact if_pos (of_decide_eq_true hwithheld)
  | committing entry stamp hlive hstate =>
    refine h.append _ fun found hfound htells => ?_
    rw [hlive] at hfound
    obtain rfl := Option.some.inj hfound
    exact htells.quiet (hsingle rfl) (fun _ => by rw [hstate]; rfl) (fun _ => by rw [hstate]; rfl)
      ⟨rfl, rfl, rfl, rfl⟩
  | provenance entry stamp =>
    exact h.append _ fun found _ htells =>
      htells.quiet (hsingle rfl) (fun h => h) (fun h => h) ⟨rfl, rfl, rfl, rfl⟩
  | announced entry delta stamp =>
    exact h.note _ fun found _ htells =>
      htells.quiet (hsingle rfl) (fun h => h) (fun h => h) ⟨rfl, rfl, rfl, rfl⟩
  | escrowed entry outcome pending stamp => exact h.noted rfl rfl (Sys.notes_note s id _ stamp)
  | announcedAgain row cid stamp => exact h.noted rfl rfl (Sys.notes_note s id _ stamp)
  | observed entry cid stamp => exact h.noted rfl rfl (Sys.notes_note s id _ stamp)
  | completed inverse stamp => exact h.noted rfl rfl (Sys.notes_note s id _ stamp)
  | committed leaf stamp => exact h.noted rfl rfl (Sys.notes_note s id _ stamp)

/-- The facts of a commit say what came before its leaf: the apply of the delta that was planned,
the canonical form, and the ruling. -/
structure Testifies (facts : CommitFacts) (id : TransformationId) (history : List Event) : Prop
    where
  transformation : facts.transformation = id
  canonical : facts.canonicalCid = id
  applied : ∃ (t : Transformation) (intentId : IntentId) (planned delta : PlannedDelta)
      (applied : AppliedDelta), t.Names id intentId planned ∧
    delta.substrate = planned.substrate ∧ delta.payload = planned.payload ∧
    lastApply id history = some (delta, .ok applied) ∧
    facts.postconditionFingerprint = applied.postcondition.digest
  ruling : ∃ (before : List Note) (ruling : Note) (enforced : Option Bool) (work : List Note),
    notesOf id (journalOf history) =
      before ++ ruling :: .canonicalized id enforced :: .committingStarted :: work ∧
    (∀ n ∈ work, n.works = true) ∧ Warrant ruling enforced ∧ facts.verdict = ruling.summary ∧
    (enforced = some false → facts.enforced = false)
  posture : facts.verdict = none → facts.failPostureEngaged = true

/-- A leaf is the digest of a receipt that says what came before it. -/
def Testified (history : List Event) (leaf : LedgerEntry) : Prop :=
  ∃ facts : CommitFacts, leaf.receiptDigest = facts.payload.ledgerDigest ∧
    Testifies facts leaf.transformation history

omit [Canon] in
theorem engaged_of_receiptVerdict {kind : Option VerdictKind} {digest : Option Cid} {engaged : Bool}
    (h : receiptVerdict kind digest engaged = some none) : engaged = true := by
  unfold receiptVerdict at h
  split at h
  next => cases h
  next =>
    split at h
    next hengaged => exact hengaged
    next => cases h
  next => cases h

omit [Canon] in
/-- What the row of a warranted commit says is what its ruling says. -/
theorem Warranted.told {notes : List Note} (h : Warranted notes)
    (hforms : ∀ cid enforced, .canonicalized cid enforced ∈ notes → cid = id) {engaged : Bool}
    {verdict : Option VerdictSummary}
    (hverdict : receiptVerdict (rowOf id notes).verdict (rowOf id notes).verdictDigest engaged =
      some verdict) {enforced : Bool} (henforced : withheld notes = true → enforced = false) :
    ∃ (before : List Note) (ruling : Note) (carried : Option Bool) (work : List Note),
      notes = before ++ ruling :: .canonicalized id carried :: .committingStarted :: work ∧
      (∀ n ∈ work, n.works = true) ∧ Warrant ruling carried ∧ verdict = ruling.summary ∧
      (carried = some false → enforced = false) := by
  obtain ⟨before, ruling, cid, carried, work, hnotes, hwarrant, hwork⟩ := h
  obtain rfl : cid = id := hforms cid carried (by rw [hnotes]; simp)
  obtain ⟨htold, hheld⟩ := rowOf_warranted cid before hwarrant hwork hnotes
  exact ⟨before, ruling, carried, work, hnotes, hwork, hwarrant, htold _ _ hverdict,
    fun h => henforced (hheld h)⟩

theorem LiveLeaf.testifies {entry : Entry} {outcome : InvertOutcome} {applied : AppliedDelta}
    {facts : CommitFacts} (h : LiveLeaf s id entry outcome applied facts) (hs : Synced s.engine)
    (htells : TellsAt s.engine id) (hforms : CanonicalForms s.engine.records)
    (hgrounded : Grounded (s.engine.notes id))
    (htold : notesOf id (journalOf s.history) = s.engine.notes id) :
    Testifies facts id s.history := by
  obtain ⟨now, hnow, hstate, hsame⟩ := h.commit.live
  obtain ⟨live, canonicalCid, verdict, inverse, key, rfl, hlive, hcid, hverdict, _⟩ := h.facts_eq
  rw [hnow] at hlive
  obtain rfl := Option.some.inj hlive
  have hrow := htells now hnow
  have hruled : now.state.ruled = true := by rw [hstate]; rfl
  have hcarried : now.state.carried = true := by rw [hstate]; rfl
  have hnames := (hs.row id).names now hnow
  refine ⟨rfl, ?_, ⟨now.transformation, now.intentId, now.delta, entry.delta, applied, hnames,
    by rw [hsame.delta], by rw [hsame.delta], h.applied_last, rfl⟩, ?_, fun hnone => ?_⟩
  · exact hrow.canonical canonicalCid (hsame.canonicalCid ▸ hcid)
  · rw [htold]
    have hverdictRow : receiptVerdict (rowOf id (s.engine.notes id)).verdict
        (rowOf id (s.engine.notes id)).verdictDigest entry.failPostureEngaged = some verdict := by
      rw [← hrow.verdict hruled, ← hrow.verdictDigest hruled, ← hsame.verdict,
        ← hsame.verdictDigest]
      exact hverdict
    exact (hgrounded.committing h.commit.state).told (fun cid enforced => hforms id cid enforced)
      hverdictRow (hrow.withheld hcarried)
  · rw [show verdict = none from hnone] at hverdict
    exact hsame.failPostureEngaged.symm.trans (engaged_of_receiptVerdict hverdict)

theorem RebuiltLeaf.testifies [Canon.CollisionFree] {row : StateRow} {delta : PlannedDelta}
    {applied : AppliedDelta} {facts : CommitFacts} (h : RebuiltLeaf s row delta applied facts)
    (hid : row.transformation = id) (hforms : CanonicalForms s.engine.records)
    (hnamed : ∀ body, .planned body ∈ s.engine.notes id → Named id body)
    (hgrounded : Grounded (s.engine.notes id))
    (htold : notesOf id (journalOf s.history) = s.engine.notes id) :
    Testifies facts id s.history := by
  subst hid
  obtain ⟨m, verdict, inverse, status, key, rfl, hm, hdelta, hverdict, _⟩ := h.facts_eq
  have hrow := h.resume.row_eq
  obtain ⟨deltaCid, hdeltaCid, canonicalCid, hcanonical, fp0, hfp0, rfl⟩ : ∃ deltaCid,
      row.deltaCid = some deltaCid ∧ ∃ canonicalCid, row.canonicalCid = some canonicalCid ∧
      ∃ fp0, row.fp0 = some fp0 ∧ m = ⟨deltaCid, canonicalCid, fp0⟩ := by
    simp only [material, bind, Option.bind_eq_some_iff, pure, Option.some.injEq] at hm
    obtain ⟨deltaCid, hdeltaCid, canonicalCid, hcanonical, fp0, hfp0, hm⟩ := hm
    exact ⟨deltaCid, hdeltaCid, canonicalCid, hcanonical, fp0, hfp0, hm.symm⟩
  have hdeltaRow : (s.engine.row row.transformation).deltaCid = some deltaCid := by
    rw [hrow]
    exact hdeltaCid
  have hcanonicalRow : (s.engine.row row.transformation).canonicalCid = some canonicalCid := by
    rw [hrow]
    exact hcanonical
  have hverdictRow : receiptVerdict (s.engine.row row.transformation).verdict
      (s.engine.row row.transformation).verdictDigest row.failPostureEngaged = some verdict := by
    rw [hrow]
    exact hverdict
  have henforcedRow : (s.engine.row row.transformation).enforced = row.enforced := by rw [hrow]
  obtain ⟨body, hbody, hcid⟩ := planned_of_rowOf hdeltaRow
  obtain ⟨t, planned, hnames, hplanned, _⟩ := hnamed body hbody
  have heq := Canon.CollisionFree.delta (hdelta.trans (hcid.symm.trans hplanned))
  refine ⟨rfl, hforms.row _ hcanonicalRow, ⟨t, body.intentId, planned, delta, applied, hnames,
    heq.1, heq.2, h.applied_last, rfl⟩, ?_, fun hnone => ?_⟩
  · rw [htold]
    apply (hgrounded.committing h.resume.state).told (fun cid enforced => hforms _ cid enforced)
      hverdictRow
    intro hheld
    rw [show (rebuiltFacts s.engine row canonicalCid fp0 verdict inverse status
      applied.postcondition key).enforced = row.enforced from rfl, ← henforcedRow]
    exact enforced_rowOf _ hheld
  · rw [show verdict = none from hnone] at hverdict
    exact engaged_of_receiptVerdict hverdict

/-- Every leaf of a history is the digest of a receipt that says what came before it. -/
def LeavesTestified (history : List Event) : Prop :=
  EveryEntry (fun before ev => ∀ leaf, ev = .leaf leaf → Testified before leaf) history

theorem Step.testifies [Canon.CollisionFree] (hstep : Step pol w id s s') (hs : Synced s.engine)
    (htells : ∀ other, TellsAt s.engine other) (hforms : CanonicalForms s.engine.records)
    (hnamed : ∀ other body, .planned body ∈ s.engine.notes other → Named other body)
    (hgrounded : ∀ other, Grounded (s.engine.notes other))
    (htold : journalOf s.history = s.engine.records) {leaf : LedgerEntry}
    (hh : s'.history = s.history ++ [.leaf leaf]) : Testified s.history leaf := by
  have hnotes : ∀ other, notesOf other (journalOf s.history) = s.engine.notes other :=
    fun other => by rw [htold]
  have hnone : s.history ≠ s.history ++ [.leaf leaf] := by simp
  cases hstep with
  | leafed entry outcome applied facts stamp hleaf =>
    cases List.append_cancel_left hh
    exact ⟨facts, rfl, hleaf.testifies hs (htells id) hforms (hgrounded id) (hnotes id)⟩
  | leafedAgain row delta applied facts stamp hid hleaf =>
    cases List.append_cancel_left hh
    exact ⟨facts, rfl, hleaf.testifies hid hforms (hnamed id) (hgrounded id) (hnotes id)⟩
  | _ =>
    first
    | exact absurd hh hnone
    | cases List.append_cancel_left hh

theorem CanonicalForms.step (h : CanonicalForms s.engine.records) (hs : Synced s.engine)
    (hstep : Step pol w id s s') : CanonicalForms s'.engine.records := by
  intro other cid enforced hmem
  rcases hstep.notes other with hsame | ⟨rfl, n, t, hr, hnotes⟩
  · rw [show notesOf other s'.engine.records = _ from hsame] at hmem
    exact h other cid enforced hmem
  · rw [show notesOf other s'.engine.records = _ from hnotes] at hmem
    rcases List.mem_append.mp hmem with hold | hnew
    · exact h other cid enforced hold
    · obtain rfl := List.mem_singleton.mp hnew
      have hnone : s.engine.records ≠
          s.engine.records ++ [.about other (.canonicalized cid enforced) t] := by simp
      cases hstep with
      | canonicalized entry enforced' stamp hlive =>
        cases List.append_cancel_left hr
        exact ((hs.row other).names entry hlive).cid_eq
      | _ =>
        first
        | exact absurd hr hnone
        | cases List.append_cancel_left hr

/-- What the files and the history keep of what the leaves are digests of. -/
structure FilesTestified (history : List Event) (disk : Disk) : Prop where
  warranted : FilesWarranted history disk
  named : ∀ id body, .planned body ∈ notesOf id disk.journal → Named id body
  forms : CanonicalForms disk.journal
  leaves : LeavesTestified history

/-- What a process keeps of it. -/
structure ProcessTells (e : Engine) : Prop where
  synced : Synced e
  tells : ∀ id, TellsAt e id

theorem ProcessTells.openThrough (config : Config) (disk : Disk) :
    ProcessTells (Engine.openThrough config disk) := by
  refine ⟨Synced.openThrough config disk, fun id entry hentry => ?_⟩
  rw [show (Engine.openThrough config disk).table = ∅ from rfl, ExtTreeMap.getElem?_empty] at hentry
  cases hentry

theorem ProcessTells.catchUp {e : Engine} (h : ProcessTells e) (disk : Disk) :
    ProcessTells (e.catchUp disk) := by
  refine ⟨h.synced.catchUp disk, fun id entry hentry => ?_⟩
  obtain ⟨hlive, hnotes⟩ := getElem?_catchUp hentry
  rw [hnotes]
  exact h.tells id entry hlive

theorem testified_shared [Canon.CollisionFree] (w : World) :
    Project.Shared w .any FilesTestified ProcessTells where
  init := by
    refine ⟨(warranted_shared w).init, fun _ _ h => ?_, fun _ _ _ h => ?_, EveryEntry.nil⟩
    · cases h
    · cases h
  opens config disk := .openThrough config disk
  catches disk _ h := h.catchUp disk
  step id s s' hin hd he hstep := by
    obtain ⟨hwarranted, hnamed, hforms, hleaves⟩ := hd
    obtain ⟨hs, htells⟩ := he
    have hin' := hin.writes hstep.writes
    have htold := hwarranted.told.journal
    have hgrounded := hwarranted.grounded
    rw [← hin.records] at hnamed hforms htold hgrounded
    have hnew : ∀ ev, s'.history = s.history ++ [ev] → LeavesTestified (s.history ++ [ev]) := by
      intro ev hh
      apply hleaves.append
      rintro leaf rfl
      exact hstep.testifies hs htells hforms hnamed hgrounded htold hh
    refine ⟨⟨hwarranted.step hin hs hstep, ?_, ?_, ?_⟩, hs.step hstep, fun other => ?_⟩
    · rw [← hin'.records]
      intro other body hbody
      rcases hstep.plans hbody with hbefore | ⟨hthis, _⟩
      · exact hnamed other body hbefore
      · exact hthis
    · rw [← hin'.records]
      exact hforms.step hs hstep
    · cases hstep.happens with
      | nothing hh =>
        rw [hh]
        exact hleaves
      | journal _ hh | leaf _ hh | applied _ _ _ _ hh | other _ hh =>
        rw [hh]
        exact hnew _ hh
    · by_cases hne : id = other
      · subst hne
        exact (htells id).step hs hforms hstep
      · have hframe := hstep.frame hne
        exact (htells other).same hframe.table hframe.notes

/-- Whatever any number of processes do to one project under its lock, dying and starting again at
any point, live or in a recovery: a leaf is the digest of a receipt that names the transformation
and its canonical form, the answer of the last apply made for it, which was of the delta that was
planned, and the ruling its commit rests on, unenforced where that was only recorded. -/
theorem leaves_attest_their_rulings [Canon.CollisionFree] {w : World} {p : Project}
    (h : Project.empty.Reaches w (fun _ a => a.Locked) p) : LeavesTestified p.history :=
  ((testified_shared w).locked h (fun _ _ ha => ha) (fun _ _ _ _ _ _ => Policy.any_allows)
    fun _ => trivial).1.leaves

end Kept

section Twice

open Tracefold.Ideal

theorem leaves_attest_their_rulings_twice :
    let history := (Project.empty.run (fun _ => envAt 1) ([.start 0 config, .start 1 config] ++
      committedUnderLock 0 1 ++ committedUnderLock 1 2)).history
    (leavesOf history).map (·.transformation) = [idFor 1 1, idFor 2 1] ∧
      LeavesTestified history :=
  ⟨by decide, leaves_attest_their_rulings (Project.reaches_run fun a ha _ =>
    (by decide : ∀ a ∈ [.start 0 config, .start 1 config] ++ committedUnderLock 0 1 ++
      committedUnderLock 1 2, a.Locked) a ha)⟩

end Twice

end Tracefold
