import Mathlib.Logic.Relation
import Mathlib.Tactic.Common
import Tracefold.Ideal.Adapter
import Tracefold.Time.Adapter

/-! The window in which a change to a schedule can be undone: what closes it, and what an undo
restores while it is open. -/

namespace Tracefold.Time

open Library Library.FileTree Locator Adapter Relation
open DagCbor (member_self member_cons optional_of_member ofInt_int)

section Position

/-- The segments that a normal form keeps. -/
def kept (text : Text) : List Text :=
  (text.splitOn '/').filter fun segment => ¬ (segment = [] ∨ segment = dot)

theorem mem_kept {text segment : Text} (h : segment ∈ kept text) :
    segment ≠ [] ∧ segment ≠ dot ∧ '/' ∉ segment := by
  obtain ⟨hmem, hkept⟩ := List.mem_filter.mp h
  obtain ⟨hnil, hdot⟩ := not_or.mp (of_decide_eq_true hkept)
  exact ⟨hnil, hdot, fun hsep => (Text.mem_piece hmem hsep).2 rfl⟩

theorem kept_intercalate {segments : List Text} (h : ∀ segment ∈ segments,
    segment ≠ [] ∧ segment ≠ dot ∧ '/' ∉ segment) : kept (['/'].intercalate segments) = segments := by
  cases segments with
  | nil => rfl
  | cons segment segments =>
    rw [kept, List.splitOn_intercalate '/' (fun piece hpiece => (h piece hpiece).2.2)
      (List.cons_ne_nil _ _), List.filter_eq_self]
    intro piece hpiece
    exact decide_eq_true (not_or.mpr ⟨(h piece hpiece).1, (h piece hpiece).2.1⟩)

theorem kept_cons (text : Text) : kept ('/' :: text) = kept text := by
  rw [kept, ← List.nil_append ('/' :: text), List.splitOn_append_cons_self, List.splitOn_nil,
    List.filter_append]
  rfl

theorem head_intercalate {segments : List Text} (h : ∀ segment ∈ segments,
    segment ≠ [] ∧ segment ≠ dot ∧ '/' ∉ segment) :
    (['/'].intercalate segments).head? ≠ some '/' := by
  cases segments with
  | nil => nofun
  | cons segment segments =>
    obtain ⟨hnil, -, hsep⟩ := h segment List.mem_cons_self
    cases segment with
    | nil => exact absurd rfl hnil
    | cons c segment =>
      have hhead : (['/'].intercalate ((c :: segment) :: segments)).head? = some c := by
        cases segments with
        | nil => rfl
        | cons next segments =>
          rw [List.intercalate_cons_cons]
          rfl
      rw [hhead]
      intro heq
      exact hsep (Option.some.inj heq ▸ List.mem_cons_self)

theorem normalize_eq (locator : Text) : normalize locator =
    if locator.head? = some '/' then '/' :: ['/'].intercalate (kept locator)
    else ['/'].intercalate (kept locator) := rfl

theorem normalize_normalize (locator : Text) : normalize (normalize locator) = normalize locator := by
  have hkept := fun segment => @mem_kept locator segment
  rw [normalize_eq locator]
  split
  next =>
    rw [normalize_eq, List.head?_cons, if_pos rfl, kept_cons, kept_intercalate hkept]
  next => rw [normalize_eq, if_neg (head_intercalate hkept), kept_intercalate hkept]

end Position

section Codec

theorem entry_ofValue_value (entry : Entry) : Entry.ofValue entry.value = some entry := by
  obtain ⟨action, fireAt, fired⟩ := entry
  cases fired with
  | none =>
    simp [Entry.value, Entry.ofValue, DagCbor.optional, DagCbor.required, member_self, member_cons,
      DagCbor.optionValue, DagCbor.ofText, ofInt_int]
  | some fired =>
    simp [Entry.value, Entry.ofValue, DagCbor.optional, DagCbor.required, member_self, member_cons,
      DagCbor.optionValue, DagCbor.ofText, DagCbor.ofBool, ofInt_int]

theorem op_ofValue_value (op : TimeOp) : TimeOp.ofValue op.value = some op := by
  have hnull : ∀ entry : Entry, entry.value ≠ .null := by
    intro entry h
    rw [Entry.value] at h
    cases h
  have hentry := @optional_of_member _ Entry.ofValue
    [("entry", DagCbor.optionValue Entry.value op.entry), ("locator", .text (String.ofList op.locator))]
    "entry" Entry.value op.entry hnull entry_ofValue_value member_self
  rw [TimeOp.value, TimeOp.ofValue, hentry]
  simp [DagCbor.required, member_self, member_cons, DagCbor.ofText]

variable [Host] [LawfulHost]

theorem entry_decode_encode {entry : Entry} {bytes : Bytes} (h : entry.encode = some bytes) :
    Entry.decode bytes = some entry := by
  rw [Entry.decode, DagCbor.decode_encode h, Option.bind_some, entry_ofValue_value]

theorem op_decode_encode {op : TimeOp} {payload : Bytes} (h : op.encode = some payload) :
    TimeOp.decode payload = .ok op := by
  rw [TimeOp.decode, DagCbor.decode_encode h, Option.bind_some, op_ofValue_value]

theorem operationOf_encode {entry : Option Entry} {position : Text} {payload : Bytes}
    (h : TimeOp.encode ⟨entry, position⟩ = some payload) (hnormal : normalize position = position)
    (habsolute : isAbsolute position = true) {promised : Option Cid} :
    operationOf ⟨kind, payload, promised⟩ = .ok (position, ⟨entry, position⟩) := by
  have hposition : TimeOp.position ⟨entry, position⟩ = .ok position := by
    rw [TimeOp.position]
    dsimp only
    rw [hnormal, if_pos habsolute]
  rw [operationOf, if_neg (not_not.mpr rfl), op_decode_encode h]
  simp only [bind, Except.bind, hposition]
  rfl

omit [LawfulHost] in
theorem operationOf_position {delta : PlannedDelta} {position : Text} {op : TimeOp}
    (h : operationOf delta = .ok (position, op)) :
    normalize position = position ∧ isAbsolute position = true := by
  rw [operationOf] at h
  split at h
  · cases h
  · simp only [bind, Except.bind] at h
    split at h
    · cases h
    next op' hop' =>
      split at h
      · cases h
      next position' hposition =>
        cases h
        rw [TimeOp.position] at hposition
        split at hposition
        next habsolute =>
          cases hposition
          exact ⟨normalize_normalize _, habsolute⟩
        next => cases hposition

end Codec

section Apply

variable {w : Temps} {t t' : Tree} {position : Text} {path : List Text}

theorem removeEntry_site (hsite : t.Site (components position) path) :
    removeEntry position w t = (.ok (), t.put path hsite.place none) := by
  obtain ⟨parent, hparent, hdirectory⟩ := hsite.parent
  rw [removeEntry]
  rcases hsite.cases with hentry | ⟨found, hentry⟩
  · have habsent : Option.map FileEntry.file none = t.entry path := hentry.symm
    rw [unlink_absent hsite.located hentry]
    dsimp only
    rw [put_eq_self habsent]
  · rw [hsite.unlink hentry]
    dsimp only
    rw [if_neg (site_nonempty hsite), calling,
      openPath_ok (locate_put.mpr hparent) (directory_put.mpr hdirectory)]

theorem removeEntry_elsewhere (hnot : ∀ path, ¬ t.Site (components position) path)
    (h : removeEntry position w t = (.ok (), t')) : t' = t := by
  rw [removeEntry, unlink] at h
  rcases look_refused hnot with ⟨e, -, hlook⟩ | ⟨path, hlook⟩
  · rw [hlook] at h
    dsimp only at h
    split at h
    next heq => cases heq
    next heq =>
      cases heq
      cases h
      rfl
    next => cases h
  · rw [hlook] at h
    cases h

/-- The bytes an operation leaves at its position. -/
def written : Option Entry → Option (Option Bytes)
  | none => some none
  | some entry => entry.encode.map some

variable {content : Option Bytes} {entry : Option Entry}

theorem perform_site (hfresh : w.Fresh) (hsite : t.Site (components position) path)
    (hwritten : written entry = some content) :
    perform position entry w t = (.ok (), t.put path hsite.place content) := by
  cases entry with
  | none =>
    cases hwritten
    exact removeEntry_site hsite
  | some entry =>
    obtain ⟨bytes, hbytes, rfl⟩ := Option.map_eq_some_iff.mp hwritten
    rw [perform, hbytes]
    exact writeWhole_site hfresh hsite

theorem perform_ok (hfresh : w.Fresh) (h : perform position entry w t = (.ok (), t')) :
    (∃ path content, ∃ hsite : t.Site (components position) path, written entry = some content ∧
      t' = t.put path hsite.place content) ∨
      ((∀ path, ¬ t.Site (components position) path) ∧ entry = none ∧ t' = t) := by
  by_cases hex : ∃ path, t.Site (components position) path
  · obtain ⟨path, hsite⟩ := hex
    have hwritten : ∃ content, written entry = some content := by
      cases entry with
      | none => exact ⟨none, rfl⟩
      | some entry =>
        obtain ⟨bytes, s, hbytes, -⟩ := Prog.bind_eq_ok.mp h
        exact ⟨some bytes, Option.map_eq_some_iff.mpr ⟨bytes, (Prog.orThrow_eq_ok.mp hbytes).1, rfl⟩⟩
    obtain ⟨content, hwritten⟩ := hwritten
    rw [perform_site hfresh hsite hwritten] at h
    cases h
    exact .inl ⟨path, content, hsite, hwritten, rfl⟩
  · have hnot : ∀ path, ¬ t.Site (components position) path := fun path hsite => hex ⟨path, hsite⟩
    cases entry with
    | none => exact .inr ⟨hnot, rfl, removeEntry_elsewhere hnot h⟩
    | some entry =>
      obtain ⟨bytes, s, hbytes, hwrite⟩ := Prog.bind_eq_ok.mp h
      obtain ⟨-, rfl⟩ := Prog.orThrow_eq_ok.mp hbytes
      obtain ⟨e, he⟩ := @writeWhole_refused w t position bytes hfresh hnot
      rw [writeWholeEntry, he] at hwrite
      cases hwrite

variable [Host] [LawfulHost] [Canon] {delta : PlannedDelta} {op : TimeOp}

omit [LawfulHost] in
theorem apply_eq_ok {a : AppliedDelta} (hop : operationOf delta = .ok (position, op))
    (h : apply delta w t = (.ok a, t')) : perform position op.entry w t = (.ok (), t') ∧
      ∃ digest, observe position w t' = (.ok digest, t') ∧
        fingerprint kind position digest = .ok a.postcondition := by
  obtain ⟨⟨position', op'⟩, s, hanswer, hrest⟩ := Prog.bind_eq_ok.mp h
  obtain ⟨hop', rfl⟩ := answering_eq_ok.mp hanswer
  rw [hop] at hop'
  cases hop'
  obtain ⟨⟨⟩, s₁, hperform, hobserved⟩ := Prog.bind_eq_ok.mp hrest
  obtain ⟨digest, s₂, hobserve, hprinted⟩ := Prog.bind_eq_ok.mp hobserved
  obtain ⟨postcondition, s₃, hanswered, hdone⟩ := Prog.bind_eq_ok.mp hprinted
  obtain ⟨hprint, rfl⟩ := answering_eq_ok.mp hanswered
  have hkeeps : s₂ = s₁ := by
    obtain ⟨found, s', hread, hfound⟩ := Prog.bind_eq_ok.mp hobserve
    cases hfound
    exact readIfPresent_keeps hread
  cases hdone
  subst hkeeps
  exact ⟨hperform, digest, hobserve, hprint⟩

theorem apply_site (hfresh : w.Fresh) (hop : operationOf delta = .ok (position, op))
    (hsite : t.Site (components position) path) (hwritten : written op.entry = some content) :
    ∃ a, apply delta w t = (.ok a, t.put path hsite.place content) ∧
      fingerprint kind position (contentDigest (content.getD [])) = .ok a.postcondition := by
  have hperform := perform_site (t := t) hfresh hsite hwritten
  have hobserve := @observe_put w t position path _ content hsite
  refine ⟨⟨delta.reference, ⟨kind, elideScope (String.ofList position),
    contentDigest (content.getD []), elideScope_bounded _⟩, contentDigest (content.getD []), 0, none⟩,
    ?_, fingerprint_eq _ _ _⟩
  simp only [apply, bind, answering, hop, hperform, hobserve, fingerprint_eq]
  rfl

end Apply

section Window

variable [Host] {w : Temps} {t t' : Tree} {position : Text} {path : List Text}

/-- The runner runs the entry that stands at a position: it marks an entry that records firedness, and
leaves the bytes of any other alone. -/
inductive Fires (position : Text) (t : Tree) : Tree → Prop where
  | marks {path bytes entry marked} (hsite : t.Site (components position) path)
      (hentry : t.entry path = some (.file bytes)) (hreads : Entry.decode bytes = some entry)
      (hrecords : entry.recordsFiredness = true)
      (hmarked : Entry.decode marked = some { entry with fired := some true }) :
      Fires position t (t.put path hsite.place (some marked))
  | leaves {path bytes entry} (hsite : t.Site (components position) path)
      (hentry : t.entry path = some (.file bytes)) (hreads : Entry.decode bytes = some entry)
      (hrecords : entry.recordsFiredness = false) : Fires position t t

/-- Somebody writes, or takes away, a file at another place. -/
def Elsewhere (position : Text) (t t' : Tree) : Prop :=
  ∃ other, ∃ h : t.Place other, ∃ content, t.locate (components position) ≠ .ok other ∧
    t' = t.put other h content

/-- Once the entry that stands at a position has been run, no precondition measured there is the
state that an application observed. -/
def Closes (w : Temps) (position : Text) (observed : Fingerprint) (t : Tree) : Prop :=
  ∀ t₁ t₂ t₃, ReflTransGen (Elsewhere position) t t₁ → Fires position t₁ t₂ →
    ReflTransGen (Elsewhere position) t₂ t₃ → ∀ snap fp, normalize snap.locator.toList = position →
      (precondition snap).answer w t₃ = .ok fp → fp.casEq observed ≠ some true

/-- An inverse takes the tree an application left back to the one it found. -/
def Restores [Canon] (w : Temps) (inverse : PlannedDelta) (t t' : Tree) : Prop :=
  ∃ a, apply inverse w t' = (.ok a, t)

/-- The bytes that stand at a position. -/
def standing (position : Text) (t : Tree) : Option Bytes :=
  match t.look (components position) with
  | .ok (_, .file bytes) => some bytes
  | _ => none

omit [Host] in
theorem elsewhere_site (h : ReflTransGen (Elsewhere position) t t') :
    (t'.Site (components position) path ↔ t.Site (components position) path) ∧
      (t.Site (components position) path → t'.entry path = t.entry path) := by
  induction h with
  | refl => exact ⟨Iff.rfl, fun _ => rfl⟩
  | tail _ hstep ih =>
    obtain ⟨other, hplace, content, hother, rfl⟩ := hstep
    refine ⟨site_put.trans ih.1, fun hsite => ?_⟩
    rw [entry_put_of_ne, ih.2 hsite]
    rintro rfl
    exact hother (ih.1.mpr hsite).located

theorem precondition_site {snap : ObjectSnapshot} {bytes : Bytes}
    (hsnap : normalize snap.locator.toList = position) (habsolute : isAbsolute position = true)
    (hsite : t.Site (components position) path) (hentry : t.entry path = some (.file bytes)) :
    precondition snap w t = (fingerprint kind position (contentDigest bytes), t) := by
  rw [precondition, hsnap, if_pos habsolute, read_file hsite.located hentry]

variable [LawfulHost]

theorem closes_of_records [CollisionFree] {entry : Entry} {bytes : Bytes} {observed : Fingerprint}
    (habsolute : isAbsolute position = true) (hsite : t.Site (components position) path)
    (hencode : entry.encode = some bytes) (hfresh : entry.isRecordedAsFired = false)
    (hrecords : entry.recordsFiredness = true)
    (hobserved : fingerprint kind position (contentDigest bytes) = .ok observed) :
    Closes w position observed (t.put path hsite.place (some bytes)) := by
  intro t₁ t₂ t₃ hbefore hfires hafter snap fp hsnap hfp heq
  have hdecode := entry_decode_encode hencode
  have hsite₁ : t₁.Site (components position) path := (elsewhere_site hbefore).1.mpr hsite.put
  have hentry₁ : t₁.entry path = some (.file bytes) :=
    ((elsewhere_site hbefore).2 hsite.put).trans entry_put_self
  have hsame : ∀ {path' bytes'}, t₁.Site (components position) path' →
      t₁.entry path' = some (.file bytes') → path' = path ∧ bytes' = bytes := by
    intro path' bytes' hsite' hentry'
    have hpath := hsite'.located.symm.trans hsite₁.located
    cases hpath
    rw [hentry₁] at hentry'
    cases hentry'
    exact ⟨rfl, rfl⟩
  cases hfires with
  | @marks path' bytes' entry' marked hsite' hentry' hreads _ hmarked =>
    obtain ⟨hpath, hbytes⟩ := hsame hsite' hentry'
    rw [hbytes, hdecode] at hreads
    cases hreads
    have hne : bytes ≠ marked := by
      rintro rfl
      rw [hdecode] at hmarked
      have hfired : entry.fired = some true := congrArg Entry.fired (Option.some.inj hmarked)
      rw [Entry.isRecordedAsFired, hfired] at hfresh
      cases hfresh
    have hsite₃ : t₃.Site (components position) path := (elsewhere_site hafter).1.mpr hsite₁.put
    have hentry₃ : t₃.entry path = some (.file marked) := by
      rw [(elsewhere_site hafter).2 hsite₁.put, ← hpath]
      exact entry_put_self
    rw [Prog.answer, precondition_site hsnap habsolute hsite₃ hentry₃] at hfp
    rw [casEq_fingerprint hfp hobserved] at heq
    exact hne (CollisionFree.mint (of_decide_eq_true (Option.some.inj heq)).symm)
  | leaves hsite' hentry' hreads hnot =>
    obtain ⟨hpath, hbytes⟩ := hsame hsite' hentry'
    rw [hbytes, hdecode] at hreads
    cases hreads
    rw [hrecords] at hnot
    cases hnot

theorem not_closes_of_silent {entry : Entry} {bytes : Bytes} {observed : Fingerprint}
    (hnormal : normalize position = position) (habsolute : isAbsolute position = true)
    (hsite : t.Site (components position) path) (hencode : entry.encode = some bytes)
    (hrecords : entry.recordsFiredness = false)
    (hobserved : fingerprint kind position (contentDigest bytes) = .ok observed) :
    ¬ Closes w position observed (t.put path hsite.place (some bytes)) := by
  intro hcloses
  have hstands : (t.put path hsite.place (some bytes)).entry path = some (.file bytes) :=
    entry_put_self
  have hnamed : ∃ snap : ObjectSnapshot, normalize snap.locator.toList = position := by
    refine ⟨⟨⟨[]⟩, kind, String.ofList position, contentDigest bytes, .bytes⟩, ?_⟩
    dsimp only
    rw [String.toList_ofList, hnormal]
  obtain ⟨snap, hsnap⟩ := hnamed
  have hfires : Fires position (t.put path hsite.place (some bytes))
      (t.put path hsite.place (some bytes)) :=
    .leaves hsite.put hstands (entry_decode_encode hencode) hrecords
  apply hcloses _ _ _ .refl hfires .refl snap observed hsnap
  · rw [Prog.answer, precondition_site hsnap habsolute hsite.put hstands, hobserved]
  · rw [casEq_fingerprint hobserved hobserved, decide_eq_true rfl]

omit [LawfulHost] in
theorem closes_of_absent {observed : Fingerprint}
    (habsent : ∀ path, t.Site (components position) path → t.entry path = none) :
    Closes w position observed t := by
  intro t₁ t₂ t₃ hbefore hfires
  have hnone : ∀ {path bytes}, t₁.Site (components position) path →
      t₁.entry path = some (.file bytes) → False := by
    intro path bytes hsite hentry
    have hsite' := (elsewhere_site hbefore).1.mp hsite
    rw [(elsewhere_site hbefore).2 hsite', habsent path hsite'] at hentry
    cases hentry
  cases hfires with
  | marks hsite hentry => exact (hnone hsite hentry).elim
  | leaves hsite hentry => exact (hnone hsite hentry).elim

end Window

section Undo

variable [Host] {w : Temps} {t t' : Tree} {position : Text} {path : List Text} {found : Option Bytes}
  {op : TimeOp} {delta inverse : PlannedDelta}

omit [Host] in
theorem standing_eq (h : readIfPresent position w t = (.ok found, t')) :
    standing position t = found := by
  unfold readIfPresent FileTree.read at h
  rw [standing]
  cases hlook : t.look (components position) with
  | error e =>
    rw [hlook] at h
    cases e <;> cases h
    rfl
  | ok stands =>
    obtain ⟨path, entry⟩ := stands
    rw [hlook] at h
    cases entry with
    | directory => cases h
    | file bytes =>
      cases h
      rfl

omit [Host] in
theorem site_of_standing {bytes : Bytes} (h : standing position t = some bytes) :
    ∃ path, t.Site (components position) path := by
  rw [standing] at h
  split at h
  next path found hlook =>
    obtain ⟨hlocated, hentry⟩ := look_eq_ok.mp hlook
    exact ⟨path, hlocated, Place.of_file hentry⟩
  next => cases h

variable [LawfulHost]

theorem invert_inverted {pre : ObjectSnapshot} {reads : List ReadEntry}
    (hop : operationOf delta = .ok (position, op))
    (h : invert delta pre w t = (.ok (.inverted inverse reads), t')) :
    t' = t ∧ ∃ found entry, readIfPresent position w t = (.ok found, t) ∧
      operationOf inverse = .ok (position, ⟨entry, position⟩) ∧
        ((found = none ∧ entry = none) ∨ ∃ bytes standing, found = some bytes ∧
          entry = some standing ∧ Entry.decode bytes = some standing) := by
  obtain ⟨hnormal, habsolute⟩ := operationOf_position hop
  obtain ⟨⟨position', op'⟩, s, hanswer, hrest⟩ := Prog.bind_eq_ok.mp h
  obtain ⟨hop', rfl⟩ := answering_eq_ok.mp hanswer
  rw [hop] at hop'
  cases hop'
  dsimp only at hrest
  split at hrest
  · cases hrest
  · obtain ⟨found, s₁, hread, hescrow⟩ := Prog.bind_eq_ok.mp hrest
    obtain rfl := readIfPresent_keeps hread
    cases found with
    | none =>
      obtain ⟨payload, s₂, hpayload, hdone⟩ := Prog.bind_eq_ok.mp hescrow
      obtain ⟨hencode, rfl⟩ := Prog.orThrow_eq_ok.mp hpayload
      cases hdone
      exact ⟨rfl, none, none, hread, operationOf_encode hencode hnormal habsolute,
        .inl ⟨rfl, rfl⟩⟩
    | some bytes =>
      obtain ⟨standing, s₂, hstanding, hform⟩ := Prog.bind_eq_ok.mp hescrow
      obtain ⟨hdecode, rfl⟩ := Prog.orThrow_eq_ok.mp hstanding
      split at hform
      · cases hform
      · obtain ⟨payload, s₃, hpayload, hceiling⟩ := Prog.bind_eq_ok.mp hform
        obtain ⟨hencode, rfl⟩ := Prog.orThrow_eq_ok.mp hpayload
        split at hceiling
        · cases hceiling
        · cases hceiling
          exact ⟨rfl, some bytes, some standing, hread,
            operationOf_encode hencode hnormal habsolute,
            .inr ⟨bytes, standing, rfl, rfl, hdecode⟩⟩

variable [Canon]

/-- The bytes at a position are restored exactly where they are the encoding of the entry that is
read from them. -/
theorem restores_iff (hfresh : w.Fresh) {pre : ObjectSnapshot} {reads : List ReadEntry}
    {a : AppliedDelta} (hop : operationOf delta = .ok (position, op))
    (hinvert : (invert delta pre).answer w t = .ok (.inverted inverse reads))
    (happly : apply delta w ((invert delta pre).final w t) = (.ok a, t')) :
    Restores w inverse t t' ↔ ∀ bytes, standing position t = some bytes →
      ∃ entry, Entry.decode bytes = some entry ∧ entry.encode = some bytes := by
  obtain ⟨hkeeps, found, entry, hread, hi, hfound⟩ := invert_inverted hop (Prod.ext hinvert rfl)
  have happly : apply delta w t = (.ok a, t') := hkeeps ▸ happly
  have hstanding := standing_eq hread
  obtain ⟨hperform, digest, hobserve, hprint⟩ := apply_eq_ok hop happly
  rcases perform_ok hfresh hperform with ⟨path, content, hsite, -, rfl⟩ | ⟨hnot, hnone, rfl⟩
  · have hentry : found.map .file = t.entry path := by
      obtain ⟨found', hentry, hread'⟩ := readIfPresent_site (w := w) hsite
      rw [hread] at hread'
      cases hread'
      exact hentry
    have hundo : ∀ {content'}, written entry = some content' →
        (Restores w inverse t (t.put path hsite.place content) ↔ content' = found) := by
      intro content' hwritten
      have hsite' : (t.put path hsite.place content).Site (components position) path := hsite.put
      obtain ⟨a', hput, -⟩ := apply_site hfresh hi hsite' hwritten
      rw [put_put] at hput
      constructor
      · rintro ⟨a'', hback⟩
        rw [hput] at hback
        have htree : t.put path hsite.place content' = t := (Prod.mk.inj hback).2
        have hstands : (t.put path hsite.place content').entry path = t.entry path := by rw [htree]
        rw [entry_put_self, ← hentry] at hstands
        exact Option.map_injective (fun _ _ h => FileEntry.file.inj h) hstands
      · rintro rfl
        exact ⟨a', by rw [hput, put_eq_self hentry]⟩
    rw [hstanding]
    rcases hfound with ⟨rfl, rfl⟩ | ⟨bytes, standing, rfl, rfl, hdecode⟩
    · exact iff_of_true ((hundo rfl).mpr rfl) nofun
    · constructor
      · intro hrestores bytes' hbytes'
        cases hbytes'
        obtain ⟨a', hback⟩ := hrestores
        obtain ⟨bytes', s, hencode, -⟩ := Prog.bind_eq_ok.mp (apply_eq_ok hi hback).1
        have hencode : standing.encode = some bytes' := (Prog.orThrow_eq_ok.mp hencode).1
        have hsame := (hundo (Option.map_eq_some_iff.mpr ⟨bytes', hencode, rfl⟩)).mp ⟨a', hback⟩
        cases hsame
        exact ⟨standing, hdecode, hencode⟩
      · intro hexact
        obtain ⟨entry, hentry, hencode⟩ := hexact bytes rfl
        rw [hdecode] at hentry
        cases hentry
        exact (hundo (Option.map_eq_some_iff.mpr ⟨bytes, hencode, rfl⟩)).mpr rfl
  · have hnothing : standing position t' = none := by
      cases hstands : standing position t' with
      | none => rfl
      | some bytes =>
        obtain ⟨path, hsite⟩ := site_of_standing hstands
        exact absurd hsite (hnot path)
    rw [hnothing]
    rw [hnothing] at hstanding
    have hi' : operationOf inverse = .ok (position, ⟨none, position⟩) := by
      rcases hfound with ⟨-, rfl⟩ | ⟨bytes, -, rfl, -⟩
      · exact hi
      · cases hstanding
    have hundo : perform position none w t' = (.ok (), t') := hnone ▸ hperform
    apply iff_of_true _ nofun
    refine ⟨⟨inverse.reference, a.postcondition, digest, 0, none⟩, ?_⟩
    simp only [apply, bind, answering, hi', hundo, hobserve, hprint]
    rfl

section Plan

variable {intent : Intent} {pre : ObjectSnapshot}

omit [LawfulHost] [Canon] in
theorem plan_eq_ok (h : plan intent pre = .ok delta) : ∃ entry payload,
    TimeOp.encode ⟨entry, normalize intent.locator.toList⟩ = some payload ∧
      delta.substrate = kind ∧ delta.payload = payload ∧
        isAbsolute (normalize intent.locator.toList) = true ∧
          ((intent.goal = [] ∧ entry = none) ∨ ∃ goal, intent.goal ≠ [] ∧
            Entry.decode intent.goal = some goal ∧ entry = some goal ∧
              goal.isRecordedAsFired = false) := by
  rw [plan] at h
  split at h
  · cases h
  · dsimp only at h
    split at h
    · cases h
    next habsolute =>
      have habsolute : isAbsolute (normalize intent.locator.toList) = true := by
        simpa using habsolute
      simp only [bind, Except.bind] at h
      split at h
      · cases h
      next target htarget =>
        obtain ⟨op, target⟩ := target
        dsimp only at h
        split at h
        · cases h
        next payload hpayload =>
          split at h
          · cases h
          · cases h
            split at htarget
            next hgoal =>
              cases htarget
              exact ⟨none, payload, hpayload, rfl, rfl, habsolute, .inl ⟨hgoal, rfl⟩⟩
            next hgoal =>
              split at htarget
              next => cases htarget
              next entry hentry =>
                split at htarget
                next => cases htarget
                next hfired =>
                  split at htarget
                  next => cases htarget
                  next written hwritten =>
                    cases htarget
                    exact ⟨some entry, payload, hpayload, rfl, rfl, habsolute,
                      .inr ⟨entry, hgoal, hentry, rfl, eq_false_of_ne_true hfired⟩⟩

omit [Canon] in
theorem operationOf_plan (h : plan intent pre = .ok delta) : ∃ entry,
    operationOf delta = .ok (normalize intent.locator.toList,
      ⟨entry, normalize intent.locator.toList⟩) ∧
        isAbsolute (normalize intent.locator.toList) = true ∧
          ((intent.goal = [] ∧ entry = none) ∨ ∃ goal, intent.goal ≠ [] ∧
            Entry.decode intent.goal = some goal ∧ entry = some goal ∧
              goal.isRecordedAsFired = false) := by
  obtain ⟨entry, payload, hpayload, hkind, rfl, habsolute, hgoal⟩ := plan_eq_ok h
  obtain ⟨substrate, payload, promised⟩ := delta
  cases hkind
  exact ⟨entry, operationOf_encode hpayload (normalize_normalize _) habsolute, habsolute, hgoal⟩

variable {a : AppliedDelta}

/-- The window of a planned change closes by itself exactly where the entry that it writes records
firedness. -/
theorem closes_iff [CollisionFree] (hfresh : w.Fresh) (hplan : plan intent pre = .ok delta)
    (happly : apply delta w t = (.ok a, t')) :
    Closes w (normalize intent.locator.toList) a.postcondition t' ↔
      (intent.goal ≠ [] → ∀ entry, Entry.decode intent.goal = some entry →
        entry.recordsFiredness = true) := by
  obtain ⟨entry, hop, habsolute, hgoal⟩ := operationOf_plan hplan
  obtain ⟨hperform, digest, hobserve, hprint⟩ := apply_eq_ok hop happly
  rcases hgoal with ⟨hempty, rfl⟩ | ⟨goal, hempty, hdecode, rfl, hunfired⟩
  · apply iff_of_true _ (fun hne => absurd hempty hne)
    apply closes_of_absent
    intro path hsite
    rcases perform_ok hfresh hperform with ⟨path', content, hsite', hcontent, rfl⟩ | ⟨hnot, -, rfl⟩
    · cases hcontent
      have hpath := hsite.located.symm.trans hsite'.put.located
      cases hpath
      exact entry_put_self
    · exact absurd hsite (hnot path)
  · rcases perform_ok hfresh hperform with ⟨path, content, hsite, hcontent, rfl⟩ | ⟨-, hnone, -⟩
    · obtain ⟨bytes, hencode, rfl⟩ := Option.map_eq_some_iff.mp hcontent
      rw [observe_put hsite] at hobserve
      cases hobserve
      cases hrecords : goal.recordsFiredness with
      | true =>
        apply iff_of_true (closes_of_records habsolute hsite hencode hunfired hrecords hprint)
        intro _ entry hentry
        rw [hdecode] at hentry
        cases hentry
        exact hrecords
      | false =>
        apply iff_of_false (not_closes_of_silent (normalize_normalize _) habsolute hsite hencode
          hrecords hprint)
        intro hall
        rw [hall hempty goal hdecode] at hrecords
        cases hrecords
    · cases hnone

end Plan

end Undo

section Creation

variable [Host] [LawfulHost] [Canon] {w : Temps} {t : Tree} {position : Text} {path : List Text}

theorem creation_runs (hfresh : w.Fresh) {intent : Intent} {snap : ObjectSnapshot} {entry : Entry}
    {payload cancellation : Bytes} (hkind : intent.substrate = kind)
    (hintent : normalize intent.locator.toList = position)
    (hsnap : normalize snap.locator.toList = position) (habsolute : isAbsolute position = true)
    (hgoal : intent.goal ≠ []) (hentry : entry.encode = some intent.goal)
    (hunfired : entry.isRecordedAsFired = false)
    (hpayload : TimeOp.encode ⟨some entry, position⟩ = some payload)
    (hsmall : payload.length ≤ maxForwardPayloadBytes)
    (hcancellation : TimeOp.encode ⟨none, position⟩ = some cancellation)
    (hsite : t.Site (components position) path) (habsent : t.entry path = none) :
    ∃ delta inverse reads a t', plan intent snap = .ok delta ∧
      (invert delta snap).answer w t = .ok (.inverted inverse reads) ∧
        apply delta w ((invert delta snap).final w t) = (.ok a, t') := by
  have hnormal : normalize position = position := by
    rw [← hintent]
    exact normalize_normalize _
  have hplan : plan intent snap = .ok ⟨kind, payload, some (contentDigest intent.goal)⟩ := by
    simp only [plan, hkind, hintent, habsolute, hgoal, entry_decode_encode hentry, hunfired, hentry,
      bind, Except.bind]
    simp only [hpayload, ne_eq, not_true_eq_false, if_false, Bool.not_true, Bool.false_eq_true]
    exact if_neg (Nat.not_lt.mpr hsmall)
  have hop := @operationOf_encode _ _ (some entry) position payload hpayload hnormal habsolute
    (some (contentDigest intent.goal))
  have hread : readIfPresent position w t = (.ok none, t) := by
    rw [readIfPresent, read_absent hsite.located habsent]
  have hinvert : invert ⟨kind, payload, some (contentDigest intent.goal)⟩ snap w t =
      (.ok (.inverted ⟨kind, cancellation, none⟩ [⟨absentDigest, String.ofList position⟩]), t) := by
    apply Prog.bind_eq_ok.mpr ⟨_, t, answering_eq_ok.mpr ⟨hop, rfl⟩, ?_⟩
    dsimp only
    rw [if_neg (not_not.mpr hsnap)]
    apply Prog.bind_eq_ok.mpr ⟨none, t, hread, ?_⟩
    exact Prog.bind_eq_ok.mpr ⟨cancellation, t, Prog.orThrow_eq_ok.mpr ⟨hcancellation, rfl⟩, rfl⟩
  obtain ⟨a, happly, -⟩ := apply_site hfresh hop hsite
    (Option.map_eq_some_iff.mpr ⟨intent.goal, hentry, rfl⟩)
  refine ⟨_, _, _, a, t.put path hsite.place (some intent.goal), hplan, congrArg Prod.fst hinvert, ?_⟩
  rw [Prog.final, hinvert]
  exact happly

end Creation

section Scheduled

/-- An entry that is due, and what its schedule says about whether it has run. -/
def due (fired : Option Bool) : Entry := ⟨['r'], ⟨5, by decide⟩, fired⟩

/-- It is planned under the root. -/
def schedules (fired : Option Bool) : Intent :=
  ⟨kind, "/a", ((due fired).encode).getD [], .time, .human ""⟩

def snapshot : ObjectSnapshot := ⟨⟨[]⟩, kind, "/a", ⟨[]⟩, .bytes⟩

open Ideal in
theorem schedules_runs (fired : Option Bool) (hfired : fired ≠ some true) :
    ∃ delta inverse reads a t', plan (schedules fired) snapshot = .ok delta ∧
      (invert delta snapshot).answer unused rooted = .ok (.inverted inverse reads) ∧
        apply delta unused ((invert delta snapshot).final unused rooted) = (.ok a, t') := by
  have hsite : rooted.Site (components ['/', 'a']) [['a']] :=
    ⟨by decide, nofun, rfl, by decide⟩
  have hencode : (due fired).encode = some (schedules fired).goal := by
    rcases fired with _ | ⟨_ | _⟩ <;> rfl
  have hgoal : (schedules fired).goal ≠ [] := by
    rcases fired with _ | ⟨_ | _⟩ <;> decide
  have hunfired : (due fired).isRecordedAsFired = false := decide_eq_false hfired
  have hpayload : ∃ payload, TimeOp.encode ⟨some (due fired), ['/', 'a']⟩ = some payload ∧
      payload.length ≤ maxForwardPayloadBytes := by
    rcases fired with _ | ⟨_ | _⟩ <;> exact ⟨_, rfl, by decide⟩
  obtain ⟨payload, hpayload, hsmall⟩ := hpayload
  have hposition : normalize "/a".toList = ['/', 'a'] := by decide
  exact creation_runs unused_fresh rfl hposition hposition (by decide) hgoal hencode hunfired
    hpayload hsmall rfl hsite rfl

/-- A planned change whose inverse was escrowed closes its window when it is run, and is undone to
the byte while nothing else happened, exactly where the entry it writes records firedness and what
stood at the position is the encoding of the entry that was read from it. -/
theorem window_closes_by_itself [Host] [LawfulHost] [Canon] [CollisionFree] {w : Temps} {t t' : Tree}
    {intent : Intent} {pre : ObjectSnapshot} {delta inverse : PlannedDelta} {a : AppliedDelta}
    {snap : ObjectSnapshot} {reads : List ReadEntry} (hfresh : w.Fresh)
    (hplan : plan intent pre = .ok delta)
    (hinvert : (invert delta snap).answer w t = .ok (.inverted inverse reads))
    (happly : apply delta w ((invert delta snap).final w t) = (.ok a, t')) :
    (Closes w (normalize intent.locator.toList) a.postcondition t' ∧ Restores w inverse t t') ↔
      (intent.goal ≠ [] → ∀ entry, Entry.decode intent.goal = some entry →
        entry.recordsFiredness = true) ∧
      ∀ bytes, standing (normalize intent.locator.toList) t = some bytes →
        ∃ entry, Entry.decode bytes = some entry ∧ entry.encode = some bytes := by
  obtain ⟨entry, hop, -, -⟩ := operationOf_plan hplan
  exact and_congr (closes_iff hfresh hplan happly) (restores_iff hfresh hop hinvert happly)

open Ideal in
theorem window_closes_by_itself_scheduled : ∃ delta inverse reads a t',
    plan (schedules (some false)) snapshot = .ok delta ∧
      (invert delta snapshot).answer unused rooted = .ok (.inverted inverse reads) ∧
        apply delta unused ((invert delta snapshot).final unused rooted) = (.ok a, t') ∧
          Closes unused ['/', 'a'] a.postcondition t' ∧ Restores unused inverse rooted t' := by
  obtain ⟨delta, inverse, reads, a, t', hplan, hinvert, happly⟩ :=
    schedules_runs (some false) (by decide)
  have hencode : (due (some false)).encode = some (schedules (some false)).goal := rfl
  refine ⟨delta, inverse, reads, a, t', hplan, hinvert, happly,
    (window_closes_by_itself unused_fresh hplan hinvert happly).mpr ⟨?_, ?_⟩⟩
  · intro _ entry hentry
    have heq : due (some false) = entry :=
      Option.some.inj ((entry_decode_encode hencode).symm.trans hentry)
    rw [← heq]
    rfl
  · intro bytes hbytes
    cases hbytes

open Ideal in
/-- An entry that does not say whether it has run is written where nothing stood: the inverse is
escrowed, and running the entry closes nothing. -/
theorem window_stays_open : ∃ delta inverse reads a t',
    plan (schedules none) snapshot = .ok delta ∧
      (invert delta snapshot).answer unused rooted = .ok (.inverted inverse reads) ∧
        apply delta unused ((invert delta snapshot).final unused rooted) = (.ok a, t') ∧
          ¬ Closes unused ['/', 'a'] a.postcondition t' := by
  obtain ⟨delta, inverse, reads, a, t', hplan, hinvert, happly⟩ := schedules_runs none nofun
  have hencode : (due none).encode = some (schedules none).goal := rfl
  refine ⟨delta, inverse, reads, a, t', hplan, hinvert, happly, fun hcloses => ?_⟩
  have hrecords := (closes_iff unused_fresh hplan happly).mp hcloses (by decide) (due none)
    (entry_decode_encode hencode)
  cases hrecords

end Scheduled

end Tracefold.Time
