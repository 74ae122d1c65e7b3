import Mathlib.Tactic.Common
import Tracefold.Fs.Adapter
import Tracefold.Ideal.Adapter

/-! The laws of the fs adapter on a tree of directories and files. -/

namespace Tracefold.Fs

open Library Library.FileTree Locator Locator.Lexical Adapter

section Position

theorem components_names {names : List Text} (h : ∀ name ∈ names, Proper name) :
    names.filterMap (fun segment => if segment = [] ∨ segment = dot then none
      else if segment = dotDot then some .up
      else some (.name segment)) = names.map Component.name := by
  induction names with
  | nil => rfl
  | cons name names ih =>
    have hname := h name List.mem_cons_self
    rw [List.filterMap_cons, if_neg (not_or.mpr ⟨hname.nonempty, hname.noDot⟩),
      if_neg hname.noDotDot, List.map_cons]
    exact congrArg _ (ih fun other hother => h other (List.mem_cons_of_mem _ hother))

theorem position_names {locator : Text} (h : isAbsolute locator = true) : ∃ names : List Text,
    normalize locator = separator :: ['/'].intercalate names ∧
      components (normalize locator) = names.map .name := by
  refine ⟨(way locator).names, ?_, ?_⟩
  · rw [normalize, h, if_pos rfl, fold, folded_eq]
    rfl
  · have hproper : ∀ name ∈ (way locator).names, Proper name := fun name hname => proper_way hname
    have hnormal : normalize locator = [] ++ '/' :: fold true locator := by
      rw [normalize, h, if_pos rfl]
      rfl
    have hfolded : folded true locator = (way locator).names := by
      rw [folded_eq]
      rfl
    rw [components, hnormal, List.splitOn_append_cons_self, List.splitOn_nil, List.filterMap_append,
      fold, hfolded]
    by_cases hnil : (way locator).names = []
    · rw [hnil]
      rfl
    · rw [List.splitOn_intercalate '/' (fun name hname => (hproper name hname).noSeparator) hnil,
        components_names hproper]
      rfl

theorem position_inj {a b : Text} (ha : isAbsolute a = true) (hb : isAbsolute b = true)
    (h : components (normalize a) = components (normalize b)) : normalize a = normalize b := by
  obtain ⟨names, ha, hcomponents⟩ := position_names ha
  obtain ⟨names', hb, hcomponents'⟩ := position_names hb
  rw [hcomponents, hcomponents'] at h
  rw [ha, hb, (List.map_inj_right fun _ _ heq => Component.name.inj heq).mp h]

theorem site_ne {t : Tree} {a b : Text} {path path' : List Text} (ha : isAbsolute a = true)
    (hb : isAbsolute b = true) (hne : normalize a ≠ normalize b)
    (h : t.Site (components (normalize a)) path) (h' : t.Site (components (normalize b)) path') :
    path ≠ path' := by
  rintro rfl
  obtain ⟨names, -, hcomponents⟩ := position_names ha
  obtain ⟨names', -, hcomponents'⟩ := position_names hb
  apply hne
  apply position_inj ha hb
  have hpath : path = names := locate_names (hcomponents ▸ h.located)
  have hpath' : path = names' := locate_names (hcomponents' ▸ h'.located)
  rw [hcomponents, hcomponents', ← hpath, ← hpath']

end Position

section Perform

variable {w : Temps} {t : Tree} {position : Text} {path : List Text} {content : Option Bytes}

theorem perform_site (hfresh : w.Fresh) (hsite : t.Site (components position) path) :
    perform position content w t = (.ok (), t.put path hsite.place content) := by
  obtain ⟨parent, hparent, hdirectory⟩ := hsite.parent
  have hsync : ∀ {t' : Tree}, t' = t.put path hsite.place none →
      calling (fun e => .applyFailed position (some e))
        (openPath (components position).dropLast) w t' = (.ok (), t.put path hsite.place none) := by
    rintro t' rfl
    rw [calling, openPath_ok (locate_put.mpr hparent) (directory_put.mpr hdirectory)]
  cases content with
  | some content =>
    rw [perform, writeWholeFile, writeWhole_site hfresh hsite]
  | none =>
    rw [perform, removeWholeFile]
    rcases hsite.cases with hentry | ⟨found, hentry⟩
    · have habsent : Option.map FileEntry.file none = t.entry path := hentry.symm
      have hself : t = t.put path hsite.place none := (put_eq_self habsent).symm
      rw [unlink_absent hsite.located hentry]
      dsimp only
      rw [if_neg (site_nonempty hsite), hsync hself]
    · rw [hsite.unlink hentry]
      dsimp only
      rw [if_neg (site_nonempty hsite), hsync rfl]

theorem perform_refused (hfresh : w.Fresh) (hnot : ∀ path, ¬ t.Site (components position) path) :
    ∃ e, perform position content w t = (.error e, t) := by
  cases content with
  | some content =>
    rw [perform, writeWholeFile]
    exact writeWhole_refused hfresh hnot
  | none =>
    rw [perform, removeWholeFile]
    rcases look_refused hnot with ⟨e, hlocated, hlook⟩ | ⟨path, hlook⟩
    · rw [unlink, hlook]
      dsimp only
      split
      next heq => cases heq
      next heq =>
        cases heq
        split
        next => exact ⟨_, rfl⟩
        next =>
          obtain ⟨e, he⟩ := @openPath_absent _ _ _ _ _ w hlocated
          rw [calling, he]
          exact ⟨_, rfl⟩
      next heq =>
        cases heq
        exact ⟨_, rfl⟩
    · rw [unlink, hlook]
      exact ⟨_, rfl⟩

end Perform

section Apply

variable [Host] {w : Temps} {t : Tree} {position : Text} {path : List Text} {content : Option Bytes}

theorem operationOf_position {delta : PlannedDelta} {op : FsOp}
    (h : operationOf delta = .ok (position, op)) :
    normalize op.locator = position ∧ isAbsolute position = true := by
  rw [operationOf] at h
  split at h
  · cases h
  · simp only [bind, Except.bind] at h
    split at h
    · cases h
    next op' hop' =>
      split at h
      · cases h
      next position' hposition =>
        cases h
        rw [FsOp.position] at hposition
        split at hposition
        next habsolute =>
          cases hposition
          exact ⟨rfl, habsolute⟩
        next => cases hposition

variable [Canon]

/-- What is applied at a place for a file is put there, and observed. -/
def appliedAt [LawfulHost] (delta : PlannedDelta) (position : Text) (content : Option Bytes) :
    AppliedDelta where
  delta := delta.reference
  postcondition := ⟨.fs, elideScope (String.ofList position), contentDigest (content.getD []),
    elideScope_bounded _⟩
  resultingDigest := contentDigest (content.getD [])
  appliedAt := 0
  observation := none

variable [LawfulHost] {delta : PlannedDelta} {op : FsOp}

theorem apply_site (hfresh : w.Fresh) (hop : operationOf delta = .ok (position, op))
    (hsite : t.Site (components position) path) :
    apply delta w t = (.ok (appliedAt delta position op.content),
      t.put path hsite.place op.content) := by
  have hperform := @perform_site w t position path op.content hfresh hsite
  have hobserve := @observe_put w t position path _ op.content hsite
  simp only [apply, bind, answering, hop, hperform, hobserve, fingerprint_eq]
  rfl

omit [LawfulHost] in
theorem apply_refused (hfresh : w.Fresh) (hnot : ∀ position op path,
    operationOf delta = .ok (position, op) → ¬ t.Site (components position) path) :
    ∃ e, apply delta w t = (.error e, t) := by
  cases hop : operationOf delta with
  | error e =>
    refine ⟨e, ?_⟩
    simp only [apply, bind, answering, hop]
  | ok found =>
    obtain ⟨position, op⟩ := found
    obtain ⟨e, he⟩ := @perform_refused w t position op.content hfresh
      fun path => hnot position op path hop
    refine ⟨e, ?_⟩
    simp only [apply, bind, answering, hop, he]

theorem apply_cases (hfresh : w.Fresh) (t : Tree) (delta : PlannedDelta) :
    (∃ position op path, ∃ hsite : t.Site (components position) path,
      operationOf delta = .ok (position, op) ∧
        apply delta w t = (.ok (appliedAt delta position op.content),
          t.put path hsite.place op.content)) ∨
      ((∀ position op path, operationOf delta = .ok (position, op) →
        ¬ t.Site (components position) path) ∧ ∃ e, apply delta w t = (.error e, t)) := by
  by_cases h : ∃ position op path, operationOf delta = .ok (position, op) ∧
      t.Site (components position) path
  · obtain ⟨position, op, path, hop, hsite⟩ := h
    exact .inl ⟨position, op, path, hsite, hop, apply_site hfresh hop hsite⟩
  · have hnot : ∀ position op path, operationOf delta = .ok (position, op) →
        ¬ t.Site (components position) path :=
      fun position op path hop hsite => h ⟨position, op, path, hop, hsite⟩
    exact .inr ⟨hnot, apply_refused hfresh hnot⟩

/-- A delta that is applied once more changes nothing, and is answered the same. -/
theorem apply_twice (hfresh : w.Fresh) {a : AppliedDelta} {t' : Tree}
    (h : apply delta w t = (.ok a, t')) : apply delta w t' = (.ok a, t') := by
  rcases apply_cases hfresh t delta with ⟨position, op, path, hsite, hop, happly⟩ | ⟨-, e, happly⟩
  · rw [happly] at h
    cases h
    rw [apply_site hfresh hop hsite.put, put_put]
  · rw [happly] at h
    cases h

theorem apply_failed (hfresh : w.Fresh) {e : Adapter.Error} {t' : Tree}
    (h : apply delta w t = (.error e, t')) : t' = t := by
  rcases apply_cases hfresh t delta with ⟨position, op, path, hsite, hop, happly⟩ | ⟨-, e, happly⟩
  · rw [happly] at h
    cases h
  · rw [happly] at h
    cases h
    rfl

end Apply

section Invert

theorem ofValue_value (op : FsOp) : FsOp.ofValue op.value = some op := by
  rcases op with ⟨_ | content, locator⟩
  · simp [FsOp.value, FsOp.ofValue, DagCbor.optional, DagCbor.required, DagCbor.member,
      DagCbor.optionValue, DagCbor.ofText]
  · simp [FsOp.value, FsOp.ofValue, DagCbor.optional, DagCbor.required, DagCbor.member,
      DagCbor.optionValue, DagCbor.ofText, DagCbor.ofBytes]

theorem position_self {locator : Text} {content : Option Bytes}
    (h : isAbsolute (normalize locator) = true) :
    FsOp.position ⟨content, normalize locator⟩ = .ok (normalize locator) := by
  rw [FsOp.position]
  dsimp only
  rw [normalize_normalize, if_pos h]

variable [Host] [LawfulHost] {w : Temps} {t : Tree} {position : Text} {payload : Bytes} {op : FsOp}

theorem decode_encode (h : encode [op] = some payload) : decode payload = .ok op := by
  have hvalue := DagCbor.decode_encode h
  have hops : (DagCbor.ofArray FsOp.ofValue (.array ([op].map FsOp.value))) = some [op] := by
    simp [DagCbor.ofArray, ofValue_value]
  rw [decode, hvalue, Option.bind_some, hops]
  rfl

theorem operationOf_encode (h : encode [op] = some payload) (hposition : op.position = .ok position)
    {promised : Option Cid} : operationOf ⟨.fs, payload, promised⟩ = .ok (position, op) := by
  rw [operationOf, if_neg (not_not.mpr rfl), decode_encode h]
  simp only [bind, Except.bind, hposition]
  rfl

theorem invert_inverted {delta i : PlannedDelta} {pre : ObjectSnapshot} {reads : List ReadEntry}
    {t' : Tree} (h : invert delta pre w t = (.ok (.inverted i reads), t')) :
    ∃ position op old, operationOf delta = .ok (position, op) ∧
      readIfPresent position w t = (.ok old, t) ∧ operationOf i = .ok (position, ⟨old, position⟩) := by
  obtain ⟨⟨position, op⟩, s, hanswer, h⟩ := Prog.bind_eq_ok.mp h
  obtain ⟨hop, rfl⟩ := answering_eq_ok.mp hanswer
  obtain ⟨hposition, habsolute⟩ := operationOf_position hop
  dsimp only at h
  split at h
  · cases h
  · obtain ⟨old, s, hread, hwritten⟩ := Prog.bind_eq_ok.mp h
    obtain rfl := readIfPresent_keeps hread
    obtain ⟨payload, s', horThrow, hceiling⟩ := Prog.bind_eq_ok.mp hwritten
    obtain ⟨hpayload, rfl⟩ := Prog.orThrow_eq_ok.mp horThrow
    split at hceiling
    · cases hceiling
    · cases hceiling
      refine ⟨position, op, old, hop, hread, operationOf_encode hpayload ?_⟩
      rw [← hposition] at habsolute ⊢
      exact position_self habsolute

omit [LawfulHost] in
theorem invert_read {delta : PlannedDelta} {pre : ObjectSnapshot} {old : Option Bytes}
    (hop : operationOf delta = .ok (position, op)) (hnamed : normalize pre.locator.toList = position)
    (hread : readIfPresent position w t = (.ok old, t)) (hpayload : encode [⟨old, position⟩] = some payload)
    (hceiling : payload.length ≤ maxInversePayloadBytes) :
    invert delta pre w t = (.ok (.inverted ⟨.fs, payload, none⟩
      [⟨contentDigest (old.getD []), String.ofList position⟩]), t) := by
  refine Prog.bind_eq_ok.mpr ⟨(position, op), t, answering_eq_ok.mpr ⟨hop, rfl⟩, ?_⟩
  dsimp only
  rw [if_neg (not_not.mpr hnamed)]
  refine Prog.bind_eq_ok.mpr ⟨old, t, hread, ?_⟩
  refine Prog.bind_eq_ok.mpr ⟨payload, t, Prog.orThrow_eq_ok.mpr ⟨hpayload, rfl⟩, ?_⟩
  rw [if_neg (Nat.not_lt.mpr hceiling)]
  rfl

variable [Canon]

/-- An inverse puts everything back as it was. -/
theorem apply_inverse (hfresh : w.Fresh) {delta i : PlannedDelta} {pre : ObjectSnapshot}
    {reads : List ReadEntry} {a : AppliedDelta} {t' : Tree}
    (hinvert : (invert delta pre).answer w t = .ok (.inverted i reads))
    (happly : apply delta w t = (.ok a, t')) : ∃ a', apply i w t' = (.ok a', t) := by
  obtain ⟨position, op, old, hop, hread, hi⟩ :=
    @invert_inverted _ _ w t delta i pre reads ((invert delta pre).final w t) (Prod.ext hinvert rfl)
  rcases apply_cases hfresh t delta with ⟨position', op', path, hsite, hop', hput⟩ | ⟨-, e, hput⟩
  · rw [hop] at hop'
    cases hop'
    rw [hput] at happly
    cases happly
    obtain ⟨found, hold, hfound⟩ := readIfPresent_site (w := w) hsite
    rw [hfound] at hread
    cases hread
    refine ⟨appliedAt i position old, ?_⟩
    rw [apply_site hfresh hi hsite.put]
    dsimp only
    rw [put_put, put_eq_self hold]
  · rw [hput] at happly
    cases happly

end Invert

section Commutation

variable [Host] [LawfulHost] [Canon] {w : Temps} {t : Tree} {d e : PlannedDelta}

omit [LawfulHost] in
/-- Two deltas commute when they act at two positions. -/
theorem commutation_commutes : commutation d e = .ok .commutes ↔ ∃ left right,
    operationOf d = .ok left ∧ operationOf e = .ok right ∧ left.1 ≠ right.1 := by
  rw [commutation]
  cases operationOf d with
  | error err => exact ⟨nofun, fun ⟨_, _, h, _⟩ => nomatch h⟩
  | ok left =>
    cases operationOf e with
    | error err => exact ⟨nofun, fun ⟨_, _, _, h, _⟩ => nomatch h⟩
    | ok right =>
      simp only [bind, Except.bind]
      constructor
      · intro h
        split at h
        next hne => exact ⟨left, right, rfl, rfl, hne⟩
        next =>
          split at h <;> cases h
      · rintro ⟨_, _, hleft, hright, hne⟩
        cases hleft
        cases hright
        rw [if_pos hne]
        rfl

omit [LawfulHost] in
theorem commutation_symm (h : commutation d e = .ok .commutes) :
    commutation e d = .ok .commutes := by
  obtain ⟨left, right, hleft, hright, hne⟩ := commutation_commutes.mp h
  exact commutation_commutes.mpr ⟨right, left, hright, hleft, hne.symm⟩

omit [LawfulHost] in
theorem refused_after (hfresh : w.Fresh) {path : List Text} (h : t.Place path)
    {content : Option Bytes} (hnot : ∀ position op path, operationOf d = .ok (position, op) →
      ¬ t.Site (components position) path) :
    ∃ err, apply d w (t.put path h content) = (.error err, t.put path h content) :=
  apply_refused hfresh fun position op place hop hsite =>
    hnot position op place hop (site_put.mp hsite)

theorem apply_comm (hfresh : w.Fresh) (h : commutation d e = .ok .commutes) :
    (apply e).final w ((apply d).final w t) = (apply d).final w ((apply e).final w t) ∧
      ((apply d).answer w t).isOk = ((apply d).answer w ((apply e).final w t)).isOk ∧
      ((apply e).answer w t).isOk = ((apply e).answer w ((apply d).final w t)).isOk := by
  obtain ⟨⟨left, op⟩, ⟨right, op'⟩, hleft, hright, hne⟩ := commutation_commutes.mp h
  obtain ⟨hnormal, habsolute⟩ := operationOf_position hleft
  obtain ⟨hnormal', habsolute'⟩ := operationOf_position hright
  simp only [Prog.final, Prog.answer]
  rcases apply_cases hfresh t d with ⟨position, _, path, hsite, hop, hd⟩ | ⟨hnot, err, hd⟩
  · rw [hleft] at hop
    cases hop
    rcases apply_cases hfresh t e with ⟨position', _, path', hsite', hop', he⟩ | ⟨hnot', err', he⟩
    · rw [hright] at hop'
      cases hop'
      have hpaths : path ≠ path' := by
        rw [← hnormal] at hne hsite habsolute
        rw [← hnormal'] at hne hsite' habsolute'
        rw [isAbsolute_normalize] at habsolute habsolute'
        exact site_ne habsolute habsolute' hne hsite hsite'
      rw [hd, he, apply_site hfresh hleft hsite.put, apply_site hfresh hright hsite'.put]
      exact ⟨put_comm hpaths hsite.put.place hsite'.put.place, rfl, rfl⟩
    · obtain ⟨err'', hafter⟩ := @refused_after _ _ w t e hfresh path hsite.place op.content hnot'
      rw [hd, he, hafter]
      dsimp only
      rw [hd]
      exact ⟨rfl, rfl, rfl⟩
  · rcases apply_cases hfresh t e with ⟨position', _, path', hsite', hop', he⟩ | ⟨hnot', err', he⟩
    · rw [hright] at hop'
      cases hop'
      obtain ⟨err'', hafter⟩ := @refused_after _ _ w t d hfresh path' hsite'.place op'.content hnot
      rw [hd, he, hafter]
      exact ⟨rfl, rfl, rfl⟩
    · rw [hd, he]
      dsimp only
      rw [hd]
      exact ⟨rfl, rfl, rfl⟩

end Commutation

section Plan

variable [Host] [LawfulHost] [Canon] {w : Temps} {t : Tree} {delta : PlannedDelta}

omit [LawfulHost] [Canon] in
theorem plan_eq_ok {intent : Intent} {pre : ObjectSnapshot} (h : plan intent pre = .ok delta) :
    ∃ position payload, FsOp.position ⟨some intent.goal, position⟩ = .ok position ∧
      encode [⟨some intent.goal, position⟩] = some payload ∧
        delta = ⟨.fs, payload, some (contentDigest intent.goal)⟩ := by
  simp only [plan] at h
  split at h
  · cases h
  · split at h
    · cases h
    next habsolute =>
      rw [Bool.not_eq_true, Bool.not_eq_false'] at habsolute
      split at h
      · cases h
      next payload hpayload =>
        split at h
        · cases h
        · cases h
          exact ⟨_, payload, position_self habsolute, hpayload, rfl⟩

/-- A promise is kept wherever the delta is applied. -/
theorem apply_plan (hfresh : w.Fresh) {intent : Intent} {pre : ObjectSnapshot}
    (h : plan intent pre = .ok delta) {a : AppliedDelta} {t' : Tree}
    (happly : apply delta w t = (.ok a, t')) : delta.promisedTarget = some a.resultingDigest := by
  obtain ⟨position, payload, hposition, hpayload, rfl⟩ := plan_eq_ok h
  rcases apply_cases hfresh t _ with ⟨position', op, path, hsite, hop, hput⟩ | ⟨-, err, hput⟩
  · rw [operationOf_encode hpayload hposition] at hop
    cases hop
    rw [hput] at happly
    cases happly
    rfl
  · rw [hput] at happly
    cases happly

end Plan

/-- On a tree of directories and files the adapter is lawful: a second application changes nothing,
an inverse restores every path, a failure leaves every path as it was, what commutes ends in one tree
in either order, and what was planned is what is observed. -/
theorem adapter_is_lawful [Host] [LawfulHost] [Canon] (w : Temps) (hfresh : w.Fresh) (t : Tree)
    (d e : PlannedDelta) :
    (∀ a t', apply d w t = (.ok a, t') → apply d w t' = (.ok a, t')) ∧
      (∀ pre i reads a t', (invert d pre).answer w t = .ok (.inverted i reads) →
        apply d w t = (.ok a, t') → ∃ a', apply i w t' = (.ok a', t)) ∧
      (∀ err t', apply d w t = (.error err, t') → t' = t) ∧
      (commutation d e = .ok .commutes ↔ commutation e d = .ok .commutes) ∧
      (commutation d e = .ok .commutes →
        (apply e).final w ((apply d).final w t) = (apply d).final w ((apply e).final w t) ∧
          ((apply d).answer w t).isOk = ((apply d).answer w ((apply e).final w t)).isOk ∧
          ((apply e).answer w t).isOk = ((apply e).answer w ((apply d).final w t)).isOk) ∧
      (∀ intent pre a t', plan intent pre = .ok d → apply d w t = (.ok a, t') →
        d.promisedTarget = some a.resultingDigest) := by
  refine ⟨?_, ?_, ?_, ⟨commutation_symm, commutation_symm⟩, apply_comm hfresh, ?_⟩
  · intro a t' h
    exact apply_twice hfresh h
  · intro pre i reads a t' hinvert happly
    exact apply_inverse hfresh hinvert happly
  · intro err t' h
    exact apply_failed hfresh h
  · intro intent pre a t' hplan happly
    exact apply_plan hfresh hplan happly

/-- A file that is written, by an operation on its own. -/
def writes (locator : String) (content : Bytes) : PlannedDelta :=
  ⟨.fs, (encode [⟨some content, locator.toList⟩]).getD [], none⟩

section Rooted

open Tracefold.Ideal

theorem operationOf_writes {locator : String} {content payload : Bytes}
    (hencode : encode [⟨some content, locator.toList⟩] = some payload)
    (hposition : FsOp.position ⟨some content, locator.toList⟩ = .ok locator.toList) :
    operationOf (writes locator content) = .ok (locator.toList, ⟨some content, locator.toList⟩) := by
  rw [writes, hencode]
  exact operationOf_encode hencode hposition

theorem rooted_site : rooted.Site (components "/a".toList) ["a".toList] where
  located := rfl
  place := ⟨by decide, by decide, by decide⟩

/-- A file is written into the empty tree: once more it changes nothing, its inverse removes it, and
another file can be written before or behind it. -/
theorem adapter_is_lawful_rooted :
    ∃ a t' i reads a', apply (writes "/a" [1]) unused rooted = (.ok a, t') ∧
      t'.entry ["a".toList] = some (.file [1]) ∧ apply (writes "/a" [1]) unused t' = (.ok a, t') ∧
      (invert (writes "/a" [1]) ⟨⟨[]⟩, .fs, "/a", ⟨[]⟩, .bytes⟩).answer unused rooted =
        .ok (.inverted i reads) ∧
      apply i unused t' = (.ok a', rooted) ∧
      (apply (writes "/b" [2])).final unused t' =
        (apply (writes "/a" [1])).final unused ((apply (writes "/b" [2])).final unused rooted) := by
  have hleft := @operationOf_writes "/a" [1] _ rfl (by decide)
  have hright := @operationOf_writes "/b" [2] _ rfl (by decide)
  have happly := apply_site (w := unused) unused_fresh hleft rooted_site
  obtain ⟨hretry, hundone, _, _, hcommute, _⟩ :=
    adapter_is_lawful unused unused_fresh rooted (writes "/a" [1]) (writes "/b" [2])
  have hinvert : (invert (writes "/a" [1]) ⟨⟨[]⟩, .fs, "/a", ⟨[]⟩, .bytes⟩).answer unused rooted =
      .ok (.inverted ⟨.fs, (encode [⟨none, "/a".toList⟩]).getD [], none⟩
        [⟨contentDigest [], "/a"⟩]) := by
    obtain ⟨found, hfound, hread⟩ := readIfPresent_site (w := unused) rooted_site
    cases found with
    | none => exact congrArg Prod.fst (invert_read hleft (by decide) hread rfl (by decide))
    | some found => cases hfound
  obtain ⟨a', ha'⟩ := hundone _ _ _ _ _ hinvert happly
  refine ⟨_, _, _, _, a', happly, entry_put_self, hretry _ _ happly, hinvert, ha', ?_⟩
  have hboth := (hcommute (commutation_commutes.mpr ⟨_, _, hleft, hright, by decide⟩)).1
  have hafter : (apply (writes "/a" [1])).final unused rooted =
      rooted.put ["a".toList] rooted_site.place (some [1]) := congrArg Prod.snd happly
  rw [hafter] at hboth
  exact hboth

end Rooted

end Tracefold.Fs
