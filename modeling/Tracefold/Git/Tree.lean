import Mathlib.Tactic.Common
import Tracefold.Git.Lawful

/-! What a change of one file does to the tree of its branch. -/

namespace Tracefold.Git

open Library Locator Adapter

section Paths

variable [Gix] {r : Repository} {name : Text} {parent : Option Oid} {entries : List (Entry Oid)}
  {objects objects' : ObjectStore (Gix.hash : Object Oid → Oid)}

/-- The entries of the tree of a branch. -/
def treeAt (r : Repository) (name : Text) : List (Entry Oid) :=
  match (r.refs name).bind r.objects.find with
  | some (.commit commit) =>
    match r.objects.find commit.tree with
    | some (.tree entries) => entries
    | _ => []
  | _ => []

theorem Reads.treeAt (h : Reads r name parent entries) : treeAt r name = entries := by
  rw [Git.treeAt, h.named]
  cases parent with
  | none => exact (h.unborn rfl).symm
  | some id =>
    obtain ⟨commit, hcommit, htree⟩ := (h.readable rfl).tree
    rw [Option.bind_some, hcommit]
    dsimp only
    rw [htree]

/-- What stands at a path in a tree: its kind and its id. -/
def lookupPath (objects : ObjectStore (Gix.hash : Object Oid → Oid)) :
    List (Entry Oid) → List Bytes → Option (EntryKind × Oid)
  | _, [] => none
  | entries, [filename] => (lookupEntry entries filename).map fun entry => (entry.kind, entry.oid)
  | entries, filename :: below =>
    match lookupEntry entries filename with
    | none => none
    | some entry =>
      if entry.kind = .tree then
        match objects.find entry.oid with
        | some (.tree entries) => lookupPath objects entries below
        | _ => none
      else none

theorem lookupPath_nil (path : List Bytes) : lookupPath objects [] path = none := by
  match path with
  | [] => rfl
  | [_] => rfl
  | _ :: _ :: _ => rfl

/-- The directories of a tree are in the store. -/
def Held (objects : ObjectStore (Gix.hash : Object Oid → Oid)) (entries : List (Entry Oid)) : Prop :=
  ∀ entry ∈ entries, entry.kind = .tree → ∃ below, objects.find entry.oid = some (.tree below)

theorem Repository.Whole.held (h : Repository.Whole objects) {id : Oid}
    (htree : objects.find id = some (.tree entries)) : Held objects entries :=
  fun entry hentry => ((h.trees htree).2 entry hentry).2

theorem lookupPath_mono (hwhole : Repository.Whole objects) (hwithin : objects.Within objects')
    (path : List Bytes) (hheld : Held objects entries) :
    lookupPath objects' entries path = lookupPath objects entries path := by
  induction path generalizing entries with
  | nil => rfl
  | cons filename below ih =>
    cases below with
    | nil => rfl
    | cons next below =>
      rw [lookupPath, lookupPath]
      · cases hentry : lookupEntry entries filename with
        | none => rfl
        | some entry =>
          dsimp only
          split
          next hkind =>
            obtain ⟨below', htree⟩ := hheld entry (List.mem_of_find?_eq_some hentry) hkind
            rw [htree, hwithin htree]
            exact ih (hwhole.held htree)
          next => rfl
      · exact nofun
      · exact nofun

theorem lookupEntry_some {filename : Bytes} {entry : Entry Oid}
    (h : lookupEntry entries filename = some entry) : entry ∈ entries ∧ entry.filename = filename := by
  refine ⟨List.mem_of_find?_eq_some h, ?_⟩
  have hfound := List.find?_some h
  exact of_decide_eq_true hfound

theorem lookupEntry_none {filename : Bytes} :
    lookupEntry entries filename = none ↔ ∀ entry ∈ entries, entry.filename ≠ filename := by
  rw [lookupEntry, List.find?_eq_none]
  exact forall₂_congr fun _ _ => by rw [decide_eq_true_iff]

theorem lookup_entriesWith_of_ne {filename other : Bytes} {blob : Option Oid}
    (hnodup : (entries.map Entry.filename).Nodup) (hne : other ≠ filename) :
    lookupEntry (entriesWith entries filename blob) other = lookupEntry entries other := by
  have hmem : ∀ {entry : Entry Oid}, entry.filename = other →
      (entry ∈ entriesWith entries filename blob ↔ entry ∈ entries) := by
    rintro entry rfl
    rw [mem_entriesWith]
    constructor
    · rintro (⟨hentry, -⟩ | ⟨oid, -, rfl⟩)
      · exact hentry
      · exact absurd rfl hne
    · exact fun hentry => .inl ⟨hentry, hne⟩
  cases hlookup : lookupEntry entries other with
  | none =>
    rw [lookupEntry_none] at hlookup ⊢
    intro entry hentry hname
    exact hlookup entry ((hmem hname).mp hentry) hname
  | some entry =>
    obtain ⟨hentry, hname⟩ := lookupEntry_some hlookup
    cases hlookup' : lookupEntry (entriesWith entries filename blob) other with
    | none => exact absurd hname (lookupEntry_none.mp hlookup' entry ((hmem hname).mpr hentry))
    | some entry' =>
      obtain ⟨hentry', hname'⟩ := lookupEntry_some hlookup'
      have hsame := List.inj_on_of_nodup_map hnodup ((hmem hname').mp hentry') hentry
        (hname'.trans hname.symm)
      rw [hsame]

end Paths

section Change

variable [Gix] {r r' : Repository} {position : Position} {content : Option Bytes}
  {entries : List (Entry Oid)} {objects : ObjectStore (Gix.hash : Object Oid → Oid)}

/-- The kind of a file that is written: that of the file that stood there. -/
def fileKind : Option (Entry Oid) → EntryKind
  | some entry => if entry.kind = .blobExecutable then .blobExecutable else .blob
  | none => .blob

/-- The tree of a branch with the file at a position changed, and nothing else. -/
structure ChangesOneFile (position : Position) (content : Option Bytes) (r r' : Repository) :
    Prop where
  others : ∀ path, path ≠ [position.filename] →
    lookupPath r'.objects (treeAt r' position.reference) path =
      lookupPath r.objects (treeAt r position.reference) path
  written : ∀ raw, content = some raw → ∃ entry,
    lookupEntry (treeAt r' position.reference) position.filename = some entry ∧
      r'.objects.find entry.oid = some (.blob raw) ∧
        entry.kind = fileKind (lookupEntry (treeAt r position.reference) position.filename)
  removed : content = none → lookupEntry (treeAt r' position.reference) position.filename = none
  parent : r'.refs position.reference ≠ r.refs position.reference → ∃ id commit,
    r'.refs position.reference = some id ∧ r'.objects.find id = some (.commit commit) ∧
      commit.parents = (r.refs position.reference).toList

/-- What a change does not go beyond: a file is written where nothing stands, or a regular file, a
link or a submodule, or the executable that holds it already, or a directory with nothing below; and
nothing is taken away but a file. -/
def Bounded (objects : ObjectStore (Gix.hash : Object Oid → Oid)) :
    Option Bytes → Option (Entry Oid) → Prop
  | _, none => True
  | some raw, some entry =>
    match entry.kind with
    | .blobExecutable => objects.find entry.oid = some (.blob raw)
    | .tree => objects.find entry.oid = some (.tree [])
    | .blob | .link | .commit => True
  | none, some entry => entry.kind.isBlob = true

/-- The tree of a branch, as it is found in a sound repository. -/
structure Found (r : Repository) (name : Text) (entries : List (Entry Oid)) : Prop where
  reads : Reads r name (r.refs name) entries
  nodup : (entries.map Entry.filename).Nodup
  held : Held r.objects entries
  files : ∀ entry ∈ entries, entry.kind.isBlob = true →
    ∃ raw, r.objects.find entry.oid = some (.blob raw)

theorem Repository.Sound.found (h : r.Sound) (name : Text) : ∃ entries, Found r name entries := by
  obtain ⟨entries, hreads⟩ := h.reads name
  cases hname : r.refs name with
  | none =>
    obtain rfl := hreads.unborn hname
    exact ⟨[], hreads, List.nodup_nil, nofun, nofun⟩
  | some id =>
    obtain ⟨commit, -, htree⟩ := (hreads.readable hname).tree
    have hentries := h.whole.trees htree
    exact ⟨entries, hreads, hentries.1, h.whole.held htree,
      fun entry hentry => (hentries.2 entry hentry).1⟩

theorem changesOneFile_self (h : Found r position.reference entries)
    (hcontent : contentOf r.objects entries position.filename = content) :
    ChangesOneFile position content r r ↔
      Bounded r.objects content (lookupEntry entries position.filename) := by
  have hentries := h.reads.treeAt
  subst hcontent
  rw [contentOf]
  cases hlookup : lookupEntry entries position.filename with
  | none =>
    refine iff_of_true ⟨fun _ _ => rfl, fun _ h => ?_, fun _ => ?_, fun hne => absurd rfl hne⟩ trivial
    · cases h
    · rw [hentries, hlookup]
  | some entry =>
    dsimp only
    cases hblob : entry.kind.isBlob with
    | true =>
      obtain ⟨raw, hraw⟩ := h.files entry (lookupEntry_some hlookup).1 hblob
      rw [if_pos rfl, hraw]
      have hkind : entry.kind = fileKind (some entry) := by
        rw [fileKind]
        cases hkind : entry.kind with
        | blob => rfl
        | blobExecutable => rfl
        | tree | link | commit =>
          rw [hkind] at hblob
          cases hblob
      apply iff_of_true
      · refine ⟨fun _ _ => rfl, fun raw' heq => ?_, fun h => ?_, fun hne => absurd rfl hne⟩
        · cases heq
          rw [hentries, hlookup]
          exact ⟨entry, rfl, hraw, hkind⟩
        · cases h
      · show Bounded r.objects (some raw) (some entry)
        rw [Bounded]
        split
        next => exact hraw
        next htree =>
          rw [htree] at hblob
          cases hblob
        next => trivial
        next => trivial
        next => trivial
    | false =>
      rw [if_neg Bool.false_ne_true]
      refine iff_of_false (fun hchanges => ?_) (fun hbounded => ?_)
      · have hgone := hchanges.removed rfl
        rw [hentries, hlookup] at hgone
        cases hgone
      · exact absurd (hblob.symm.trans hbounded) Bool.false_ne_true

theorem lookupPath_below {entry : Entry Oid} {filename : Bytes} {next : Entry Oid}
    {below : List (Entry Oid)} (hlookup : lookupEntry entries filename = some entry)
    (hkind : entry.kind = .tree) (htree : objects.find entry.oid = some (.tree (next :: below))) :
    lookupPath objects entries [filename, next.filename] = some (next.kind, next.oid) := by
  have hnext : lookupEntry (next :: below) next.filename = some next := by
    simp [lookupEntry]
  rw [lookupPath, hlookup]
  · dsimp only
    rw [if_pos hkind, htree]
    dsimp only
    rw [lookupPath, hnext]
    rfl
  · exact nofun

theorem lookupPath_under {filename next : Bytes} {below : List Bytes}
    (h : ∀ entry, lookupEntry entries filename = some entry → entry.kind = .tree →
      objects.find entry.oid = some (.tree [])) :
    lookupPath objects entries (filename :: next :: below) = none := by
  rw [lookupPath]
  · cases hlookup : lookupEntry entries filename with
    | none => rfl
    | some entry =>
      dsimp only
      split
      next hkind =>
        rw [h entry hlookup hkind]
        exact lookupPath_nil _
      next => rfl
  · exact nofun

/-- Where the branch is moved, the change is made unless it drops a mode or what is below a
directory. -/
theorem changesOneFile_moved (hwhole : Repository.Whole r.objects)
    (h : Found r position.reference entries)
    (hcontent : contentOf r.objects entries position.filename ≠ content)
    (hwithin : r.objects.Within objects)
    (hcommit : objects.find (Gix.hash (.commit (commitWith position (r.refs position.reference) entries
      content))) = some (.commit (commitWith position (r.refs position.reference) entries content)))
    (hreadable : Readable objects (Gix.hash (.commit (commitWith position
      (r.refs position.reference) entries content))) (treeWith entries position.filename content))
    (hholds : contentOf objects (treeWith entries position.filename content) position.filename =
      content) :
    ChangesOneFile position content r (moved r position.reference objects (some (Gix.hash (.commit
      (commitWith position (r.refs position.reference) entries content))))) ↔
      Bounded r.objects content (lookupEntry entries position.filename) := by
  have hentries := h.reads.treeAt
  have hentries' := (@reads_moved _ r position.reference _ _ _ hreadable).treeAt
  have hlookup' : lookupEntry (treeWith entries position.filename content) position.filename =
      (content.map fun raw => Gix.hash (.blob raw)).map fun oid => ⟨.blob, position.filename, oid⟩ :=
    lookup_entriesWith
  have hblob : ∀ {raw}, content = some raw → objects.find (Gix.hash (.blob raw)) = some (.blob raw) := by
    rintro raw rfl
    obtain ⟨found, hfound⟩ := hreadable.files _ (lookupEntry_some hlookup').1 rfl
    have hheld := hholds
    rw [contentOf, hlookup'] at hheld
    have hsame : (objects.find (Gix.hash (.blob raw))).map Object.content = some raw := hheld
    rw [hfound] at hsame
    rw [hfound, ← Option.some.inj hsame]
    rfl
  have hno : ∀ {entry}, lookupEntry (treeWith entries position.filename content) position.filename =
      some entry → entry.kind ≠ .tree := by
    intro entry hentry hkind
    rw [hlookup'] at hentry
    obtain ⟨oid, -, rfl⟩ := Option.map_eq_some_iff.mp hentry
    cases hkind
  constructor
  · intro hchanges
    cases hlookup : lookupEntry entries position.filename with
    | none => cases content <;> trivial
    | some entry =>
      cases content with
      | none =>
        by_contra hkind
        apply hcontent
        rw [contentOf, hlookup]
        exact if_neg hkind
      | some raw =>
        obtain ⟨entry', hentry', -, hkind'⟩ := hchanges.written raw rfl
        rw [hentries', hlookup'] at hentry'
        obtain rfl := Option.some.inj hentry'
        rw [hentries, hlookup, fileKind] at hkind'
        rw [Bounded]
        split
        next hkind =>
          rw [if_pos hkind] at hkind'
          cases hkind'
        next hkind =>
          obtain ⟨below, htree⟩ := h.held entry (lookupEntry_some hlookup).1 hkind
          cases below with
          | nil => exact htree
          | cons next below =>
            have hbelow := hchanges.others [position.filename, next.filename] (by simp)
            rw [hentries, hentries', lookupPath_below hlookup hkind htree,
              lookupPath_under fun entry hentry hkind => absurd hkind (hno hentry)] at hbelow
            cases hbelow
        next => trivial
        next => trivial
        next => trivial
  · intro hbounded
    have hempty : ∀ entry, lookupEntry entries position.filename = some entry → entry.kind = .tree →
        r.objects.find entry.oid = some (.tree []) := by
      intro entry hlookup hkind
      rw [hlookup] at hbounded
      cases content with
      | none =>
        have hfile : entry.kind.isBlob = true := hbounded
        rw [hkind] at hfile
        cases hfile
      | some raw =>
        rw [Bounded, hkind] at hbounded
        exact hbounded
    constructor
    · intro path hpath
      rw [hentries, hentries']
      cases path with
      | nil => rfl
      | cons filename rest =>
        cases rest with
        | nil =>
          have hne : filename ≠ position.filename := fun heq => hpath (by rw [heq])
          rw [lookupPath, lookupPath, treeWith, lookup_entriesWith_of_ne h.nodup hne]
        | cons next below =>
          by_cases hfilename : filename = position.filename
          · subst hfilename
            rw [lookupPath_under hempty,
              lookupPath_under fun entry hentry hkind => absurd hkind (hno hentry)]
          · have hsame : lookupPath objects (treeWith entries position.filename content)
                (filename :: next :: below) =
                  lookupPath objects entries (filename :: next :: below) := by
              rw [lookupPath, lookupPath, treeWith, lookup_entriesWith_of_ne h.nodup hfilename]
              · exact List.cons_ne_nil _ _
              · exact List.cons_ne_nil _ _
            exact hsame.trans (lookupPath_mono hwhole hwithin _ h.held)
    · rintro raw rfl
      rw [hentries, hentries']
      refine ⟨_, hlookup', hblob rfl, ?_⟩
      cases hlookup : lookupEntry entries position.filename with
      | none => rfl
      | some entry =>
        rw [hlookup] at hbounded
        rw [fileKind]
        split
        next hkind =>
          exfalso
          rw [Bounded, hkind] at hbounded
          have hfile : entry.kind.isBlob = true := by
            rw [hkind]
            rfl
          apply hcontent
          rw [contentOf, hlookup]
          dsimp only
          rw [if_pos hfile, hbounded]
          rfl
        next => rfl
    · rintro rfl
      rw [hentries', hlookup']
      rfl
    · intro _
      exact ⟨_, _, Function.update_self _ _ _, hcommit, rfl⟩

variable [LawfulGix] {op : GitOp}

/-- What is performed of a content changes its file and nothing else exactly where it is bounded. -/
theorem changesOneFile_perform (hsound : r.Sound) (hname : Gix.isName position.reference = true)
    (hkind : op.kind = kindContent) (hperform : perform position op () r = (.ok (), r')) :
    ChangesOneFile position op.content r r' ↔ Bounded r.objects op.content
      (lookupEntry (treeAt r position.reference) position.filename) := by
  obtain ⟨entries, hfound⟩ := hsound.found position.reference
  have hcontents : perform position op = applyContent position op := if_pos hkind
  rw [hcontents] at hperform
  rw [hfound.reads.treeAt]
  by_cases hcontent : contentOf r.objects entries position.filename = op.content
  · rw [applyContent_settled hname hfound.reads hcontent] at hperform
    cases hperform
    exact changesOneFile_self hfound hcontent
  · obtain ⟨objects, hmoves, hwithin, hcommit, hreadable, hholds⟩ :=
      applyContent_moves hname hfound.reads hcontent
    rw [hmoves] at hperform
    cases hperform
    exact changesOneFile_moved hsound.whole hfound hcontent hwithin hcommit hreadable hholds

end Change

/-- An application of a content changes its file and nothing else exactly where the file that is
written drops no mode and no directory that holds something, and what is taken away is a file. -/
theorem content_changes_one_file [Gix] [LawfulGix] [Host] [Canon] {t t' : Repositories}
    {d : PlannedDelta} {position : Position} {op : GitOp} {r r' : Repository} {a : AppliedDelta}
    (hsound : r.Sound) (hr : t position.repository = some r) (hr' : t' position.repository = some r')
    (hop : operationOf d = .ok (position, op)) (hkind : op.kind = kindContent)
    (happly : apply d () t = (.ok a, t')) :
    ChangesOneFile position op.content r r' ↔ Bounded r.objects op.content
      (lookupEntry (treeAt r position.reference) position.filename) := by
  have hname : Gix.isName position.reference = true := by
    by_contra hnot
    obtain ⟨e, hidle⟩ := @perform_unnamed _ r position op (eq_false_of_ne_true hnot)
    rw [apply_refused hop hr hidle] at happly
    cases happly
  rcases hperform : perform position op () r with ⟨answer, s⟩
  cases answer with
  | error e =>
    rw [apply_opened hop hr, Prog.bind_of_error hperform] at happly
    cases happly
  | ok =>
    rw [apply_performed hop hr hperform] at happly
    have ht' := (Prod.mk.inj happly).2
    rw [← ht', Function.update_self] at hr'
    cases hr'
    exact changesOneFile_perform hsound hname hkind hperform

open Ideal in
theorem lookup_place {kind : EntryKind} {content : Bytes} :
    lookupEntry (treeAt (oneFile kind content) place.reference) place.filename =
      some (fileOf kind content) := by
  have hrefs : (oneFile kind content).refs place.reference =
      some (Gix.hash (.commit (commitOf kind content))) := oneFile_main
  have htree : treeAt (oneFile kind content) place.reference = [fileOf kind content] := by
    rw [treeAt, hrefs, Option.bind_some, oneFile_commit]
    dsimp only
    rw [show (commitOf kind content).tree = Gix.hash (.tree [fileOf kind content]) from rfl,
      oneFile_tree]
  rw [htree]
  rfl

open Ideal in
theorem content_changes_one_file_written : ∃ a t' r',
    apply (single overwrite) () (repositories (oneFile .blob [1])) = (.ok a, t') ∧
      t' place.repository = some r' ∧ ChangesOneFile place (some [2]) (oneFile .blob [1]) r' := by
  obtain ⟨a, r', -, happly⟩ := @overwrite_applies .blob (by decide)
  refine ⟨a, _, r', happly, Function.update_self _ _ _, ?_⟩
  refine (content_changes_one_file (oneFile_sound (by decide)) (if_pos rfl)
    (Function.update_self _ _ _) operationOf_overwrite rfl happly).mpr ?_
  rw [lookup_place]
  trivial

open Ideal in
/-- An executable that is written becomes a regular file. -/
theorem written_executable_loses_its_mode : ∃ a t' r', (oneFile .blobExecutable [1]).Sound ∧
    apply (single overwrite) () (repositories (oneFile .blobExecutable [1])) = (.ok a, t') ∧
      t' place.repository = some r' ∧
        ¬ ChangesOneFile place (some [2]) (oneFile .blobExecutable [1]) r' := by
  have hsound : (oneFile .blobExecutable [1]).Sound := oneFile_sound (by decide)
  obtain ⟨a, r', hperform, happly⟩ := @overwrite_applies .blobExecutable (by decide)
  refine ⟨a, _, r', hsound, happly, Function.update_self _ _ _, fun hchanges => ?_⟩
  have hbounded := (changesOneFile_perform hsound (by decide) rfl hperform).mp hchanges
  rw [lookup_place] at hbounded
  have hsame : (oneFile .blobExecutable [1]).objects.find (Gix.hash (.blob [1])) =
      some (.blob [2]) := hbounded
  rw [oneFile_blob] at hsame
  cases hsame

end Tracefold.Git
