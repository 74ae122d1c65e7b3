import Mathlib.Tactic.Common
import Tracefold.Git.Adapter
import Tracefold.Ideal.Adapter
import Tracefold.Ideal.Git

/-! The laws of the git adapter on sound repositories. -/

namespace Tracefold.Git

open Library Locator Adapter
open DagCbor (member_self member_cons optional_of_member)

section Codec

variable {op : GitOp} {payload : Bytes} {position : Position}

theorem ofValue_value (op : GitOp) : GitOp.ofValue op.value = some op := by
  obtain ⟨content, kind, locator, target⟩ := op
  have hcontent := @optional_of_member _ DagCbor.ofBytes
    [("kind", .text kind), ("target", DagCbor.optionValue (fun t => .text (String.ofList t)) target),
      ("content", DagCbor.optionValue .bytes content), ("locator", .text (String.ofList locator))]
    "content" .bytes content (fun _ => nofun) (fun _ => rfl) (by simp [member_cons])
  have htarget := @optional_of_member _ DagCbor.ofText
    [("kind", .text kind), ("target", DagCbor.optionValue .text (target.map String.ofList)),
      ("content", DagCbor.optionValue .bytes content), ("locator", .text (String.ofList locator))]
    "target" .text (target.map String.ofList) (fun _ => nofun) (fun _ => rfl) (by simp [member_cons])
  have hwritten : DagCbor.optionValue (fun t => .text (String.ofList t)) target =
      DagCbor.optionValue .text (target.map String.ofList) := by
    cases target <;> rfl
  rw [← hwritten] at htarget
  rw [GitOp.value, GitOp.ofValue, hcontent, htarget]
  have htexts : (target.map String.ofList).map String.toList = target := by
    cases target <;> simp
  simp [DagCbor.required, member_self, member_cons, DagCbor.ofText, htexts]

theorem wellFormed_eq_ok (h : op.wellFormed = .ok ()) :
    (op.kind = kindContent ∧ op.target = none) ∨
      (op.kind = kindReset ∧ op.content = none ∧ ∃ target, op.target = some target) := by
  rw [GitOp.wellFormed] at h
  split at h
  next hkind =>
    split at h
    next => cases h
    next htarget => exact .inl ⟨hkind, htarget⟩
  next =>
    split at h
    next hkind =>
      split at h
      next => cases h
      next => cases h
      next target hcontent htarget => exact .inr ⟨hkind, hcontent, target, htarget⟩
    next => cases h

theorem position_eq_ok (h : op.position = .ok position) :
    op.wellFormed = .ok () ∧ parse op.locator = .ok position := by
  simp only [GitOp.position, bind, Except.bind] at h
  split at h
  next => cases h
  next hformed =>
    split at h
    next => cases h
    next hparse =>
      cases h
      exact ⟨hformed, hparse⟩

variable [Host] {delta : PlannedDelta}

theorem operationOf_eq_ok (h : operationOf delta = .ok (position, op)) :
    op.wellFormed = .ok () ∧ parse op.locator = .ok position := by
  rw [operationOf] at h
  split at h
  · cases h
  · simp only [bind, Except.bind] at h
    split at h
    · cases h
    · split at h
      · cases h
      next hposition =>
        cases h
        exact position_eq_ok hposition

variable [LawfulHost]

theorem decode_encode (h : encode [op] = some payload) (hformed : op.wellFormed = .ok ()) :
    decode payload = .ok op := by
  have hvalue := DagCbor.decode_encode h
  have hops : (DagCbor.ofArray GitOp.ofValue (.array ([op].map GitOp.value))) = some [op] := by
    simp [DagCbor.ofArray, ofValue_value]
  rw [decode, hvalue, Option.bind_some, hops]
  simp only [bind, Except.bind, hformed]
  rfl

theorem operationOf_encode (h : encode [op] = some payload) (hposition : op.position = .ok position)
    {promised : Option Cid} : operationOf ⟨.git, payload, promised⟩ = .ok (position, op) := by
  rw [operationOf, if_neg (not_not.mpr rfl), decode_encode h (position_eq_ok hposition).1]
  simp only [bind, Except.bind, hposition]
  rfl

omit [Host] [LawfulHost] in
theorem reset_position {locator target : Text} (h : parse locator = .ok position)
    (hdown : dotDot ∉ position.reference.splitOn '/') :
    (GitOp.reset position.locator target).position = .ok position := by
  have hformed : (GitOp.reset position.locator target).wellFormed = .ok () := rfl
  have hparse : parse (GitOp.reset position.locator target).locator = .ok position :=
    parse_locator h hdown
  simp only [GitOp.position, bind, Except.bind, hformed, hparse]
  rfl

end Codec

section Reads

variable [Gix] {r r' : Repository} {name : Text} {position : Position}
  {objects objects' : ObjectStore (Gix.hash : Object Oid → Oid)} {id : Oid} {parent : Option Oid}
  {entries : List (Entry Oid)}

/-- A commit is readable when its tree is there, and the contents of the files of its tree. -/
structure Readable (objects : ObjectStore (Gix.hash : Object Oid → Oid)) (id : Oid)
    (entries : List (Entry Oid)) : Prop where
  tree : ∃ commit, objects.find id = some (.commit commit) ∧
    objects.find commit.tree = some (.tree entries)
  files : ∀ entry ∈ entries, entry.kind.isBlob = true →
    ∃ content, objects.find entry.oid = some (.blob content)

theorem Readable.mono (h : Readable objects id entries) (hwithin : objects.Within objects') :
    Readable objects' id entries where
  tree := by
    obtain ⟨commit, hcommit, htree⟩ := h.tree
    exact ⟨commit, hwithin hcommit, hwithin htree⟩
  files entry hentry hblob := by
    obtain ⟨content, hcontent⟩ := h.files entry hentry hblob
    exact ⟨content, hwithin hcontent⟩

theorem Repository.Whole.readable (h : Repository.Whole objects) {commit : Commit Oid}
    (hcommit : objects.find id = some (.commit commit)) : ∃ entries, Readable objects id entries := by
  obtain ⟨entries, htree⟩ := h.commits hcommit
  obtain ⟨-, hentries⟩ := h.trees htree
  exact ⟨entries, ⟨commit, hcommit, htree⟩, fun entry hentry => (hentries entry hentry).1⟩

/-- A reference has no commit, or names one that is readable. -/
structure Reads (r : Repository) (name : Text) (parent : Option Oid) (entries : List (Entry Oid)) :
    Prop where
  named : r.refs name = parent
  readable : ∀ {id}, parent = some id → Readable r.objects id entries
  unborn : parent = none → entries = []

theorem Repository.Sound.reads (h : r.Sound) (name : Text) : ∃ entries, Reads r name (r.refs name) entries := by
  cases hname : r.refs name with
  | none => exact ⟨[], hname, nofun, fun _ => rfl⟩
  | some id =>
    obtain ⟨commit, hcommit⟩ := h.refs hname
    obtain ⟨entries, hreadable⟩ := h.whole.readable hcommit
    refine ⟨entries, hname, fun heq => ?_, nofun⟩
    cases heq
    exact hreadable

theorem Reads.mono (h : Reads r name parent entries) (hwithin : r.objects.Within r'.objects)
    (hrefs : r'.refs name = r.refs name) : Reads r' name parent entries where
  named := hrefs.trans h.named
  readable heq := (h.readable heq).mono hwithin
  unborn := h.unborn

/-- The content of a file in a tree. -/
def contentOf (objects : ObjectStore (Gix.hash : Object Oid → Oid)) (entries : List (Entry Oid))
    (filename : Bytes) : Option Bytes :=
  match lookupEntry entries filename with
  | none => none
  | some entry => if entry.kind.isBlob then (objects.find entry.oid).map Object.content else none

theorem Readable.content_mono (h : Readable objects id entries) (hwithin : objects.Within objects')
    (filename : Bytes) : contentOf objects' entries filename = contentOf objects entries filename := by
  rw [contentOf, contentOf]
  cases hentry : lookupEntry entries filename with
  | none => rfl
  | some entry =>
    dsimp only
    split
    next hblob =>
      obtain ⟨content, hcontent⟩ := h.files entry (List.mem_of_find?_eq_some hentry) hblob
      rw [hcontent, hwithin hcontent]
    next => rfl

theorem Reads.content_mono (h : Reads r name parent entries) (hwithin : r.objects.Within objects')
    (filename : Bytes) : contentOf objects' entries filename = contentOf r.objects entries filename := by
  cases parent with
  | none =>
    rw [h.unborn rfl]
    rfl
  | some id => exact (h.readable rfl).content_mono hwithin filename

theorem Readable.treeOf (h : Readable r.objects id entries) (named : Text) :
    treeOf named id () r = (.ok entries, r) := by
  obtain ⟨commit, hcommit, htree⟩ := h.tree
  rw [Git.treeOf, hcommit]
  dsimp only
  rw [htree]

theorem Readable.entryContent (h : Readable r.objects id entries) (position : Position) :
    entryContent id position () r = (.ok (contentOf r.objects entries position.filename), r) := by
  apply Prog.bind_eq_ok.mpr ⟨entries, r, h.treeOf _, ?_⟩
  rw [contentOf]
  cases hentry : lookupEntry entries position.filename with
  | none => rfl
  | some entry =>
    dsimp only
    cases hblob : entry.kind.isBlob with
    | false => rfl
    | true =>
      obtain ⟨content, hcontent⟩ := h.files entry (List.mem_of_find?_eq_some hentry) hblob
      have hfound : findObject position entry.oid () r = (.ok (.blob content), r) := by
        rw [findObject, hcontent]
      rw [if_pos rfl, hcontent]
      exact Prog.bind_eq_ok.mpr ⟨_, r, hfound, rfl⟩

theorem Readable.peel (h : Readable r.objects id entries) : peel r id = some id := by
  obtain ⟨commit, hcommit, -⟩ := h.tree
  rw [Git.peel, hcommit]

theorem Reads.tip (h : Reads r position.reference parent entries)
    (hname : Gix.isName position.reference = true) : tip position () r = (.ok parent, r) := by
  rw [Git.tip, hname]
  cases parent with
  | none =>
    rw [h.named]
    rfl
  | some id =>
    rw [h.named]
    dsimp only
    rw [(h.readable rfl).peel]
    rfl

theorem Reads.contentUnder (h : Reads r position.reference parent entries) :
    contentUnder position parent () r =
      (.ok (contentOf r.objects entries position.filename), r) := by
  cases parent with
  | none =>
    rw [h.unborn rfl]
    rfl
  | some id => exact (h.readable rfl).entryContent position

theorem Reads.entriesUnder (h : Reads r position.reference parent entries) :
    entriesUnder position parent () r = (.ok entries, r) := by
  cases parent with
  | none =>
    rw [h.unborn rfl]
    rfl
  | some id => exact (h.readable rfl).treeOf position.scope

end Reads

section Writes

variable [Gix] [LawfulGix] {r : Repository} {position : Position} {parent : Option Oid}
  {entries : List (Entry Oid)} {content : Option Bytes} {filename : Bytes}

omit [LawfulGix] in
theorem mem_entriesWith {blob : Option Oid} {entry : Entry Oid} :
    entry ∈ entriesWith entries filename blob ↔ (entry ∈ entries ∧ entry.filename ≠ filename) ∨
      ∃ oid, blob = some oid ∧ entry = ⟨.blob, filename, oid⟩ := by
  rw [entriesWith, Sort.mem_sortBy, List.mem_append, List.mem_filter, Option.mem_toList,
    Option.map_eq_some_iff]
  apply or_congr
  · rw [decide_eq_true_iff]
  · apply exists_congr
    intro oid
    rw [eq_comm]
    exact and_congr_right fun _ => eq_comm

omit [LawfulGix] in
theorem lookup_entriesWith {blob : Option Oid} :
    lookupEntry (entriesWith entries filename blob) filename =
      blob.map fun oid => ⟨.blob, filename, oid⟩ := by
  cases hlookup : lookupEntry (entriesWith entries filename blob) filename with
  | none =>
    cases blob with
    | none => rfl
    | some oid =>
      have hmem : (⟨.blob, filename, oid⟩ : Entry Oid) ∈ entriesWith entries filename (some oid) :=
        mem_entriesWith.mpr (.inr ⟨oid, rfl, rfl⟩)
      have hnot := List.find?_eq_none.mp hlookup _ hmem
      exact absurd (decide_eq_true rfl) hnot
  | some entry =>
    have hname : entry.filename = filename := by
      have hfound := List.find?_some hlookup
      exact of_decide_eq_true hfound
    rcases mem_entriesWith.mp (List.mem_of_find?_eq_some hlookup) with ⟨-, hne⟩ | ⟨oid, rfl, rfl⟩
    · exact absurd hname hne
    · rfl

/-- The tree and the commit that a change of an entry writes. -/
def treeWith (entries : List (Entry Oid)) (filename : Bytes) (content : Option Bytes) :
    List (Entry Oid) :=
  entriesWith entries filename (content.map fun raw => Gix.hash (.blob raw))

def commitWith (position : Position) (parent : Option Oid) (entries : List (Entry Oid))
    (content : Option Bytes) : Commit Oid :=
  commitOn position parent (Gix.hash (.tree (treeWith entries position.filename content)))

theorem commitEntry_spec (h : Reads r position.reference parent entries) :
    ∃ objects, commitEntry parent position content () r =
      (.ok (Gix.hash (.commit (commitWith position parent entries content))), { r with objects }) ∧
        r.objects.Within objects ∧
          objects.find (Gix.hash (.commit (commitWith position parent entries content))) =
            some (.commit (commitWith position parent entries content)) ∧
          Readable objects (Gix.hash (.commit (commitWith position parent entries content)))
            (treeWith entries position.filename content) ∧
          contentOf objects (treeWith entries position.filename content) position.filename =
            content := by
  have hinj := LawfulGix.hash_injective
  have hblob : ∃ blobs, writeContent content () r =
      (.ok (content.map fun raw => Gix.hash (.blob raw)), { r with objects := blobs }) ∧
        r.objects.Within blobs ∧
          ∀ raw, content = some raw → blobs.find (Gix.hash (.blob raw)) = some (.blob raw) := by
    cases content with
    | none => exact ⟨r.objects, rfl, .refl _, nofun⟩
    | some raw =>
      refine ⟨r.objects.write (.blob raw), rfl, ObjectStore.within_write hinj, fun raw' heq => ?_⟩
      cases heq
      exact ObjectStore.find_write_self
  obtain ⟨blobs, hwrite, hwithin, hblob⟩ := hblob
  have htree : blobs.Within (blobs.write (.tree (treeWith entries position.filename content))) :=
    ObjectStore.within_write hinj
  have hcommit := @ObjectStore.within_write _ _ (Gix.hash : Object Oid → Oid) _
    (blobs.write (.tree (treeWith entries position.filename content)))
    (.commit (commitWith position parent entries content)) hinj
  have hall := (hwithin.trans htree).trans hcommit
  refine ⟨_, ?_, hall, ObjectStore.find_write_self, ⟨⟨_, ObjectStore.find_write_self,
    hcommit ObjectStore.find_write_self⟩, ?_⟩, ?_⟩
  · apply Prog.bind_eq_ok.mpr ⟨entries, r, h.entriesUnder, ?_⟩
    exact Prog.bind_eq_ok.mpr ⟨_, _, hwrite, rfl⟩
  · intro entry hentry hfile
    rcases mem_entriesWith.mp hentry with ⟨hkept, -⟩ | ⟨oid, hoid, rfl⟩
    · cases parent with
      | none =>
        rw [h.unborn rfl] at hkept
        exact absurd hkept List.not_mem_nil
      | some id => exact ((h.readable rfl).mono hall).files entry hkept hfile
    · obtain ⟨raw, hraw, rfl⟩ := Option.map_eq_some_iff.mp hoid
      exact ⟨raw, hcommit (htree (hblob raw hraw))⟩
  · have hlookup : lookupEntry (treeWith entries position.filename content) position.filename =
        (content.map fun raw => Gix.hash (.blob raw)).map fun oid => ⟨.blob, position.filename, oid⟩ :=
      lookup_entriesWith
    rw [contentOf, hlookup]
    cases content with
    | none => rfl
    | some raw =>
      have hfound := hcommit (htree (hblob raw rfl))
      dsimp only [Option.map_some]
      rw [hfound]
      rfl

end Writes

section Perform

variable [Gix] {r : Repository} {position : Position} {op : GitOp} {parent : Option Oid}
  {entries : List (Entry Oid)} {id : Oid} {text : Text}

/-- Where an operation leaves its branch. -/
def landing (objects : ObjectStore (Gix.hash : Object Oid → Oid)) (position : Position) (op : GitOp)
    (parent : Option Oid) (entries : List (Entry Oid)) : Option Oid :=
  if op.kind = kindContent then
    if contentOf objects entries position.filename = op.content then parent
    else some (Gix.hash (.commit (commitWith position parent entries op.content)))
  else (op.target.bind Gix.fromHex).or parent

theorem update_refs_self (h : r.refs position.reference = parent) :
    { r with refs := Function.update r.refs position.reference parent } = r := by
  rw [← h, Function.update_eq_self]

theorem moveBranch_ok (hname : Gix.isName position.reference = true)
    (h : r.refs position.reference = parent) : moveBranch position parent id () r =
      (.ok (), { r with refs := Function.update r.refs position.reference (some id) }) := by
  rw [moveBranch, hname, if_neg (not_not.mpr h)]
  rfl

theorem applyContent_settled (hname : Gix.isName position.reference = true)
    (h : Reads r position.reference parent entries)
    (hcontent : contentOf r.objects entries position.filename = op.content) :
    applyContent position op () r = (.ok (), r) := by
  rw [applyContent, Prog.bind_of_ok (h.tip hname), Prog.bind_of_ok h.contentUnder,
    if_pos hcontent]
  rfl

theorem applyContent_moves [LawfulGix] (hname : Gix.isName position.reference = true)
    (h : Reads r position.reference parent entries)
    (hcontent : contentOf r.objects entries position.filename ≠ op.content) :
    ∃ objects, applyContent position op () r = (.ok (), ⟨objects,
        Function.update r.refs position.reference
          (some (Gix.hash (.commit (commitWith position parent entries op.content))))⟩) ∧
      r.objects.Within objects ∧
        objects.find (Gix.hash (.commit (commitWith position parent entries op.content))) =
          some (.commit (commitWith position parent entries op.content)) ∧
        Readable objects (Gix.hash (.commit (commitWith position parent entries op.content)))
          (treeWith entries position.filename op.content) ∧
        contentOf objects (treeWith entries position.filename op.content) position.filename =
          op.content := by
  obtain ⟨objects, hcommit, hwithin, hfound, hreadable, hholds⟩ :=
    @commitEntry_spec _ _ r position parent entries op.content h
  refine ⟨objects, ?_, hwithin, hfound, hreadable, hholds⟩
  rw [applyContent, Prog.bind_of_ok (h.tip hname), Prog.bind_of_ok h.contentUnder,
    if_neg hcontent, Prog.bind_of_ok hcommit]
  exact moveBranch_ok hname h.named

theorem applyReset_refused (htarget : op.target = some text) (hid : Gix.fromHex text = none) :
    applyReset position op () r = (.error (.payloadUnreadable (.notAnId text)), r) := by
  have hobject : objectId text = .error (.payloadUnreadable (.notAnId text)) := by
    rw [objectId, hid]
  rw [applyReset, Prog.bind_of_ok (Prog.orThrow_eq_ok.mpr ⟨htarget, rfl⟩)]
  apply Prog.bind_of_error
  rw [answering, hobject]

theorem applyReset_moves (hname : Gix.isName position.reference = true)
    (h : Reads r position.reference parent entries) (htarget : op.target = some text)
    (hid : Gix.fromHex text = some id) : applyReset position op () r =
      (.ok (), { r with refs := Function.update r.refs position.reference (some id) }) := by
  have hobject : objectId text = .ok id := by
    rw [objectId, hid]
  have hanswer : answering (objectId text) () r = (.ok id, r) := by
    rw [answering, hobject]
  rw [applyReset, Prog.bind_of_ok (Prog.orThrow_eq_ok.mpr ⟨htarget, rfl⟩), Prog.bind_of_ok hanswer,
    Prog.bind_of_ok (h.tip hname)]
  by_cases hthere : parent = some id
  · rw [if_pos hthere, update_refs_self (h.named.trans hthere)]
    rfl
  · rw [if_neg hthere]
    exact moveBranch_ok hname h.named

variable [LawfulGix]

/-- What an operation does to a branch that is readable: it moves that branch and no other, and a
store only grows. -/
theorem perform_spec (hname : Gix.isName position.reference = true)
    (h : Reads r position.reference parent entries) (hformed : op.wellFormed = .ok ()) :
    (∃ e, perform position op () r = (.error e, r) ∧ landing r.objects position op parent entries = parent) ∨
      ∃ objects, perform position op () r = (.ok (), ⟨objects, Function.update r.refs
          position.reference (landing r.objects position op parent entries)⟩) ∧
        r.objects.Within objects := by
  have hkinds : kindReset ≠ kindContent := by decide
  rcases wellFormed_eq_ok hformed with ⟨hkind, -⟩ | ⟨hkind, -, text, htarget⟩
  · rw [perform, if_pos hkind, landing, if_pos hkind]
    by_cases hcontent : contentOf r.objects entries position.filename = op.content
    · rw [if_pos hcontent]
      refine .inr ⟨r.objects, ?_, .refl _⟩
      rw [applyContent_settled hname h hcontent, update_refs_self h.named]
    · rw [if_neg hcontent]
      obtain ⟨objects, hmoves, hwithin, -⟩ := applyContent_moves hname h hcontent
      exact .inr ⟨objects, hmoves, hwithin⟩
  · have hnot : op.kind ≠ kindContent := by
      rw [hkind]
      exact hkinds
    rw [perform, if_neg hnot, if_pos hkind, landing, if_neg hnot, htarget, Option.bind_some]
    cases hid : Gix.fromHex text with
    | none => exact .inl ⟨_, applyReset_refused htarget hid, rfl⟩
    | some id => exact .inr ⟨r.objects, applyReset_moves hname h htarget hid, .refl _⟩

end Perform

section Frame

variable [Gix] {position : Position} {op : GitOp} {name : Text} {r r' r'' : Repository}

/-- A store that grew, and references of which one may have moved. -/
structure Aside (name : Text) (r r' : Repository) : Prop where
  within : r.objects.Within r'.objects
  others : ∀ other, other ≠ name → r'.refs other = r.refs other

theorem Aside.refl (r : Repository) : Aside name r r := ⟨.refl _, fun _ _ => rfl⟩

theorem Aside.trans (h : Aside name r r') (h' : Aside name r' r'') : Aside name r r'' where
  within := h.within.trans h'.within
  others other hne := (h'.others other hne).trans (h.others other hne)

theorem aside_bind {α β : Type} {x : Io α} {f : α → Io β} (hx : Prog.Keeps (Aside name) x)
    (hf : ∀ a, Prog.Keeps (Aside name) (f a)) : Prog.Keeps (Aside name) (x >>= f) :=
  Prog.Keeps.bind (fun h h' => h.trans h') hx hf

theorem still_bind {α β : Type} {x : Io α} {f : α → Io β} (hx : ∀ w r, x.final w r = r)
    (hf : ∀ a, Prog.Keeps Eq (f a)) : Prog.Keeps Eq (x >>= f) :=
  Prog.Keeps.bind (fun h h' => h.trans h') (fun w r => (hx w r).symm) hf

theorem tip_keeps (position : Position) (w : Unit) (r : Repository) :
    (tip position).final w r = r := by
  rw [Prog.final, tip]
  split
  · rfl
  · split
    · rfl
    · split
      · rfl
      · rfl

theorem treeOf_keeps (named : Text) (id : Oid) (w : Unit) (r : Repository) :
    (treeOf named id).final w r = r := by
  rw [Prog.final, treeOf]
  split
  · rfl
  · split
    · rfl
    · rfl
  · rfl

theorem findObject_keeps (position : Position) (id : Oid) (w : Unit) (r : Repository) :
    (findObject position id).final w r = r := by
  rw [Prog.final, findObject]
  split
  · rfl
  · rfl

theorem entryContent_keeps (id : Oid) (position : Position) :
    Prog.Keeps Eq (entryContent id position) := by
  rw [entryContent]
  apply still_bind (treeOf_keeps position.locator id)
  intro entries
  split
  · exact fun _ _ => rfl
  · split
    · exact fun _ _ => rfl
    · exact still_bind (findObject_keeps position _) fun _ _ _ => rfl

theorem contentUnder_keeps (position : Position) (parent : Option Oid) :
    Prog.Keeps Eq (contentUnder position parent) := by
  cases parent with
  | none => exact fun _ _ => rfl
  | some id => exact entryContent_keeps id position

theorem observe_keeps [Host] (position : Position) : Prog.Keeps Eq (observe position) := by
  rw [observe]
  apply still_bind (tip_keeps position)
  intro parent
  exact still_bind (fun w r => (contentUnder_keeps position parent w r).symm) fun _ _ _ => rfl

variable [LawfulGix]

theorem commitEntry_aside (parent : Option Oid) (position : Position) (content : Option Bytes) :
    Prog.Keeps (Aside name) (commitEntry parent position content) := by
  have hinj := LawfulGix.hash_injective
  have hwrites : ∀ object, Prog.Keeps (Aside name) (writeObject object) :=
    fun object _ _ => ⟨ObjectStore.within_write hinj, fun _ _ => rfl⟩
  have hentries : Prog.Keeps (Aside name) (entriesUnder position parent) := by
    cases parent with
    | none => exact fun _ r => .refl r
    | some id => exact Prog.Keeps.still .refl (treeOf_keeps position.scope id)
  have hcontent : Prog.Keeps (Aside name) (writeContent content) := by
    cases content with
    | none => exact fun _ r => .refl r
    | some raw => exact aside_bind (hwrites _) fun _ _ r => .refl r
  rw [commitEntry]
  apply aside_bind hentries
  intro entries
  apply aside_bind hcontent
  intro blob
  exact aside_bind (hwrites _) fun _ => hwrites _

omit [LawfulGix] in
theorem moveBranch_aside (position : Position) (expected : Option Oid) (new : Oid) :
    Prog.Keeps (Aside position.reference) (moveBranch position expected new) := by
  intro w r
  rw [Prog.final, moveBranch]
  split
  · exact .refl r
  · split
    · exact .refl r
    · exact ⟨.refl _, fun other hne => Function.update_of_ne hne _ _⟩

/-- An operation moves no reference but that of its position, and a store only grows. -/
theorem perform_aside (position : Position) (op : GitOp) :
    Prog.Keeps (Aside position.reference) (perform position op) := by
  have htip : Prog.Keeps (Aside position.reference) (tip position) :=
    Prog.Keeps.still .refl (tip_keeps position)
  have hcontent : ∀ parent, Prog.Keeps (Aside position.reference) (contentUnder position parent) :=
    fun parent => Prog.Keeps.still .refl fun w r => (contentUnder_keeps position parent w r).symm
  rw [perform]
  split
  · rw [applyContent]
    apply aside_bind htip
    intro parent
    apply aside_bind (hcontent parent)
    intro current
    split
    · exact fun _ r => .refl r
    · exact aside_bind (commitEntry_aside parent position _) fun _ => moveBranch_aside position _ _
  · split
    · have htarget : Prog.Keeps (Aside position.reference)
          (Prog.orThrow op.target (.payloadUnreadable .noTarget) : Io Text) := by
        cases op.target with
        | none => exact fun _ r => .refl r
        | some text => exact fun _ r => .refl r
      rw [applyReset]
      apply aside_bind htarget
      intro text
      have hid : Prog.Keeps (Aside position.reference) (answering (objectId text) : Io Oid) :=
        fun _ r => .refl r
      apply aside_bind hid
      intro id
      apply aside_bind htip
      intro parent
      split
      · exact fun _ r => .refl r
      · exact moveBranch_aside position _ _
    · exact fun _ r => .refl r

end Frame

section Apply

variable [Gix] [Host] {t : Repositories} {r r' : Repository} {delta : PlannedDelta}
  {position : Position} {op : GitOp} {parent : Option Oid} {entries : List (Entry Oid)}

omit [Host] in
theorem perform_unnamed (hname : Gix.isName position.reference = false) :
    ∃ e, perform position op () r = (.error e, r) := by
  have htip : tip position () r = (.error (.unreadable position.scope .notAName), r) := by
    rw [tip, hname]
    rfl
  rw [perform]
  split
  · rw [applyContent, Prog.bind_of_error htip]
    exact ⟨_, rfl⟩
  · split
    · rw [applyReset]
      cases op.target with
      | none => exact ⟨_, rfl⟩
      | some text =>
        rw [Prog.bind_of_ok (Prog.orThrow_eq_ok.mpr ⟨rfl, rfl⟩)]
        cases hid : objectId text with
        | error e => exact ⟨e, rfl⟩
        | ok id =>
          have hanswer : answering (Except.ok id) () r = (.ok id, r) := rfl
          rw [Prog.bind_of_ok hanswer, Prog.bind_of_error htip]
          exact ⟨_, rfl⟩
    · exact ⟨_, rfl⟩

theorem Reads.observe (h : Reads r position.reference parent entries)
    (hname : Gix.isName position.reference = true) :
    ∃ digests, Git.observe position () r = (.ok digests, r) := by
  rw [Git.observe, Prog.bind_of_ok (h.tip hname), Prog.bind_of_ok h.contentUnder]
  exact ⟨_, rfl⟩

variable [Canon]

/-- What an application reports once its operation is performed. -/
def report (delta : PlannedDelta) (position : Position) : Io AppliedDelta := do
  let (digest, scopeDigest) ← observe position
  let postcondition ← answering (scopeFingerprint position scopeDigest)
  pure ⟨delta.reference, postcondition, digest, 0, none⟩

theorem report_keeps (delta : PlannedDelta) (position : Position) :
    Prog.Keeps Eq (report delta position) := by
  rw [report]
  apply still_bind fun w r => (observe_keeps position w r).symm
  intro digests
  exact still_bind (fun _ _ => rfl) fun _ _ _ => rfl

theorem Reads.report [LawfulHost] (h : Reads r position.reference parent entries)
    (hname : Gix.isName position.reference = true) :
    ∃ a, Git.report delta position () r = (.ok a, r) := by
  obtain ⟨digests, hdigests⟩ := h.observe hname
  have hanswer : answering (scopeFingerprint position digests.2) () r =
      (.ok ⟨.git, elideScope (String.ofList position.scope), digests.2, elideScope_bounded _⟩, r) := by
    rw [answering, scopeFingerprint, fingerprint_eq]
  rw [Git.report, Prog.bind_of_ok hdigests]
  dsimp only
  rw [Prog.bind_of_ok hanswer]
  exact ⟨_, rfl⟩

theorem apply_foreign {e : Error} (hop : operationOf delta = .error e) :
    apply delta () t = (.error e, t) := by
  apply Prog.bind_of_error
  rw [answering, hop]

theorem apply_unopened (hop : operationOf delta = .ok (position, op))
    (hr : t position.repository = none) :
    apply delta () t = (.error (.unreadable position.repository .notARepository), t) := by
  have hanswer : answering (operationOf delta) () t = (.ok (position, op), t) := by
    rw [answering, hop]
  rw [apply, Prog.bind_of_ok hanswer]
  simp only [inside, hr]

theorem apply_opened (hop : operationOf delta = .ok (position, op))
    (hr : t position.repository = some r) : apply delta () t =
      (((perform position op >>= fun _ => report delta position) () r).1, Function.update t
        position.repository (some ((perform position op >>= fun _ => report delta position) () r).2)) := by
  have hanswer : answering (operationOf delta) () t = (.ok (position, op), t) := by
    rw [answering, hop]
  rw [apply, Prog.bind_of_ok hanswer]
  simp only [inside, hr]
  rfl

theorem apply_refused {e : Error} (hop : operationOf delta = .ok (position, op))
    (hr : t position.repository = some r) (hperform : perform position op () r = (.error e, r)) :
    apply delta () t = (.error e, t) := by
  rw [apply_opened hop hr, Prog.bind_of_error hperform, ← hr, Function.update_eq_self]

theorem apply_performed (hop : operationOf delta = .ok (position, op))
    (hr : t position.repository = some r) (hperform : perform position op () r = (.ok (), r')) :
    apply delta () t = ((report delta position).answer () r',
      Function.update t position.repository (some r')) := by
  have hkeeps := report_keeps delta position () r'
  rw [apply_opened hop hr, Prog.bind_of_ok hperform, ← Prog.final, ← hkeeps]
  rfl

theorem apply_final (hop : operationOf delta = .ok (position, op))
    (hr : t position.repository = some r) : (apply delta).final () t =
      Function.update t position.repository (some ((perform position op).final () r)) := by
  rcases hperform : perform position op () r with ⟨answer, r'⟩
  cases answer with
  | ok =>
    rw [Prog.final, apply_performed hop hr hperform, Prog.final, hperform]
  | error e =>
    rw [Prog.final, apply_opened hop hr, Prog.bind_of_error hperform, Prog.final, hperform]

end Apply

section Repositories

variable [Gix] [LawfulGix] [Host] [Canon] {t t' : Repositories} {r : Repository}
  {delta : PlannedDelta} {position : Position} {op : GitOp} {entries : List (Entry Oid)}

/-- What a reference of a repository names. -/
def refAt (t : Repositories) (path name : Text) : Option Oid := (t path).bind fun r => r.refs name

/-- What an application may do to the repositories: stores grow, and the one reference of its
position may move. -/
structure Beside (position : Position) (t t' : Repositories) : Prop where
  unopened : ∀ {path}, t path = none → t' path = none
  opened : ∀ {path r}, t path = some r → ∃ r', t' path = some r' ∧ r.objects.Within r'.objects ∧
    ∀ name, (path = position.repository → name ≠ position.reference) → r'.refs name = r.refs name

omit [LawfulGix] [Host] [Canon] in
theorem Beside.refl (position : Position) (t : Repositories) : Beside position t t :=
  ⟨id, fun hr => ⟨_, hr, .refl _, fun _ _ => rfl⟩⟩

theorem apply_beside (hop : operationOf delta = .ok (position, op)) :
    Beside position t ((apply delta).final () t) := by
  cases hr : t position.repository with
  | none =>
    rw [Prog.final, apply_unopened hop hr]
    exact .refl position t
  | some r =>
    have haside := perform_aside position op () r
    rw [apply_final hop hr]
    constructor
    · intro path hpath
      have hne : path ≠ position.repository := by
        rintro rfl
        rw [hr] at hpath
        cases hpath
      rw [Function.update_of_ne hne]
      exact hpath
    · intro path r' hr'
      by_cases hpath : path = position.repository
      · subst hpath
        rw [hr] at hr'
        cases hr'
        exact ⟨_, Function.update_self _ _ _, haside.within, fun name hname =>
          haside.others name (hname rfl)⟩
      · rw [Function.update_of_ne hpath]
        exact ⟨r', hr', .refl _, fun _ _ => rfl⟩

omit [LawfulGix] [Host] [Canon] in
theorem Beside.refAt (h : Beside position t t') {path name : Text}
    (hother : path = position.repository → name ≠ position.reference) :
    refAt t' path name = refAt t path name := by
  cases hr : t path with
  | none => rw [Git.refAt, Git.refAt, hr, h.unopened hr]
  | some r =>
    obtain ⟨r', hr', -, hrefs⟩ := h.opened hr
    rw [Git.refAt, Git.refAt, hr, hr', Option.bind_some, Option.bind_some, hrefs name hother]

/-- Where an application leaves its own branch is settled by the branch and what it reaches: other
branches may have moved, and other objects may have been written. -/
theorem refAt_apply (hsound : ∀ r, t position.repository = some r → r.Sound) {other : Position}
    (hop : operationOf delta = .ok (position, op)) (h : Beside other t t')
    (hother : position.repository = other.repository → position.reference ≠ other.reference) :
    refAt ((apply delta).final () t') position.repository position.reference =
      refAt ((apply delta).final () t) position.repository position.reference := by
  cases hr : t position.repository with
  | none =>
    rw [Prog.final, Prog.final, apply_unopened hop hr, apply_unopened hop (h.unopened hr)]
    exact h.refAt hother
  | some r =>
    obtain ⟨r', hr', hwithin, hrefs⟩ := h.opened hr
    have hsame := hrefs position.reference hother
    rw [apply_final hop hr, apply_final hop hr', refAt, refAt, Function.update_self,
      Function.update_self, Option.bind_some, Option.bind_some]
    cases hname : Gix.isName position.reference with
    | false =>
      obtain ⟨e, hidle⟩ := @perform_unnamed _ r position op hname
      obtain ⟨e', hidle'⟩ := @perform_unnamed _ r' position op hname
      rw [Prog.final, Prog.final, hidle, hidle']
      exact hsame
    | true =>
      obtain ⟨entries, hreads⟩ := (hsound r hr).reads position.reference
      have hreads' : Reads r' position.reference (r.refs position.reference) entries :=
        hreads.mono hwithin hsame
      have hformed := (operationOf_eq_ok hop).1
      have hlanding : landing r'.objects position op (r.refs position.reference) entries =
          landing r.objects position op (r.refs position.reference) entries := by
        rw [landing, landing, hreads.content_mono hwithin]
      have hlands : ∀ {s : Repository}, Reads s position.reference (r.refs position.reference) entries →
          ((perform position op).final () s).refs position.reference =
            landing s.objects position op (r.refs position.reference) entries := by
        intro s hs
        rcases perform_spec hname hs hformed with ⟨e, hperform, hstays⟩ | ⟨objects, hperform, -⟩
        · rw [Prog.final, hperform, hstays, hs.named]
        · rw [Prog.final, hperform]
          exact Function.update_self _ _ _
      rw [hlands hreads, hlands hreads', hlanding]

end Repositories

section Settles

variable [Gix] [LawfulGix] {r : Repository} {position : Position} {op : GitOp}

/-- A reset names where the branch is, or a commit of the repository. -/
def LandsOnCommit (r : Repository) (position : Position) (op : GitOp) : Prop :=
  ∀ text id, op.target = some text → Gix.fromHex text = some id →
    r.refs position.reference = some id ∨ ∃ commit, r.objects.find id = some (.commit commit)

/-- A repository whose branch stands elsewhere. -/
def moved (r : Repository) (name : Text) (objects : ObjectStore (Gix.hash : Object Oid → Oid))
    (tip : Option Oid) : Repository := ⟨objects, Function.update r.refs name tip⟩

omit [LawfulGix] in
theorem reads_moved {name : Text} {objects : ObjectStore (Gix.hash : Object Oid → Oid)} {id : Oid}
    {entries : List (Entry Oid)} (h : Readable objects id entries) :
    Reads (moved r name objects (some id)) name (some id) entries := by
  refine ⟨Function.update_self _ _ _, fun heq => ?_, nofun⟩
  cases heq
  exact h

/-- An operation that lands on a commit leaves a branch that is readable, and does nothing to it when
it is performed again. -/
theorem perform_settles (hsound : r.Sound) (hname : Gix.isName position.reference = true)
    (hformed : op.wellFormed = .ok ()) (hlands : LandsOnCommit r position op) :
    (∃ e, perform position op () r = (.error e, r)) ∨ ∃ objects tip entries,
      perform position op () r = (.ok (), moved r position.reference objects tip) ∧
        perform position op () (moved r position.reference objects tip) =
          (.ok (), moved r position.reference objects tip) ∧
        r.objects.Within objects ∧
          Reads (moved r position.reference objects tip) position.reference tip entries := by
  obtain ⟨entries, hreads⟩ := hsound.reads position.reference
  have hself : moved r position.reference r.objects (r.refs position.reference) = r :=
    update_refs_self rfl
  rcases wellFormed_eq_ok hformed with ⟨hkind, -⟩ | ⟨hkind, -, text, htarget⟩
  · have hperform : perform position op = applyContent position op := if_pos hkind
    rw [hperform]
    by_cases hcontent : contentOf r.objects entries position.filename = op.content
    · have hsettled := applyContent_settled hname hreads hcontent
      refine .inr ⟨r.objects, r.refs position.reference, entries, ?_⟩
      rw [hself]
      exact ⟨hsettled, hsettled, .refl _, hreads⟩
    · obtain ⟨objects, hmoves, hwithin, -, hreadable, hholds⟩ :=
        applyContent_moves hname hreads hcontent
      have hreads' := @reads_moved _ r position.reference _ _ _ hreadable
      exact .inr ⟨objects, _, _, hmoves, applyContent_settled hname hreads' hholds, hwithin, hreads'⟩
  · have hnot : op.kind ≠ kindContent := by
      rw [hkind]
      decide
    have hperform : perform position op = applyReset position op := by
      rw [perform, if_neg hnot, if_pos hkind]
    rw [hperform]
    cases hid : Gix.fromHex text with
    | none => exact .inl ⟨_, applyReset_refused htarget hid⟩
    | some id =>
      have hreadable : ∃ entries', Readable r.objects id entries' := by
        rcases hlands text id htarget hid with hthere | ⟨commit, hcommit⟩
        · exact ⟨entries, hreads.readable hthere⟩
        · exact hsound.whole.readable hcommit
      obtain ⟨entries', hreadable⟩ := hreadable
      have hreads' := @reads_moved _ r position.reference _ _ _ hreadable
      refine .inr ⟨r.objects, some id, entries', applyReset_moves hname hreads htarget hid, ?_,
        .refl _, hreads'⟩
      rw [applyReset_moves hname hreads' htarget hid, moved]
      dsimp only
      rw [Function.update_idem]

variable [Host] [Canon] {delta : PlannedDelta}

omit [LawfulGix] in
/-- What reports of a branch that names no commit has followed a tag from it. -/
theorem tip_of_report {id : Oid} {a : AppliedDelta} {r' : Repository}
    (hrefs : r.refs position.reference = some id)
    (hnot : ∀ commit, r.objects.find id ≠ some (.commit commit))
    (h : report delta position () r = (.ok a, r')) :
    ∃ target, target ≠ id ∧ tip position () r = (.ok (some target), r) := by
  obtain ⟨digests, s, hobserve, -⟩ := Prog.bind_eq_ok.mp h
  obtain ⟨parent, s', htip, hrest⟩ := Prog.bind_eq_ok.mp hobserve
  obtain ⟨content, s'', hcontent, -⟩ := Prog.bind_eq_ok.mp hrest
  have hstill : s' = r := by
    have hkeeps := tip_keeps position () r
    rw [Prog.final, htip] at hkeeps
    exact hkeeps
  subst hstill
  have hparent : ∃ target, parent = some target := by
    rw [tip] at htip
    split at htip
    · cases htip
    · rw [hrefs] at htip
      dsimp only at htip
      split at htip
      · cases htip
      · cases htip
        exact ⟨_, rfl⟩
  obtain ⟨target, rfl⟩ := hparent
  refine ⟨target, ?_, htip⟩
  rintro rfl
  obtain ⟨entries, s₃, htree, -⟩ := Prog.bind_eq_ok.mp hcontent
  rw [treeOf] at htree
  split at htree
  · cases htree
  next commit hcommit => exact hnot commit hcommit
  · cases htree

end Settles

section Lawful

variable [Gix] [LawfulGix] [Host] [LawfulHost] [Canon] {t t' : Repositories} {d i : PlannedDelta}
  {position : Position} {op : GitOp} {r : Repository} {a : AppliedDelta} {id : Oid}

omit [LawfulGix] [Host] [LawfulHost] [Canon] in
theorem tip_named {r' : Repository} {parent : Option Oid}
    (h : tip position () r = (.ok parent, r')) : Gix.isName position.reference = true := by
  rw [tip] at h
  split at h
  · cases h
  next hname => simpa using hname

omit [Canon] in
theorem invert_inverted {pre : ObjectSnapshot} {reads : List ReadEntry}
    (h : invert d pre () t = (.ok (.inverted i reads), t')) :
    ∃ position op r id, operationOf d = .ok (position, op) ∧ t position.repository = some r ∧
      (tip position () r).1 = .ok (some id) ∧ Gix.isName position.reference = true ∧
        operationOf i = .ok (position, GitOp.reset position.locator (Gix.toHex id)) := by
  obtain ⟨⟨position, op⟩, s, hanswer, h⟩ := Prog.bind_eq_ok.mp h
  have hop : operationOf d = .ok (position, op) := (Prod.mk.inj hanswer).1
  dsimp only at h
  split at h
  · cases h
  · obtain ⟨answered, s₁, hinside, h⟩ := Prog.bind_eq_ok.mp h
    have hs : t = s := (Prod.mk.inj hanswer).2
    subst hs
    rw [inside] at hinside
    split at hinside
    next => cases hinside
    next r hr =>
      obtain ⟨htip, -⟩ := Prod.mk.inj hinside
      cases answered with
      | none => cases h
      | some id =>
        obtain ⟨payload, s₂, hwritten, h⟩ := Prog.bind_eq_ok.mp h
        cases h
        have hname : Gix.isName position.reference = true := tip_named (Prod.ext htip rfl)
        refine ⟨position, op, r, id, hop, hr, htip, hname,
          operationOf_encode (Prog.orThrow_eq_ok.mp hwritten).1 ?_⟩
        exact reset_position (operationOf_eq_ok hop).2 (LawfulGix.name_noDotDot _ hname)

theorem apply_settles (hsound : ∀ r, t position.repository = some r → r.Sound)
    (hop : operationOf d = .ok (position, op))
    (hlands : ∀ r, t position.repository = some r → Gix.isName position.reference = true →
      LandsOnCommit r position op) :
    (∃ e, apply d () t = (.error e, t)) ∨ ∃ r objects tip entries a,
      t position.repository = some r ∧ Gix.isName position.reference = true ∧
        r.objects.Within objects ∧
        Reads (moved r position.reference objects tip) position.reference tip entries ∧
        apply d () t = (.ok a, Function.update t position.repository
          (some (moved r position.reference objects tip))) ∧
        apply d () (Function.update t position.repository
          (some (moved r position.reference objects tip))) = (.ok a, Function.update t
            position.repository (some (moved r position.reference objects tip))) := by
  cases hr : t position.repository with
  | none => exact .inl ⟨_, apply_unopened hop hr⟩
  | some r =>
    cases hname : Gix.isName position.reference with
    | false =>
      obtain ⟨e, hidle⟩ := @perform_unnamed _ r position op hname
      exact .inl ⟨e, apply_refused hop hr hidle⟩
    | true =>
      rcases perform_settles (hsound r hr) hname (operationOf_eq_ok hop).1 (hlands r hr hname) with
        ⟨e, hidle⟩ | ⟨objects, tip, entries, hperform, hagain, hwithin, hreads⟩
      · exact .inl ⟨e, apply_refused hop hr hidle⟩
      · obtain ⟨a, hreport⟩ := @Reads.report _ _ _ d position tip entries _ _ hreads hname
        have hanswer : (report d position).answer () (moved r position.reference objects tip) = .ok a :=
          congrArg Prod.fst hreport
        refine .inr ⟨r, objects, tip, entries, a, rfl, rfl, hwithin, hreads, ?_, ?_⟩
        · rw [apply_performed hop hr hperform, hanswer]
        · rw [apply_performed hop (Function.update_self _ _ _) hagain, hanswer,
            Function.update_idem]

theorem apply_inverse (hsound : ∀ path r, t path = some r → r.Sound) {pre : ObjectSnapshot}
    {reads : List ReadEntry}
    (hlands : ∀ position op r, operationOf d = .ok (position, op) → t position.repository = some r →
      Gix.isName position.reference = true → LandsOnCommit r position op)
    (hinvert : (invert d pre).answer () t = .ok (.inverted i reads))
    (happly : apply d () t = (.ok a, t')) :
    ∃ a' t'', apply i () t' = (.ok a', t'') ∧ ∀ path name, refAt t'' path name = refAt t path name := by
  obtain ⟨position, op, r, id, hop, hr, htip, hname, hi⟩ := invert_inverted (Prod.ext hinvert rfl)
  obtain ⟨entries, hreads⟩ := (hsound _ r hr).reads position.reference
  have hid : r.refs position.reference = some id := by
    have hsame := (congrArg Prod.fst (hreads.tip hname)).symm.trans htip
    exact Except.ok.inj hsame
  rw [hid] at hreads
  rcases apply_settles (hsound position.repository) hop (fun r hr => hlands position op r hop hr) with
    ⟨e, hidle⟩ | ⟨r', objects, tip, entries', a', hr', -, hwithin, hreads', hdone, -⟩
  · rw [hidle] at happly
    cases happly
  · rw [hr] at hr'
    cases hr'
    rw [hdone] at happly
    cases happly
    have hback := @applyReset_moves _ _ position (GitOp.reset position.locator (Gix.toHex id)) _ _ id
      (Gix.toHex id) hname hreads' rfl (LawfulGix.fromHex_toHex id)
    have hperform : perform position (GitOp.reset position.locator (Gix.toHex id)) =
        applyReset position (GitOp.reset position.locator (Gix.toHex id)) := rfl
    rw [← hperform] at hback
    have hrefs : Function.update (moved r position.reference objects tip).refs position.reference
        (some id) = r.refs := by
      rw [moved, Function.update_idem, ← hid, Function.update_eq_self]
    rw [hrefs] at hback
    have hback : perform position (GitOp.reset position.locator (Gix.toHex id)) ()
        (moved r position.reference objects tip) = (.ok (), ⟨objects, r.refs⟩) := hback
    have hrestored : Reads (⟨objects, r.refs⟩ : Repository) position.reference (some id) entries :=
      hreads.mono hwithin rfl
    obtain ⟨a'', hreport⟩ := @Reads.report _ _ _ i position _ _ _ _ hrestored hname
    have happly := @apply_performed _ _ (Function.update t position.repository
      (some (moved r position.reference objects tip))) _ _ i position _ _ hi
      (Function.update_self _ _ _) hback
    have hanswer : (report i position).answer () (⟨objects, r.refs⟩ : Repository) = .ok a'' :=
      congrArg Prod.fst hreport
    rw [hanswer, Function.update_idem] at happly
    refine ⟨a'', _, happly, fun path name => ?_⟩
    · rw [refAt, refAt]
      by_cases hpath : path = position.repository
      · rw [hpath, Function.update_self, hr]
        rfl
      · rw [Function.update_of_ne hpath]

omit [Gix] [LawfulGix] [LawfulHost] in
theorem commutation_commutes {e : PlannedDelta} (h : commutation d e = .ok .commutes) :
    ∃ left right, operationOf d = .ok left ∧ operationOf e = .ok right ∧
      left.1.scope ≠ right.1.scope := by
  simp only [commutation, bind, Except.bind] at h
  split at h
  · cases h
  next left hleft =>
    split at h
    · cases h
    next right hright =>
      split at h
      next hne => exact ⟨left, right, hleft, hright, hne⟩
      next =>
        split at h
        · cases h
        · cases h

omit [LawfulHost] in
theorem apply_comm (hsound : ∀ path r, t path = some r → r.Sound) {e : PlannedDelta}
    (h : commutation d e = .ok .commutes) (path name : Text) :
    refAt ((apply e).final () ((apply d).final () t)) path name =
      refAt ((apply d).final () ((apply e).final () t)) path name := by
  obtain ⟨⟨left, op⟩, ⟨right, op'⟩, hd, he, hscope⟩ := commutation_commutes h
  have hother : left.repository = right.repository → left.reference ≠ right.reference := by
    intro hrepository hreference
    apply hscope
    rw [Position.scope, Position.scope, hrepository, hreference]
  have hother' : right.repository = left.repository → right.reference ≠ left.reference :=
    fun hrepository hreference => hother hrepository.symm hreference.symm
  have hbeside := apply_beside (t := t) hd
  have hbeside' := apply_beside (t := t) he
  have hafter := apply_beside (t := (apply d).final () t) he
  have hafter' := apply_beside (t := (apply e).final () t) hd
  by_cases hleft : path = left.repository ∧ name = left.reference
  · obtain ⟨rfl, rfl⟩ := hleft
    rw [hafter.refAt hother, refAt_apply (hsound left.repository) hd hbeside' hother]
  · have hoff : path = left.repository → name ≠ left.reference := fun hp hn => hleft ⟨hp, hn⟩
    rw [hafter'.refAt hoff]
    by_cases hright : path = right.repository ∧ name = right.reference
    · obtain ⟨rfl, rfl⟩ := hright
      exact refAt_apply (hsound right.repository) he hbeside hother'
    · have hoff' : path = right.repository → name ≠ right.reference := fun hp hn => hright ⟨hp, hn⟩
      rw [hafter.refAt hoff', hbeside'.refAt hoff', hbeside.refAt hoff]

/-- What a delta does to the repositories is lawful when a second application changes nothing and
answers the same, an inverse puts every reference back, a failure moves none, none but that of the
position is moved, and what commutes with it leaves every reference the same in either order. -/
structure Lawful (t : Repositories) (d : PlannedDelta) : Prop where
  twice : ∀ {a t'}, apply d () t = (.ok a, t') → apply d () t' = (.ok a, t')
  undone : ∀ {pre i reads a t'}, (invert d pre).answer () t = .ok (.inverted i reads) →
    apply d () t = (.ok a, t') → ∃ a' t'', apply i () t' = (.ok a', t'') ∧
      ∀ path name, refAt t'' path name = refAt t path name
  failed : ∀ {e t'}, apply d () t = (.error e, t') → ∀ path name, refAt t' path name = refAt t path name
  frame : ∀ {position op}, operationOf d = .ok (position, op) → ∀ path name,
    (path = position.repository → name ≠ position.reference) →
      refAt ((apply d).final () t) path name = refAt t path name
  commutes : ∀ {e}, commutation d e = .ok .commutes → ∀ path name,
    refAt ((apply e).final () ((apply d).final () t)) path name =
      refAt ((apply d).final () ((apply e).final () t)) path name

omit [LawfulGix] [LawfulHost] in
/-- A lawful reset to where the branch is not is one to a commit: any other would be reported as a
failure after it moved the branch, or be refused when it is applied again. -/
theorem lands_of_lawful [LawfulGix] (hlawful : Lawful t d) (hsound : r.Sound)
    (hop : operationOf d = .ok (position, op)) (hr : t position.repository = some r)
    (hname : Gix.isName position.reference = true) {text : Text} (htarget : op.target = some text)
    (hid : Gix.fromHex text = some id) (hthere : r.refs position.reference ≠ some id) :
    ∃ commit, r.objects.find id = some (.commit commit) := by
  by_contra hcommit
  have hnot : ∀ commit, (moved r position.reference r.objects (some id)).objects.find id ≠
      some (.commit commit) := fun commit hfound => hcommit ⟨commit, hfound⟩
  obtain ⟨entries, hreads⟩ := hsound.reads position.reference
  have hreset : perform position op = applyReset position op := by
    rcases wellFormed_eq_ok (operationOf_eq_ok hop).1 with ⟨-, hnone⟩ | ⟨hkind, -⟩
    · rw [hnone] at htarget
      cases htarget
    · have hne : op.kind ≠ kindContent := by
        rw [hkind]
        decide
      rw [perform, if_neg hne, if_pos hkind]
  have hperform : perform position op () r =
      (.ok (), moved r position.reference r.objects (some id)) := by
    rw [hreset]
    exact applyReset_moves hname hreads htarget hid
  have hnew : (moved r position.reference r.objects (some id)).refs position.reference = some id :=
    Function.update_self _ _ _
  have happly := apply_performed hop hr hperform
  cases hreport : (report d position).answer () (moved r position.reference r.objects (some id)) with
  | error e =>
    rw [hreport] at happly
    have hmoved := hlawful.failed happly position.repository position.reference
    rw [refAt, refAt, Function.update_self, hr, Option.bind_some, Option.bind_some, hnew] at hmoved
    exact hthere hmoved.symm
  | ok a =>
    rw [hreport] at happly
    have hagain := hlawful.twice happly
    obtain ⟨target, hne, htip⟩ := tip_of_report hnew hnot (Prod.ext hreport rfl)
    have hrefused : perform position op () (moved r position.reference r.objects (some id)) =
        (.error (.applyFailed position.scope .moved), moved r position.reference r.objects (some id)) := by
      have hobject : answering (objectId text) () (moved r position.reference r.objects (some id)) =
          (.ok id, moved r position.reference r.objects (some id)) := by
        rw [answering, objectId, hid]
      rw [hreset, applyReset, Prog.bind_of_ok (Prog.orThrow_eq_ok.mpr ⟨htarget, rfl⟩),
        Prog.bind_of_ok hobject, Prog.bind_of_ok htip, if_neg (fun heq => hne (Option.some.inj heq)),
        moveBranch, hname, hnew, if_pos (fun heq => hne (Option.some.inj heq).symm)]
      rfl
    rw [apply_refused hop (Function.update_self _ _ _) hrefused] at hagain
    cases hagain

end Lawful

/-- On sound repositories a delta is lawful exactly where it resets no reference to what is neither
the tip nor a commit of the repository. -/
theorem lawful_iff_lands_on_commit [Gix] [LawfulGix] [Host] [LawfulHost] [Canon] (t : Repositories)
    (hsound : ∀ path r, t path = some r → r.Sound) (d : PlannedDelta) :
    Lawful t d ↔ ∀ position op r, operationOf d = .ok (position, op) →
      t position.repository = some r → Gix.isName position.reference = true →
        LandsOnCommit r position op := by
  constructor
  · intro hlawful position op r hop hr hname text id htarget hid
    by_contra hnot
    obtain ⟨hthere, hcommit⟩ := not_or.mp hnot
    exact hcommit (lands_of_lawful hlawful (hsound _ r hr) hop hr hname htarget hid hthere)
  · intro hlands
    have hcases : ∀ {position op}, operationOf d = .ok (position, op) → _ :=
      fun {position op} hop => apply_settles (hsound position.repository) hop
        (fun r hr => hlands position op r hop hr)
    constructor
    · intro a t' happly
      cases hop : operationOf d with
      | error e =>
        rw [apply_foreign hop] at happly
        cases happly
      | ok found =>
        rcases hcases hop with ⟨e, hidle⟩ | ⟨r, objects, tip, entries, a', -, -, -, -, hdone, hagain⟩
        · rw [hidle] at happly
          cases happly
        · rw [hdone] at happly
          cases happly
          exact hagain
    · exact fun hinvert happly => apply_inverse hsound hlands hinvert happly
    · intro e t' happly path name
      cases hop : operationOf d with
      | error e =>
        rw [apply_foreign hop] at happly
        cases happly
        rfl
      | ok found =>
        rcases hcases hop with ⟨e, hidle⟩ | ⟨r, objects, tip, entries, a', -, -, -, -, hdone, -⟩
        · rw [hidle] at happly
          cases happly
          rfl
        · rw [hdone] at happly
          cases happly
    · exact fun hop path name hother => (apply_beside hop).refAt hother
    · exact fun h path name => apply_comm hsound h path name

/-- An operation by itself. -/
def single (op : GitOp) : PlannedDelta := ⟨.git, (encode [op]).getD [], none⟩

open Ideal in
theorem operationOf_single {op : GitOp} {payload : Bytes} {position : Position}
    (h : encode [op] = some payload) (hposition : op.position = .ok position) :
    operationOf (single op) = .ok (position, op) := by
  rw [single, h]
  exact operationOf_encode h hposition

section Content

variable [Gix] [LawfulGix] [Host] [LawfulHost] [Canon] {r : Repository} {position : Position}
  {op : GitOp} {t : Repositories} {d : PlannedDelta}

theorem content_applies (hsound : r.Sound) (hname : Gix.isName position.reference = true)
    (hop : operationOf d = .ok (position, op)) (hkind : op.kind = kindContent)
    (hr : t position.repository = some r) :
    ∃ a r', perform position op () r = (.ok (), r') ∧
      apply d () t = (.ok a, Function.update t position.repository (some r')) := by
  obtain ⟨entries, hreads⟩ := hsound.reads position.reference
  have hcontents : perform position op = applyContent position op := if_pos hkind
  have hperform : ∃ r' parent entries', perform position op () r = (.ok (), r') ∧
      Reads r' position.reference parent entries' := by
    rw [hcontents]
    by_cases hcontent : contentOf r.objects entries position.filename = op.content
    · exact ⟨r, _, entries, applyContent_settled hname hreads hcontent, hreads⟩
    · obtain ⟨objects, hmoves, -, -, hreadable, -⟩ := applyContent_moves hname hreads hcontent
      exact ⟨_, _, _, hmoves, reads_moved hreadable⟩
  obtain ⟨r', parent, entries', hperform, hreads'⟩ := hperform
  obtain ⟨a, hreport⟩ := @Reads.report _ _ _ d position parent entries' _ _ hreads' hname
  have hanswer : (report d position).answer () r' = .ok a := congrArg Prod.fst hreport
  refine ⟨a, r', hperform, ?_⟩
  rw [apply_performed hop hr hperform, hanswer]

end Content

/-- The file of a branch, and what is written over it. -/
def place : Position := ⟨"/r".toList, "refs/heads/main".toList, "a".toList⟩

def overwrite : GitOp := .write "/r#main:a".toList [2]

open Ideal in
theorem operationOf_overwrite : operationOf (single overwrite) = .ok (place, overwrite) :=
  operationOf_single rfl (by decide)

open Ideal in
theorem overwrite_applies {kind : EntryKind} (hkind : kind ≠ .tree) :
    ∃ a r', perform place overwrite () (oneFile kind [1]) = (.ok (), r') ∧
      apply (single overwrite) () (repositories (oneFile kind [1])) =
        (.ok a, Function.update (repositories (oneFile kind [1])) place.repository (some r')) :=
  content_applies (oneFile_sound hkind) (by decide) operationOf_overwrite rfl (if_pos rfl)

open Ideal in
theorem lawful_iff_lands_on_commit_written :
    (∃ a t', apply (single overwrite) () (repositories (oneFile .blob [1])) = (.ok a, t')) ∧
      Lawful (repositories (oneFile .blob [1])) (single overwrite) := by
  obtain ⟨a, r', -, happly⟩ := @overwrite_applies .blob (by decide)
  refine ⟨⟨a, _, happly⟩, ?_⟩
  apply (lawful_iff_lands_on_commit (repositories (oneFile .blob [1]))
    (repositories_sound (oneFile_sound (by decide))) _).mpr
  intro position op r hop _ _ text id htarget
  rw [operationOf_overwrite] at hop
  cases hop
  cases htarget

open Ideal in
/-- A reset of a branch to what the repository does not hold moves the branch, and fails. -/
theorem failed_reset_moves_its_branch :
    ¬ Lawful (repositories unborn) (single (.reset "/r#main:a".toList (Gix.toHex []))) := by
  intro hlawful
  have hop : operationOf (single (.reset "/r#main:a".toList (Gix.toHex []))) =
      .ok (⟨"/r".toList, "refs/heads/main".toList, "a".toList⟩,
        .reset "/r#main:a".toList (Gix.toHex [])) :=
    operationOf_single rfl (by decide)
  obtain ⟨commit, hcommit⟩ := lands_of_lawful hlawful unborn_sound hop rfl (by decide) rfl
    (LawfulGix.fromHex_toHex []) nofun
  cases hcommit

end Tracefold.Git
