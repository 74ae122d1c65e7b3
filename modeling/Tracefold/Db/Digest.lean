import Tracefold.Cbor.Value
import Tracefold.Library.Separated
import Tracefold.Library.Text
import Tracefold.Locator

/-! The digest of the source of an index, over one stream of all the files of the source. -/

namespace Tracefold.Db

open Library Locator
open DagCbor (utf8)

/-- The two manifests that a source is declared by: what `load_db` and `load_band` read out of the
bytes, the bands in order and the paths of a band's documents in order; and SHA-256. -/
class Manifests where
  loadDb : Bytes → Option (List Text)
  loadBand : Text → Bytes → Option (List Text)
  sha256Hex : Bytes → Text

/-- A TOML document holds no NUL, a root manifest names no band twice, and no two byte strings have
one digest. -/
class LawfulManifests [Manifests] : Prop where
  db_noNul : ∀ {bytes order}, Manifests.loadDb bytes = some order → 0 ∉ bytes
  band_noNul : ∀ {id bytes paths}, Manifests.loadBand id bytes = some paths → 0 ∉ bytes
  db_distinct : ∀ {bytes order}, Manifests.loadDb bytes = some order → order.Nodup
  sha256Hex_injective : Function.Injective Manifests.sha256Hex

/-- What `fs::read` finds of a band: its `band.toml` and its declared documents. -/
structure BandFiles where
  id : Text
  contract : Option Bytes
  documents : List (Text × Option Bytes)

inductive DigestError where
  | rootUnreadable
  | bandNotLoaded (id : Text)
  | contractUnreadable (id : Text)
  | documentUnreadable (id path : Text)

def label (name : String) : Bytes := utf8 name ++ [0]

def bandLabel (id : Text) : Bytes := label "band" ++ utf8 (String.ofList id) ++ [0]

def documentLabel (id path : Text) : Bytes :=
  label "doc" ++ utf8 (String.ofList id) ++ utf8 "/" ++ utf8 (String.ofList path) ++ [0]

section Digest

def documentsMaterial (id : Text) : List (Text × Option Bytes) → Except DigestError Bytes
  | [] => .ok []
  | (path, content) :: documents =>
    match content with
    | none => .error (.documentUnreadable id path)
    | some bytes => do
      let rest ← documentsMaterial id documents
      .ok (documentLabel id path ++ (bytes ++ 0 :: rest))

def bandsMaterial (bands : List BandFiles) : List Text → Except DigestError Bytes
  | [] => .ok []
  | id :: order =>
    match bands.find? fun band => band.id = id with
    | none => .error (.bandNotLoaded id)
    | some band =>
      match band.contract with
      | none => .error (.contractUnreadable id)
      | some bytes => do
        let documents ← documentsMaterial band.id band.documents
        let rest ← bandsMaterial bands order
        .ok (bandLabel band.id ++ (bytes ++ 0 :: (documents ++ rest)))

def journalMaterial (journal : Option Bytes) : Bytes :=
  label "journal" ++ (journal.getD [] ++ [0])

variable [Manifests]

def sourceDigest (root : Option Bytes) (order : List Text) (bands : List BandFiles)
    (journal : Option Bytes) : Except DigestError Text :=
  match root with
  | none => .error .rootUnreadable
  | some bytes => do
    let rest ← bandsMaterial bands order
    .ok (Manifests.sha256Hex
      (label "db.toml" ++ (bytes ++ 0 :: (rest ++ journalMaterial journal))))

inductive Freshness where
  | fresh
  | stale (stored recomputed : Text)
  | unknown (why : Option DigestError)

/-- The rows of an index that say what it was built from. -/
structure Meta where
  sourceDigest : Option Text
  sourceStamp : Option Text

def compareDigest (digest : Except DigestError Text) (index : Meta) : Freshness :=
  match digest with
  | .error why => .unknown (some why)
  | .ok recomputed =>
    match index.sourceDigest with
    | some stored => if stored = recomputed then .fresh else .stale stored recomputed
    | none => .unknown none

/-- `freshness`, from the stamp and the digest of the source as it is now. -/
def freshness (stamp digest : Except DigestError Text) (index : Meta) (strict : Bool) : Freshness :=
  if strict then compareDigest digest index
  else
    match stamp with
    | .error why => .unknown (some why)
    | .ok now => if index.sourceStamp = some now then .fresh else compareDigest digest index

end Digest

/-- A band that loads. -/
structure SourceBand where
  id : Text
  contract : Bytes
  documents : List (Text × Bytes)
  deriving DecidableEq

section Source

variable [Manifests]

def SourceBand.Loads (band : SourceBand) : Prop :=
  Manifests.loadBand band.id band.contract = some (band.documents.map Prod.fst)

/-- A source that loads; there may be no journal yet. -/
structure DbSource where
  root : Bytes
  bands : List SourceBand
  journal : Option Bytes
  rootLoads : Manifests.loadDb root = some (bands.map SourceBand.id)
  bandsLoad : ∀ band ∈ bands, band.Loads

def SourceBand.files (band : SourceBand) : BandFiles :=
  ⟨band.id, some band.contract, band.documents.map fun document => (document.1, some document.2)⟩

/-- The digest of the files of a source. -/
def DbSource.digest (source : DbSource) : Except DigestError Text :=
  sourceDigest (some source.root) (source.bands.map SourceBand.id)
    (source.bands.map SourceBand.files) source.journal

/-- All files are the same, byte for byte; no journal has no bytes. -/
structure Same (a b : DbSource) : Prop where
  root : a.root = b.root
  bands : a.bands = b.bands
  journal : a.journal.getD [] = b.journal.getD []

/-- The digest tells a source from all others, and so does the strict check of an index that was
built from it. -/
structure Exact (source : DbSource) : Prop where
  digest : ∀ other : DbSource, source.digest = other.digest ↔ Same source other
  freshness : ∀ (other : DbSource) (stamp : Except DigestError Text) (stored : Text)
    (builtStamp : Option Text), source.digest = .ok stored →
      (freshness stamp other.digest ⟨some stored, builtStamp⟩ true = .fresh ↔ Same source other)

def bandContent (band : SourceBand) : Bytes :=
  band.contract ++ 0 :: band.documents.flatMap fun document =>
    documentLabel band.id document.1 ++ (document.2 ++ [0])

def bandStream (band : SourceBand) : Bytes := bandLabel band.id ++ bandContent band

/-- The bands from some band on, and the journal. -/
def restStream (bands : List SourceBand) (journal : Bytes) : Bytes :=
  bands.flatMap bandStream ++ (label "journal" ++ (journal ++ [0]))

/-- Bytes that read as the content of one band, the other bands and a journal. -/
def Reads (id : Text) (order : List Text) (bytes : Bytes) : Prop :=
  ∃ (band : SourceBand) (bands : List SourceBand) (journal : Bytes), band.id = id ∧
    bands.map SourceBand.id = order ∧ band.Loads ∧ (∀ other ∈ bands, other.Loads) ∧
    bytes = bandContent band ++ restStream bands journal

/-- No document or journal holds bytes that can be taken for a separator. -/
structure Legible (bands : List SourceBand) (journal : Bytes) : Prop where
  inBand : ∀ before band after front p x q y back, bands = before ++ band :: after →
    band.documents = front ++ (p, x) :: (q, y) :: back → Clear (0 :: documentLabel band.id q) x y
  atEnd : ∀ before band front p x, bands = before ++ [band] →
    band.documents = front ++ [(p, x)] → Clear (0 :: label "journal") x journal
  afterBand : ∀ before band next after front p x, bands = before ++ band :: next :: after →
    band.documents = front ++ [(p, x)] → ∀ other rest,
      x ++ 0 :: (bandLabel next.id ++ (bandContent next ++ restStream after journal)) =
        other ++ 0 :: (bandLabel next.id ++ rest) →
      Reads next.id (after.map SourceBand.id) rest → other = x

end Source

section Material

theorem documentsMaterial_eq (id : Text) (documents : List (Text × Bytes)) :
    documentsMaterial id (documents.map fun document => (document.1, some document.2)) =
      .ok (documents.flatMap fun document =>
        documentLabel id document.1 ++ (document.2 ++ [0])) := by
  induction documents with
  | nil => rfl
  | cons document documents ih =>
    rw [List.map_cons, documentsMaterial, ih, List.flatMap_cons]
    simp only [List.append_assoc, List.singleton_append]
    rfl

theorem find_files {bands : List SourceBand} (hdistinct : (bands.map SourceBand.id).Nodup)
    {band : SourceBand} (h : band ∈ bands) :
    (bands.map SourceBand.files).find? (fun other => other.id = band.id) = some band.files := by
  induction bands with
  | nil => cases h
  | cons other bands ih =>
    rw [List.map_cons, List.nodup_cons] at hdistinct
    rw [List.map_cons]
    obtain rfl | h := List.mem_cons.mp h
    · exact List.find?_cons_of_pos (by simp [SourceBand.files])
    · rw [List.find?_cons_of_neg, ih hdistinct.2 h]
      rw [decide_eq_true_eq]
      intro heq
      apply hdistinct.1
      change other.id = band.id at heq
      rw [heq]
      exact List.mem_map_of_mem h

theorem bandsMaterial_eq {all : List SourceBand} (hdistinct : (all.map SourceBand.id).Nodup)
    {bands : List SourceBand} (h : ∀ band ∈ bands, band ∈ all) :
    bandsMaterial (all.map SourceBand.files) (bands.map SourceBand.id) =
      .ok (bands.flatMap bandStream) := by
  induction bands with
  | nil => rfl
  | cons band bands ih =>
    rw [List.map_cons, bandsMaterial, find_files hdistinct (h band List.mem_cons_self)]
    dsimp only [SourceBand.files]
    rw [documentsMaterial_eq, ih fun other hother => h other (List.mem_cons_of_mem _ hother)]
    simp only [List.flatMap_cons, bandStream, bandContent, List.append_assoc, List.cons_append]
    rfl

variable [Manifests]

def DbSource.stream (source : DbSource) : Bytes :=
  label "db.toml" ++ (source.root ++ 0 :: restStream source.bands (source.journal.getD []))

variable [LawfulManifests]

theorem digest_eq (source : DbSource) :
    source.digest = .ok (Manifests.sha256Hex source.stream) := by
  rw [DbSource.digest, sourceDigest,
    bandsMaterial_eq (LawfulManifests.db_distinct source.rootLoads) fun _ h => h]
  rfl

theorem digest_eq_iff {a b : DbSource} : a.digest = b.digest ↔ a.stream = b.stream := by
  rw [digest_eq, digest_eq, Except.ok.injEq]
  exact LawfulManifests.sha256Hex_injective.eq_iff

omit [Manifests] [LawfulManifests] in
theorem cut_nul {a a' b b' : Bytes} (ha : 0 ∉ a) (ha' : 0 ∉ a') (h : a ++ 0 :: b = a' ++ 0 :: b') :
    a = a' ∧ b = b' := by
  have hcut := Library.Text.splitOnce_append (b := b) ha
  rw [h, Library.Text.splitOnce_append ha', Option.some.injEq, Prod.mk.injEq] at hcut
  exact ⟨hcut.1.symm, hcut.2.symm⟩

end Material

section Unique

theorem restStream_cons (band : SourceBand) (bands : List SourceBand) (journal : Bytes) :
    restStream (band :: bands) journal =
      bandLabel band.id ++ (bandContent band ++ restStream bands journal) := by
  rw [restStream, List.flatMap_cons, bandStream, restStream]
  simp only [List.append_assoc]

/-- The documents of a band as contents with a separator before each but the first. -/
def separators (id : Text) (documents : List (Text × Bytes)) : List (Bytes × Bytes) :=
  documents.map fun document => (0 :: documentLabel id document.1, document.2)

theorem separated_documents (id : Text) (x : Bytes) (documents : List (Text × Bytes))
    (tail : Bytes) : x ++ 0 :: (documents.flatMap (fun document =>
      documentLabel id document.1 ++ (document.2 ++ [0])) ++ tail) =
        separated x (separators id documents) (0 :: tail) := by
  induction documents generalizing x with
  | nil => rfl
  | cons document documents ih =>
    rw [separators, List.map_cons, separated, ← separators, ← ih, List.flatMap_cons]
    simp only [List.append_assoc, List.cons_append, List.nil_append]

theorem eq_of_separators {id : Text} {documents documents' : List (Text × Bytes)}
    (hpaths : documents.map Prod.fst = documents'.map Prod.fst)
    (h : separators id documents = separators id documents') : documents = documents' := by
  induction documents generalizing documents' with
  | nil => exact (List.map_eq_nil_iff.mp hpaths.symm).symm
  | cons document documents ih =>
    obtain ⟨document', documents', rfl, hpath, hmore⟩ := List.map_eq_cons_iff.mp hpaths.symm
    obtain ⟨hhead, htail⟩ := List.cons.inj h
    rw [ih hmore.symm htail, Prod.ext hpath.symm (Prod.mk.inj hhead).2]

theorem last_document (id p : Text) (x : Bytes) (documents : List (Text × Bytes)) :
    ∃ front q, (p, x) :: documents = front ++ [(q, lastContent x (separators id documents))] := by
  induction documents generalizing p x with
  | nil => exact ⟨[], p, rfl⟩
  | cons document documents ih =>
    obtain ⟨front, q, h⟩ := ih document.1 document.2
    exact ⟨(p, x) :: front, q, congrArg ((p, x) :: ·) h⟩

theorem allClear_documents {id p : Text} {x : Bytes} {documents : List (Text × Bytes)}
    (h : ∀ front p' x' q y back, (p, x) :: documents = front ++ (p', x') :: (q, y) :: back →
      Clear (0 :: documentLabel id q) x' y) : AllClear x (separators id documents) := by
  induction documents generalizing p x with
  | nil => trivial
  | cons document documents ih =>
    constructor
    · exact h [] p x document.1 document.2 documents rfl
    · apply ih (p := document.1)
      intro front p' x' q y back heq
      apply h ((p, x) :: front) p' x' q y back
      rw [List.cons_append, ← heq]

variable [Manifests]

theorem Legible.tail {band : SourceBand} {bands : List SourceBand} {journal : Bytes}
    (h : Legible (band :: bands) journal) : Legible bands journal where
  inBand before other after front p x q y back hbands :=
    h.inBand (band :: before) other after front p x q y back (by rw [hbands, List.cons_append])
  atEnd before other front p x hbands :=
    h.atEnd (band :: before) other front p x (by rw [hbands, List.cons_append])
  afterBand before other next after front p x hbands :=
    h.afterBand (band :: before) other next after front p x (by rw [hbands, List.cons_append])

/-- What comes after the last document of a band is found in one place. -/
theorem Legible.tail_eq {band : SourceBand} {bands bands' : List SourceBand} {journal journal' : Bytes}
    (h : Legible (band :: bands) journal) (hloads : ∀ other ∈ bands', other.Loads)
    (hids : bands'.map SourceBand.id = bands.map SourceBand.id) {front : List (Text × Bytes)}
    {p : Text} {x other : Bytes} (hdocuments : band.documents = front ++ [(p, x)])
    (heq : x ++ 0 :: restStream bands journal = other ++ 0 :: restStream bands' journal') :
    other = x := by
  cases bands with
  | nil =>
    obtain rfl := List.map_eq_nil_iff.mp hids
    apply clear_iff.mp (h.atEnd [] band front p x rfl hdocuments)
    have hcut : (x ++ (0 :: label "journal" ++ journal)) ++ [0] =
        (other ++ (0 :: label "journal" ++ journal')) ++ [0] := by
      simpa [restStream] using heq
    exact List.append_cancel_right hcut
  | cons next after =>
    obtain ⟨next', after', rfl, hid, hafter⟩ := List.map_eq_cons_iff.mp hids
    rw [restStream_cons, restStream_cons, hid] at heq
    apply h.afterBand [] band next after front p x rfl hdocuments other _ heq
    exact ⟨next', after', journal', hid, hafter, hloads next' List.mem_cons_self,
      fun b hb => hloads b (List.mem_cons_of_mem _ hb), rfl⟩

variable [LawfulManifests]

theorem Legible.unique {bands bands' : List SourceBand} {journal journal' : Bytes}
    (h : Legible bands journal) (hloads : ∀ band ∈ bands, band.Loads)
    (hloads' : ∀ band ∈ bands', band.Loads)
    (hids : bands'.map SourceBand.id = bands.map SourceBand.id)
    (heq : restStream bands journal = restStream bands' journal') :
    bands = bands' ∧ journal = journal' := by
  induction bands generalizing bands' with
  | nil =>
    obtain rfl := List.map_eq_nil_iff.mp hids
    refine ⟨rfl, ?_⟩
    simpa [restStream] using heq
  | cons band bands ih =>
    obtain ⟨band', bands', rfl, hid, hmore⟩ := List.map_eq_cons_iff.mp hids
    have hband := hloads band List.mem_cons_self
    have hband' := hloads' band' List.mem_cons_self
    have hrest := fun other hother => hloads other (List.mem_cons_of_mem band hother)
    have hrest' := fun other hother => hloads' other (List.mem_cons_of_mem band' hother)
    obtain ⟨id, contract, documents⟩ := band
    obtain ⟨id', contract', documents'⟩ := band'
    obtain rfl : id' = id := hid
    rw [restStream_cons, restStream_cons, List.append_cancel_left_eq, bandContent, bandContent,
      List.append_assoc, List.append_assoc, List.cons_append, List.cons_append] at heq
    obtain ⟨rfl, hdocs⟩ := cut_nul (LawfulManifests.band_noNul hband)
      (LawfulManifests.band_noNul hband') heq
    have hpaths : documents'.map Prod.fst = documents.map Prod.fst :=
      Option.some.inj (hband'.symm.trans hband)
    cases documents with
    | nil =>
      obtain rfl := List.map_eq_nil_iff.mp hpaths
      obtain ⟨rfl, rfl⟩ := ih h.tail hrest hrest' hmore hdocs
      exact ⟨rfl, rfl⟩
    | cons document documents =>
      obtain ⟨p, x⟩ := document
      obtain ⟨⟨p', x'⟩, documents', rfl, hp, htails⟩ := List.map_eq_cons_iff.mp hpaths
      obtain rfl : p' = p := hp
      simp only [List.flatMap_cons, List.append_assoc, List.append_cancel_left_eq, List.cons_append,
        List.nil_append] at hdocs
      rw [separated_documents, separated_documents] at hdocs
      have hclear : AllClear x (separators id' documents) :=
        allClear_documents fun front p x q y back hcut =>
          h.inBand [] ⟨id', contract, _⟩ bands front p x q y back rfl hcut
      have hseps : (separators id' documents).map Prod.fst =
          (separators id' documents').map Prod.fst := by
        have hpaths' := congrArg (List.map fun path => 0 :: documentLabel id' path) htails.symm
        simpa [separators, Function.comp_def] using hpaths'
      obtain ⟨front, q, hlast⟩ := last_document id' p' x documents
      obtain ⟨rfl, hmoreDocs, htail⟩ := separated_inj hclear hseps
        (fun other hother => h.tail_eq hrest' hmore hlast hother) hdocs
      obtain ⟨rfl, rfl⟩ := ih h.tail hrest hrest' hmore (List.cons.inj htail).2
      have hdocuments : documents = documents' := eq_of_separators htails.symm hmoreDocs
      rw [hdocuments]
      exact ⟨rfl, rfl⟩

end Unique

section Exact

theorem restStream_append (before bands : List SourceBand) (journal : Bytes) :
    restStream (before ++ bands) journal = before.flatMap bandStream ++ restStream bands journal := by
  rw [restStream, List.flatMap_append, List.append_assoc, restStream]

variable [Manifests]

theorem stream_of_same {a b : DbSource} (h : Same a b) : a.stream = b.stream := by
  rw [DbSource.stream, DbSource.stream, h.root, h.bands, h.journal]

variable [LawfulManifests]

theorem same_of_stream {a b : DbSource} (hlegible : Legible a.bands (a.journal.getD []))
    (h : a.stream = b.stream) : Same a b := by
  rw [DbSource.stream, DbSource.stream, List.append_cancel_left_eq] at h
  obtain ⟨hroot, hrest⟩ := cut_nul (LawfulManifests.db_noNul a.rootLoads)
    (LawfulManifests.db_noNul b.rootLoads) h
  have hids : b.bands.map SourceBand.id = a.bands.map SourceBand.id := by
    have hloads := b.rootLoads
    rw [← hroot, a.rootLoads] at hloads
    exact (Option.some.inj hloads).symm
  obtain ⟨hbands, hjournal⟩ := hlegible.unique a.bandsLoad b.bandsLoad hids hrest
  exact ⟨hroot, hbands, hjournal⟩

theorem freshness_strict {stamp : Except DigestError Text} {source other : DbSource} {stored : Text}
    {builtStamp : Option Text} (h : source.digest = .ok stored) :
    freshness stamp other.digest ⟨some stored, builtStamp⟩ true = .fresh ↔
      source.digest = other.digest := by
  rw [digest_eq, Except.ok.injEq] at h
  rw [digest_eq, digest_eq, Except.ok.injEq, h]
  change (if stored = _ then Freshness.fresh else _) = .fresh ↔ _
  split
  · rename_i heq
    exact ⟨fun _ => heq, fun _ => rfl⟩
  · rename_i hne
    constructor
    · intro hstale
      cases hstale
    · intro heq
      exact absurd heq hne

theorem exact_of_legible {source : DbSource}
    (h : Legible source.bands (source.journal.getD [])) : Exact source := by
  have hdigest : ∀ other : DbSource, source.digest = other.digest ↔ Same source other := by
    intro other
    rw [digest_eq_iff]
    exact ⟨same_of_stream h, stream_of_same⟩
  exact ⟨hdigest, fun other stamp stored builtStamp hstored =>
    (freshness_strict hstored).trans (hdigest other)⟩

/-- Other contents with the stream of an exact source are its own. -/
theorem Exact.unique {source : DbSource} (h : Exact source) (bands : List SourceBand)
    (journal : Bytes) (hids : bands.map SourceBand.id = source.bands.map SourceBand.id)
    (hloads : ∀ band ∈ bands, band.Loads)
    (heq : restStream source.bands (source.journal.getD []) = restStream bands journal) :
    source.bands = bands ∧ source.journal.getD [] = journal := by
  let other : DbSource :=
    ⟨source.root, bands, some journal, by rw [hids]; exact source.rootLoads, hloads⟩
  have hstream : source.stream = other.stream := by
    rw [DbSource.stream, heq]
    rfl
  have hsame := (h.digest other).mp (digest_eq_iff.mpr hstream)
  exact ⟨hsame.bands, hsame.journal⟩

theorem Exact.replace {source : DbSource} (h : Exact source) {before after after' : List SourceBand}
    {band : SourceBand} (documents : List (Text × Bytes)) (journal : Bytes)
    (hbands : source.bands = before ++ band :: after)
    (hpaths : documents.map Prod.fst = band.documents.map Prod.fst)
    (hids : after'.map SourceBand.id = after.map SourceBand.id)
    (hloads : ∀ other ∈ after', other.Loads)
    (heq : bandContent band ++ restStream after (source.journal.getD []) =
      bandContent { band with documents := documents } ++ restStream after' journal) :
    band.documents = documents := by
  have hsource := source.bandsLoad
  rw [hbands] at hsource
  have hband : ({ band with documents := documents } : SourceBand).Loads := by
    rw [SourceBand.Loads, hpaths]
    exact hsource band (List.mem_append_right _ List.mem_cons_self)
  obtain ⟨hall, _⟩ := h.unique (before ++ { band with documents := documents } :: after') journal
    (by rw [hbands]; simp [hids])
    (by
      intro other hother
      obtain hother | hother := List.mem_append.mp hother
      · exact hsource other (List.mem_append_left _ hother)
      · obtain rfl | hother := List.mem_cons.mp hother
        · exact hband
        · exact hloads other hother)
    (by
      rw [hbands, restStream_append, restStream_append, restStream_cons, restStream_cons, heq])
  rw [hbands, List.append_cancel_left_eq] at hall
  exact congrArg SourceBand.documents (List.cons.inj hall).1

theorem legible_of_exact {source : DbSource} (h : Exact source) :
    Legible source.bands (source.journal.getD []) where
  inBand before band after front p x q y back hbands hdocuments := by
    apply clear_iff.mpr
    intro x' y' heq
    have hload := source.bandsLoad
    rw [hbands] at hload
    have hsame := h.replace (front ++ (p, x') :: (q, y') :: back)
      (source.journal.getD []) hbands (by rw [hdocuments]; simp) rfl
      (fun other hother => hload other (by simp [hother])) (by
        have hcut : x ++ 0 :: (documentLabel band.id q ++ y) =
            x' ++ 0 :: (documentLabel band.id q ++ y') := heq
        have hmiddle : ∀ rest : Bytes, x ++ 0 :: (documentLabel band.id q ++ (y ++ rest)) =
            x' ++ 0 :: (documentLabel band.id q ++ (y' ++ rest)) := by
          intro rest
          simpa using congrArg (· ++ rest) hcut
        simp only [bandContent, hdocuments, List.flatMap_append, List.flatMap_cons,
          List.append_assoc, List.cons_append, List.nil_append]
        rw [hmiddle])
    rw [hdocuments, List.append_cancel_left_eq] at hsame
    exact (congrArg Prod.snd (List.cons.inj hsame).1).symm
  atEnd before band front p x hbands hdocuments := by
    apply clear_iff.mpr
    intro x' journal heq
    have hsame := h.replace (front ++ [(p, x')]) journal hbands
      (by rw [hdocuments]; simp) rfl (by simp) (by
        have hmiddle : x ++ 0 :: (label "journal" ++ (source.journal.getD [] ++ [0])) =
            x' ++ 0 :: (label "journal" ++ (journal ++ [0])) := by
          simpa using congrArg (· ++ [0]) heq
        simp only [bandContent, hdocuments, restStream, List.flatMap_append, List.flatMap_cons,
          List.flatMap_nil, List.append_assoc, List.cons_append, List.nil_append]
        rw [hmiddle])
    rw [hdocuments, List.append_cancel_left_eq] at hsame
    exact (congrArg Prod.snd (List.cons.inj hsame).1).symm
  afterBand before band next after front p x hbands hdocuments other rest heq hreads := by
    obtain ⟨next', after', journal, hid, hafter, hnext, hload, rfl⟩ := hreads
    have hids : (next' :: after').map SourceBand.id = (next :: after).map SourceBand.id := by
      rw [List.map_cons, List.map_cons, hid, hafter]
    have hloads : ∀ band' ∈ next' :: after', band'.Loads := by
      intro band' hband'
      obtain rfl | hband' := List.mem_cons.mp hband'
      · exact hnext
      · exact hload band' hband'
    have hsame := h.replace (front ++ [(p, other)]) journal hbands (by rw [hdocuments]; simp) hids
      hloads (by
        simp only [bandContent, hdocuments, restStream_cons, hid, List.flatMap_append,
          List.flatMap_cons, List.flatMap_nil, List.append_assoc, List.cons_append,
          List.nil_append]
        simp only [bandContent, hid, List.append_assoc, List.cons_append] at heq
        rw [heq])
    rw [hdocuments, List.append_cancel_left_eq] at hsame
    exact (congrArg Prod.snd (List.cons.inj hsame).1).symm

/-- The digest, and with it the strict check, is exact where no separator can be read elsewhere. -/
theorem strict_freshness_is_exact (source : DbSource) :
    Exact source ↔ Legible source.bands (source.journal.getD []) :=
  ⟨legible_of_exact, exact_of_legible⟩

end Exact

section Sample

@[irreducible]
def sampleRoot : Bytes := utf8 ("[db]\nschema = 1\n[layers]\nL0 = \"hot\"\nL1 = \"lean\"\nL2 = \"full\"\n" ++
  "[caps]\nL0 = 9\nL1 = 9\nL2 = 9\nbudget_tokens = 9\n[bands]\norder = [\"b\"]\n")

@[irreducible]
def sampleContract : Bytes := utf8 ("[band]\nid = \"b\"\ntitle = \"B\"\nabstract = \"B\"\n" ++
  "[[documents]]\npath = \"p\"\norder = 0\nrole = \"raw\"\n" ++
  "[[documents]]\npath = \"q\"\norder = 1\nrole = \"raw\"\n")

theorem sampleRoot_noNul : 0 ∉ sampleRoot := by
  decide +kernel

theorem sampleContract_noNul : 0 ∉ sampleContract := by
  decide +kernel

/-- Two manifests that load, of one band with two documents, and bytes that are digested to
themselves. -/
@[reducible]
def manifests : Manifests where
  loadDb bytes := if bytes = sampleRoot then some [['b']] else none
  loadBand id bytes := if id = ['b'] ∧ bytes = sampleContract then some [['p'], ['q']] else none
  sha256Hex bytes := bytes.map Char.ofUInt8

theorem lawfulManifests : @LawfulManifests manifests := by
  refine @LawfulManifests.mk manifests ?_ ?_ ?_ ?_
  · intro bytes order h
    obtain ⟨hbytes, _⟩ := Option.ite_none_right_eq_some.mp h
    rw [hbytes]
    exact sampleRoot_noNul
  · intro id bytes paths h
    obtain ⟨⟨_, hbytes⟩, _⟩ := Option.ite_none_right_eq_some.mp h
    rw [hbytes]
    exact sampleContract_noNul
  · intro bytes order h
    obtain ⟨_, hsome⟩ := Option.ite_none_right_eq_some.mp h
    rw [← Option.some.inj hsome]
    decide
  · apply List.map_injective_iff.mpr
    intro a b h
    exact UInt8.toUInt32_inj.mp (congrArg Char.val h)

def sampleSource (p q : Bytes) : @DbSource manifests :=
  @DbSource.mk manifests sampleRoot [⟨['b'], sampleContract, [(['p'], p), (['q'], q)]⟩] none
    (if_pos rfl) (by
      intro band hband
      rw [List.mem_singleton.mp hband]
      change (if ['b'] = ['b'] ∧ sampleContract = sampleContract then some [['p'], ['q']] else none) = _
      rw [if_pos ⟨rfl, rfl⟩]
      rfl)

/-- A document that holds what stands before the document after it. -/
def separatorHeld : Bytes := 0 :: documentLabel ['b'] ['q']

theorem documents_share_a_digest :
    @DbSource.digest manifests (sampleSource (120 :: (separatorHeld ++ [121])) [122]) =
        @DbSource.digest manifests (sampleSource [120] (121 :: (separatorHeld ++ [122]))) ∧
      ¬ @Same manifests (sampleSource (120 :: (separatorHeld ++ [121])) [122])
        (sampleSource [120] (121 :: (separatorHeld ++ [122]))) := by
  constructor
  · apply (@digest_eq_iff manifests lawfulManifests _ _).mpr
    simp [DbSource.stream, sampleSource, restStream, bandStream, bandContent, separatorHeld]
  · intro h
    have hdocuments := congrArg (List.map SourceBand.documents) (@Same.bands manifests _ _ h)
    exact absurd hdocuments (by decide)

theorem sampleSource_legible :
    @Legible manifests (@DbSource.bands manifests (sampleSource [120] [121]))
      ((@DbSource.journal manifests (sampleSource [120] [121])).getD []) := by
  have hone : ∀ {before after : List SourceBand} {band},
      @DbSource.bands manifests (sampleSource [120] [121]) = before ++ band :: after →
        after = [] ∧ band.id = ['b'] ∧ band.documents = [(['p'], [120]), (['q'], [121])] := by
    intro before after band h
    have hlength := congrArg List.length h
    rw [List.length_append, List.length_cons] at hlength
    have hmem : band ∈ @DbSource.bands manifests (sampleSource [120] [121]) := by
      rw [h]
      exact List.mem_append_right _ List.mem_cons_self
    obtain rfl := List.mem_singleton.mp hmem
    have hall : 1 = before.length + (after.length + 1) := hlength
    exact ⟨List.eq_nil_of_length_eq_zero (by omega), rfl, rfl⟩
  refine @Legible.mk manifests _ _ ?_ ?_ ?_
  · intro before band after front p x q y back hbands hdocuments
    obtain ⟨-, hid, hpair⟩ := hone hbands
    rw [hpair] at hdocuments
    cases front with
    | nil =>
      obtain ⟨⟨rfl, rfl⟩, ⟨rfl, rfl⟩, -⟩ := by simpa using hdocuments
      rw [hid]
      exact clear_singleton (by decide) (by decide) (by decide)
        (List.forall_mem_singleton.mpr (by decide))
    | cons row front =>
      have hlength := congrArg List.length hdocuments
      simp only [List.length_append, List.length_cons, List.length_nil] at hlength
      omega
  · intro before band front p x hbands hdocuments
    obtain ⟨-, -, hpair⟩ := hone hbands
    rw [hpair] at hdocuments
    have hlast := congrArg List.getLast? hdocuments
    rw [List.getLast?_concat] at hlast
    obtain ⟨rfl, rfl⟩ := Prod.mk.inj (Option.some.inj hlast)
    exact clear_singleton (by decide) (by decide) (by decide) (List.forall_mem_nil _)
  · intro before band next after front p x hbands
    cases (hone hbands).1

theorem strict_freshness_is_exact_sample :
    @Legible manifests (@DbSource.bands manifests (sampleSource [120] [121]))
        ((@DbSource.journal manifests (sampleSource [120] [121])).getD []) ∧
      @Exact manifests (sampleSource [120] [121]) :=
  ⟨sampleSource_legible, (@strict_freshness_is_exact manifests lawfulManifests
    (sampleSource [120] [121])).mpr sampleSource_legible⟩

end Sample

end Tracefold.Db
