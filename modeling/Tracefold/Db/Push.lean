import Tracefold.Db.Partition

/-! The push of a corpus: one record in the journal for each atom that is not the newest of its
lineage already. -/

namespace Tracefold.Db

open Library Locator

/-- A band whose contract loads, with what stands under the paths of its documents. -/
structure LoadedBand where
  manifest : BandManifest
  documents : List (DocumentDecl × Content)
  distinct : (documents.map fun document => document.1.path).Nodup

/-- The bands in the order of the root manifest, which names none twice; `none` is a band that does
not load. -/
structure Source where
  bands : List (Text × Option LoadedBand)
  distinct : (bands.map Prod.fst).Nodup
  named : ∀ id band, (id, some band) ∈ bands → band.manifest.id = id

/-- The documents of all bands that load. -/
def Source.documents (source : Source) : List (BandManifest × DocumentDecl × Content) :=
  source.bands.flatMap fun entry => match entry.2 with
    | none => []
    | some band => band.documents.map fun document => (band.manifest, document)

structure Corpus where
  atoms : List StoredAtom
  bandFailures : List Text
  absent : List Text
  unreadable : List Text

section Corpus

variable [Formats] [Alphanumeric]

def atomsOf (entry : BandManifest × DocumentDecl × Content) : Option (List StoredAtom) :=
  match entry.2.2.readToString with
  | some text => (extractDocument entry.1 entry.2.1 text).map DocumentIr.atoms
  | none => some []

def documentId (entry : BandManifest × DocumentDecl × Content) : Text :=
  entry.1.id ++ '/' :: entry.2.1.path

/-- `load_corpus`; none is a panic. -/
def loadCorpus (source : Source) : Option Corpus :=
  (source.documents.mapM atomsOf).map fun atoms =>
    { atoms := atoms.flatten
      bandFailures := (source.bands.filter fun entry => entry.2.isNone).map Prod.fst
      absent := (source.documents.filter fun entry => entry.2.2 = .absent).map documentId
      unreadable := (source.documents.filter fun entry =>
        entry.2.2 ≠ .absent ∧ entry.2.2.readToString = none).map documentId }

end Corpus

/-- Whether `refuse_partial` stops over a corpus. -/
def Corpus.isPartial (corpus : Corpus) : Prop :=
  corpus.bandFailures ≠ [] ∨ corpus.unreadable ≠ [] ∨ corpus.absent ≠ [] ∨ corpus.atoms = []

instance (corpus : Corpus) : Decidable corpus.isPartial := instDecidableOr

inductive Field where
  | layer
  | executor
  | evidence
  deriving DecidableEq, Repr

def undeclaredFields (atom : StoredAtom) : List Field :=
  (if atom.semantic.layer = .unknown then [.layer] else []) ++
    (if atom.executor = "UNKNOWN" then [.executor] else []) ++
    (if atom.evidence = .unknown then [.evidence] else [])

section Journal

def JournalRead.maxSeq (journal : JournalRead) : UInt64 :=
  (journal.records.map JournalEntry.seq ++ journal.legacy.map LegacyRecord.seq).foldl
    (fun top seq => if top < seq then seq else top) 0

/-- One record of the loop of `newest_for_lineage`. -/
def newer (lineage : String) (best : Option JournalEntry) (record : JournalEntry) :
    Option JournalEntry :=
  if record.lineage = lineage then
    match best with
    | some found => if record.version < found.version then some found else some record
    | none => some record
  else best

def JournalRead.newestForLineage (journal : JournalRead) (lineage : String) : Option JournalEntry :=
  if lineage = "UNKNOWN" then none
  else journal.records.foldl (newer lineage) none

end Journal

structure PushState where
  seq : UInt64
  records : List JournalEntry
  unchanged : ℕ
  fresh : ℕ
  versioned : ℕ
  withUnknown : ℕ

structure Pushed where
  appended : ℕ
  fresh : ℕ
  versioned : ℕ
  unchanged : ℕ
  withUnknown : ℕ

inductive PushError where
  | panicked
  | partialCorpus
  | unparsableJournal
  | notAppended (why : AppendError)

section Push

variable [Formats]

def lineageKey (path anchor : Text) (kind : Kind) : String :=
  String.ofList (Formats.sha256Hex ([path, anchor, kind.name].flatMap (· ++ ['\x01'])))

def lineageOf (atom : StoredAtom) : String :=
  lineageKey atom.semantic.source.path atom.semantic.source.anchor atom.semantic.kind

def idOf (atom : StoredAtom) : String := String.ofList atom.semantic.id

/-- A record of an atom, behind those made so far. -/
def recordItem (stamp : String) (state : PushState) (item : StoredAtom) (version : UInt64)
    (supersedes : List String) : PushState :=
  let declared := (undeclaredFields item).isEmpty
  { state with
    seq := state.seq + 1
    withUnknown := if declared then state.withUnknown else state.withUnknown + 1
    records := state.records ++ [
      { seq := state.seq + 1
        ts := stamp
        atomId := idOf item
        lineage := lineageOf item
        version := version
        prevHash := []
        gateVerdict := if declared then "pass" else "unknown"
        executor := item.executor
        supersedes := supersedes }] }

/-- One atom of the loop of a push; `version + 1` and `seq + 1` wrap around. -/
def pushItem (journal : JournalRead) (stamp : String) (state : PushState) (item : StoredAtom) :
    PushState :=
  match journal.newestForLineage (lineageOf item) with
  | some record =>
    if record.atomId = idOf item then { state with unchanged := state.unchanged + 1 }
    else recordItem stamp { state with versioned := state.versioned + 1 } item (record.version + 1)
      [record.atomId]
  | none => recordItem stamp { state with fresh := state.fresh + 1 } item 1 []

def pushState (journal : JournalRead) (stamp : String) (atoms : List StoredAtom) : PushState :=
  atoms.foldl (pushItem journal stamp) ⟨journal.maxSeq, [], 0, 0, 0, 0⟩

variable [Alphanumeric]

/-- `Command::Push`, up to the index that is compiled after it. -/
def push (weather : Weather) (stamp : String) (source : Source) (disk : Disk) :
    Except PushError Pushed × Disk :=
  match loadCorpus source with
  | none => (.error .panicked, disk)
  | some corpus =>
    if corpus.isPartial then (.error .partialCorpus, disk)
    else
      let journal := readJournal disk
      if journal.unparsable ≠ [] then (.error .unparsableJournal, disk)
      else
        let state := pushState journal stamp corpus.atoms
        match append weather state.records disk with
        | (.error why, disk) => (.error (.notAppended why), disk)
        | (.ok appended, disk) =>
          (.ok ⟨appended, state.fresh, state.versioned, state.unchanged, state.withUnknown⟩, disk)

/-- A push at some time, of the source as it stands then. -/
structure Attempt where
  weather : Weather
  stamp : String
  source : Source

/-- What an atom of a corpus is known by. -/
structure Key where
  band : Text
  document : Text
  anchor : Text
  kind : Kind
  deriving DecidableEq, Repr

def keyOf (atom : StoredAtom) : Key :=
  ⟨atom.band, atom.semantic.source.document, atom.semantic.source.anchor, atom.semantic.kind⟩

def pushes (disk : Disk) (attempts : List Attempt) : Disk :=
  attempts.foldl (fun disk attempt =>
    (push attempt.weather attempt.stamp attempt.source disk).2) disk

/-- No journal, and no head. -/
def Disk.fresh : Disk := ⟨.absent, .absent⟩

/-- What `init` writes of the two. -/
def Disk.initialised : Disk := ⟨.text [], .text ['\n']⟩

/-- Nothing is recorded in the journal, whatever the head. -/
def Disk.Unwritten (disk : Disk) : Prop := linesOf (disk.journal.readToString.getD []) = []

instance decidableUnwritten (disk : Disk) : Decidable disk.Unwritten := inferInstanceAs (Decidable (_ = _))

/-- The atoms that a push works on, if nothing stops it. -/
def Source.pushed (source : Source) : List StoredAtom :=
  match loadCorpus source with
  | some corpus => if corpus.isPartial then [] else corpus.atoms
  | none => []

/-- The atoms of the sources pushed one after another. A push whose journal does not land leaves no
trace. -/
def heldBy (attempts : List Attempt) : List StoredAtom :=
  attempts.flatMap fun attempt => if attempt.weather.journalLands then attempt.source.pushed else []

end Push

end Tracefold.Db
