import Mathlib.Data.List.DropRight
import Mathlib.Tactic.Common
import Tracefold.Library.Chain
import Tracefold.Library.Code
import Tracefold.Lifecycle
import Tracefold.Locator

/-! The journal of the semantic database: lines that each carry the fold of those before, and a
file `HEAD` with the fold of them all. -/

namespace Tracefold.Db

open Library Locator

structure JournalEntry where
  seq : UInt64
  ts : String
  atomId : String
  lineage : String
  version : UInt64
  prevHash : Text
  gateVerdict : String
  executor : String
  supersedes : List String
  deriving DecidableEq, Repr

structure LegacyRecord where
  seq : UInt64
  id : String
  executor : String
  prevHash : String
  supersedes : List String
  version : Option UInt64
  deriving DecidableEq, Repr

inductive Admitted where
  | current (record : JournalEntry)
  | legacy (record : LegacyRecord)
  | unreadable

/-- `serde_json` on the two kinds of records, and SHA-256 of a text in lower-case hexadecimal. -/
class Formats where
  readEntry : Text → Option JournalEntry
  readLegacy : Text → Option LegacyRecord
  canonicalJson : JournalEntry → Text
  sha256Hex : Text → Text

/-- A record is written as an object on one line and read back, and a digest has no blank in it. -/
class LawfulFormats [Formats] : Prop where
  read_canonicalJson : ∀ record, Formats.readEntry (Formats.canonicalJson record) = some record
  canonicalJson_object : ∀ record, ∃ members,
    Formats.canonicalJson record = '{' :: (members ++ ['}']) ∧ '\n' ∉ members
  not_blank : ∀ {text : Text} {c : Char}, c ∈ Formats.sha256Hex text →
    Engine.isWhiteSpace c = false

/-- What stands under a path: nothing, bytes that are not UTF-8, or a text. -/
inductive Content where
  | absent
  | garbled (bytes : Bytes)
  | text (chars : Text)
  deriving DecidableEq, Repr

/-- `fs::read_to_string`. -/
def Content.readToString : Content → Option Text
  | .text chars => some chars
  | _ => none

structure Disk where
  journal : Content
  head : Content
  deriving DecidableEq, Repr

/-- `str::trim`. -/
def trim (text : Text) : Text :=
  (text.dropWhile Engine.isWhiteSpace).rdropWhile Engine.isWhiteSpace

/-- The lines of a text that are not blank, each without the carriage returns at its end. -/
def linesOf (text : Text) : List Text :=
  ((text.splitOn '\n').filter fun line => !line.all Engine.isWhiteSpace).map
    (List.rdropWhile (· = '\r'))

section Chain

variable [Formats]

def classify (line : Text) : Admitted :=
  match Formats.readEntry line with
  | some record => .current record
  | none =>
    match Formats.readLegacy line with
    | some record => .legacy record
    | none => .unreadable

structure JournalRead where
  records : List JournalEntry
  legacy : List LegacyRecord
  lines : List Text
  unparsable : List ℕ

/-- `read_journal`; a file that cannot be read is an empty one. -/
def readJournal (disk : Disk) : JournalRead :=
  let lines := linesOf (disk.journal.readToString.getD [])
  { records := lines.filterMap fun line =>
      match classify line with
      | .current record => some record
      | _ => none
    legacy := lines.filterMap fun line =>
      match classify line with
      | .legacy record => some record
      | _ => none
    lines := lines
    unparsable := lines.zipIdx.filterMap fun (line, index) =>
      match classify line with
      | .unreadable => some (index + 1)
      | _ => none }

def chainFold (previous line : Text) : Text :=
  Formats.sha256Hex (previous ++ '\x00' :: line)

/-- The fold of some lines. -/
abbrev foldOf (lines : List Text) : Text := Chain.head chainFold [] lines

def shortId (id : Text) : Text := id.take 12

/-- What a line is found to be broken by. -/
inductive Break where
  | link (line : ℕ) (seq : UInt64) (carried running : Text)
  | unreadable (line : ℕ)
  deriving DecidableEq, Repr

inductive Link where
  | verified
  | unverifiable
  | broken (why : Break)
  deriving DecidableEq, Repr

def Link.break? : Link → Option Break
  | .broken why => some why
  | _ => none

/-- A line against the fold of those before it. -/
def linkAt (number : ℕ) (running line : Text) : Link :=
  match classify line with
  | .current record =>
    if record.prevHash ≠ running then
      .broken (.link number record.seq (shortId record.prevHash) (shortId running))
    else .verified
  | .legacy _ => .unverifiable
  | .unreadable => .broken (.unreadable number)

def links : ℕ → Text → List Text → List Link
  | _, _, [] => []
  | number, running, line :: rest =>
    linkAt number running line :: links (number + 1) (chainFold running line) rest

structure ChainVerdict where
  lines : ℕ
  breaks : List Break
  unverifiable : ℕ
  verified : ℕ
  computedHead : Text
  storedHead : Option Text

omit [Formats] in
/-- `read_head`. -/
def readHead (disk : Disk) : Option Text := disk.head.readToString.map trim

/-- `verify_chain`. -/
def verifyChain (disk : Disk) : ChainVerdict :=
  let lines := (readJournal disk).lines
  let found := links 1 [] lines
  { lines := lines.length
    breaks := found.filterMap Link.break?
    unverifiable := found.count .unverifiable
    verified := found.count .verified
    computedHead := foldOf lines
    storedHead := readHead disk }

/-- Which of the two files the next append gets to write. -/
structure Weather where
  journalLands : Bool
  headLands : Bool

inductive AppendError where
  | notSerialised
  | journalFailed
  | headFailed
  deriving DecidableEq, Repr

/-- The lines of some records, each with the fold of all before it, or none where a record does not
serialise. -/
def chained : Text → List JournalEntry → Option (List Text)
  | _, [] => some []
  | running, record :: rest =>
    let line := Formats.canonicalJson { record with prevHash := running }
    if line = [] then none
    else (chained (chainFold running line) rest).map (line :: ·)

omit [Formats] in
def joined (lines : List Text) : Text := lines.flatMap (· ++ ['\n'])

/-- `append_journal`: the whole file is written again, and then `HEAD`. -/
def append (weather : Weather) (records : List JournalEntry) (disk : Disk) :
    Except AppendError ℕ × Disk :=
  if records = [] then (.ok 0, disk)
  else
    let existing := (readJournal disk).lines
    match chained (foldOf existing) records with
    | none => (.error .notSerialised, disk)
    | some more =>
      if !weather.journalLands then (.error .journalFailed, disk)
      else
        let written := { disk with journal := .text (joined (existing ++ more)) }
        if !weather.headLands then (.error .headFailed, written)
        else
          (.ok records.length,
            { written with head := .text (foldOf (existing ++ more) ++ ['\n']) })

/-- Some appends, one after another. -/
def run (disk : Disk) (calls : List (Weather × List JournalEntry)) : Disk :=
  calls.foldl (fun disk (weather, records) => (append weather records disk).2) disk

/-- The check finds a break, or a fold that `HEAD` does not have. -/
def Tampered (disk : Disk) : Prop :=
  (verifyChain disk).breaks ≠ [] ∨ (verifyChain disk).storedHead ≠ some (verifyChain disk).computedHead

end Chain

/-- A line as a read leaves it. -/
structure IsLine (line : Text) : Prop where
  oneLine : '\n' ∉ line
  filled : line.all Engine.isWhiteSpace = false
  trimmed : line.rdropWhile (· = '\r') = line

theorem mem_rdropWhile {p : Char → Bool} {text : Text} {c : Char} (h : c ∈ text.rdropWhile p) :
    c ∈ text :=
  (List.rdropWhile_prefix p text).subset h

theorem isLine_of_mem {text line : Text} (h : line ∈ linesOf text) : IsLine line := by
  obtain ⟨raw, hraw, rfl⟩ := List.mem_map.mp h
  obtain ⟨hpiece, hfilled⟩ := List.mem_filter.mp hraw
  refine ⟨fun hmem => ?_, ?_, List.rdropWhile_idempotent _ _⟩
  · exact (Text.mem_piece hpiece (mem_rdropWhile hmem)).2 rfl
  · rw [Bool.not_eq_true', List.all_eq_false] at hfilled
    obtain ⟨c, hc, hwhite⟩ := hfilled
    rw [List.all_eq_false]
    refine ⟨c, ?_, hwhite⟩
    rw [← @List.rdropWhile_append_rtakeWhile _ (· = '\r') raw] at hc
    rcases List.mem_append.mp hc with hc | hc
    · exact hc
    · have hreturn := List.mem_rtakeWhile_imp hc
      rw [of_decide_eq_true hreturn] at hwhite
      exact absurd (by decide) hwhite

theorem linesOf_joined {lines : List Text} (h : ∀ line ∈ lines, IsLine line) :
    linesOf (joined lines) = lines := by
  have hsplit : (joined lines).splitOn '\n' = lines ++ [[]] := by
    induction lines with
    | nil => rfl
    | cons line lines ih =>
      have hcut : joined (line :: lines) = line ++ '\n' :: joined lines := by
        rw [joined, List.flatMap_cons, List.append_assoc]
        rfl
      rw [hcut, List.splitOn_append_cons_self,
        List.splitOn_eq_singleton (h line List.mem_cons_self).oneLine,
        ih fun l hl => h l (List.mem_cons_of_mem _ hl)]
      rfl
  rw [linesOf, hsplit, List.filter_append]
  have hblank : [([] : Text)].filter (fun line => !line.all Engine.isWhiteSpace) = [] := rfl
  rw [hblank, List.append_nil, List.filter_eq_self.mpr fun line hline => by
    rw [(h line hline).filled]; rfl]
  exact (List.map_congr_left fun line hline => (h line hline).trimmed).trans (List.map_id _)

section Fold

variable [Formats] {disk : Disk}

theorem links_append (number : ℕ) (running : Text) (lines more : List Text) :
    links number running (lines ++ more) = links number running lines ++
      links (number + lines.length) (Chain.head chainFold running lines) more := by
  induction lines generalizing number running with
  | nil => rfl
  | cons line lines ih =>
    rw [List.cons_append, links, ih, links, List.length_cons, Nat.add_right_comm, Nat.add_assoc]
    rfl

theorem isLine_lines (disk : Disk) : ∀ line ∈ (readJournal disk).lines, IsLine line :=
  fun _ hline => isLine_of_mem hline

theorem breaks_eq (disk : Disk) :
    (verifyChain disk).breaks = (links 1 [] (readJournal disk).lines).filterMap Link.break? := rfl

theorem computedHead_eq (disk : Disk) :
    (verifyChain disk).computedHead = foldOf (readJournal disk).lines := rfl

theorem storedHead_eq (disk : Disk) : (verifyChain disk).storedHead = readHead disk := rfl

variable [LawfulFormats]

theorem isLine_canonicalJson (record : JournalEntry) : IsLine (Formats.canonicalJson record) := by
  obtain ⟨members, hobject, hmembers⟩ := LawfulFormats.canonicalJson_object record
  have hends : Formats.canonicalJson record = ('{' :: members) ++ ['}'] := hobject
  refine ⟨?_, ?_, ?_⟩
  · rw [hobject, List.mem_cons, List.mem_append, List.mem_singleton]
    rintro (h | h | h)
    · exact absurd h (by decide)
    · exact hmembers h
    · exact absurd h (by decide)
  · rw [hobject, List.all_cons]
    exact Bool.and_eq_false_iff.mpr (.inl (by decide))
  · rw [hends]
    exact List.rdropWhile_concat_neg _ _ _ (by decide)

theorem chained_spec {running : Text} {records : List JournalEntry} {more : List Text}
    (h : chained running records = some more) :
    (∀ line ∈ more, IsLine line) ∧
      ∀ number, (links number running more).filterMap Link.break? = [] := by
  induction records generalizing running more with
  | nil =>
    cases h
    exact ⟨fun _ hline => absurd hline List.not_mem_nil, fun _ => rfl⟩
  | cons record rest ih =>
    rw [chained] at h
    split at h
    · cases h
    · obtain ⟨lines, hlines, rfl⟩ := Option.map_eq_some_iff.mp h
      obtain ⟨hall, hunbroken⟩ := ih hlines
      refine ⟨fun line hline => ?_, fun number => ?_⟩
      · rcases List.mem_cons.mp hline with rfl | hline
        · exact isLine_canonicalJson _
        · exact hall line hline
      · have hverified : linkAt number running
            (Formats.canonicalJson { record with prevHash := running }) = .verified := by
          rw [linkAt, classify, LawfulFormats.read_canonicalJson]
          exact if_neg (not_not.mpr rfl)
        rw [links, hverified]
        exact hunbroken (number + 1)

/-- What an append leaves: the files as they were, or the lines with others behind them that hold
together, and `HEAD` as it was or the fold of them all. -/
theorem append_cases (weather : Weather) (records : List JournalEntry) (disk : Disk) :
    (append weather records disk).2 = disk ∧ (∀ n, (append weather records disk).1 = .ok n →
      records = []) ∨
    ∃ more, (readJournal (append weather records disk).2).lines = (readJournal disk).lines ++ more ∧
      (verifyChain (append weather records disk).2).breaks = (verifyChain disk).breaks ∧
      ∀ n, (append weather records disk).1 = .ok n → (append weather records disk).2.head =
        .text (foldOf ((readJournal disk).lines ++ more) ++ ['\n']) := by
  rw [append]
  split
  next hnil => exact .inl ⟨rfl, fun _ _ => hnil⟩
  next =>
    dsimp only
    split
    next => exact .inl ⟨rfl, fun _ h => nomatch h⟩
    next more hmore =>
      obtain ⟨hall, hunbroken⟩ := chained_spec hmore
      have hlines : ∀ head : Content,
          (readJournal ⟨.text (joined ((readJournal disk).lines ++ more)), head⟩).lines =
            (readJournal disk).lines ++ more := by
        intro head
        apply linesOf_joined
        intro line hline
        rcases List.mem_append.mp hline with hline | hline
        · exact isLine_lines disk line hline
        · exact hall line hline
      have hbreaks : ∀ head : Content,
          (verifyChain ⟨.text (joined ((readJournal disk).lines ++ more)), head⟩).breaks =
            (verifyChain disk).breaks := by
        intro head
        rw [breaks_eq, hlines, links_append, List.filterMap_append, hunbroken, List.append_nil]
        rfl
      split
      · exact .inl ⟨rfl, fun _ h => nomatch h⟩
      · split
        · exact .inr ⟨more, hlines _, hbreaks _, fun _ h => nomatch h⟩
        · exact .inr ⟨more, hlines _, hbreaks _, fun _ _ => rfl⟩

omit [Formats] [LawfulFormats] in
theorem trim_digest {digest : Text} (h : ∀ c ∈ digest, Engine.isWhiteSpace c = false) :
    trim (digest ++ ['\n']) = digest := by
  have hdrop : ∀ {rest : Text}, (digest ++ rest).dropWhile Engine.isWhiteSpace =
      if digest = [] then rest.dropWhile Engine.isWhiteSpace else digest ++ rest := by
    intro rest
    cases digest with
    | nil => rfl
    | cons c digest =>
      rw [if_neg (List.cons_ne_nil _ _), List.cons_append, List.dropWhile_cons_of_neg]
      rw [h c List.mem_cons_self]
      exact Bool.false_ne_true
  have hkept : digest.rdropWhile Engine.isWhiteSpace = digest := by
    rw [List.rdropWhile_eq_self_iff]
    intro hne
    rw [h _ (List.getLast_mem hne)]
    exact Bool.false_ne_true
  rw [trim, hdrop]
  split
  next hnil =>
    rw [hnil]
    rfl
  next => rw [List.rdropWhile_concat_pos _ _ _ (by decide), hkept]

theorem foldOf_not_blank (lines : List Text) : ∀ c ∈ foldOf lines, Engine.isWhiteSpace c = false := by
  induction lines using List.reverseRecOn with
  | nil => exact fun _ hc => absurd hc List.not_mem_nil
  | append_singleton lines line _ =>
    intro c hc
    rw [foldOf, Chain.head_concat, chainFold] at hc
    exact LawfulFormats.not_blank hc

theorem breaks_append (weather : Weather) (records : List JournalEntry) (disk : Disk) :
    (verifyChain (append weather records disk).2).breaks = (verifyChain disk).breaks := by
  rcases append_cases weather records disk with ⟨hsame, _⟩ | ⟨_, _, hbreaks, _⟩
  · rw [hsame]
  · exact hbreaks

/-- No append adds a break, and none takes one away. -/
theorem breaks_run (disk : Disk) (calls : List (Weather × List JournalEntry)) :
    (verifyChain (run disk calls)).breaks = (verifyChain disk).breaks := by
  induction calls generalizing disk with
  | nil => rfl
  | cons call calls ih =>
    obtain ⟨weather, records⟩ := call
    exact (ih (append weather records disk).2).trans (breaks_append weather records disk)

/-- An append that wrote something makes `HEAD` the fold of what stands there. -/
theorem head_append {weather : Weather} {records : List JournalEntry} {n : ℕ}
    (hrecords : records ≠ []) (hok : (append weather records disk).1 = .ok n) :
    (verifyChain (append weather records disk).2).storedHead =
      some (verifyChain (append weather records disk).2).computedHead := by
  rcases append_cases weather records disk with ⟨_, hnil⟩ | ⟨more, hlines, _, hhead⟩
  · exact absurd (hnil n hok) hrecords
  · have hcomputed : (verifyChain (append weather records disk).2).computedHead =
        foldOf ((readJournal disk).lines ++ more) := by
      rw [computedHead_eq, hlines]
    rw [hcomputed, storedHead_eq, readHead, hhead n hok]
    exact congrArg some (trim_digest (foldOf_not_blank _))

theorem chained_isSome (running : Text) (records : List JournalEntry) :
    (chained running records).isSome := by
  induction records generalizing running with
  | nil => rfl
  | cons record rest ih =>
    rw [chained]
    split
    next hnil =>
      have hobject := (isLine_canonicalJson { record with prevHash := running }).filled
      rw [hnil] at hobject
      cases hobject
    next => rw [Option.isSome_map, ih]

theorem append_lands (records : List JournalEntry) (disk : Disk) :
    (append ⟨true, true⟩ records disk).1 = .ok records.length := by
  rw [append]
  split
  next hnil =>
    rw [hnil]
    rfl
  next =>
    obtain ⟨more, hmore⟩ := Option.isSome_iff_exists.mp
      (chained_isSome (foldOf (readJournal disk).lines) records)
    dsimp only
    rw [hmore]
    rfl

/-- The evidence against an altered journal outlives every later run of appends exactly when it
stands in the lines; and appends to a journal without a break in it keep its lines, add no break,
and leave `HEAD` the fold of what is there. -/
theorem tampering_is_remembered (disk : Disk) :
    (Tampered disk →
      ((∀ calls, Tampered (run disk calls)) ↔ (verifyChain disk).breaks ≠ [])) ∧
    ((verifyChain disk).breaks = [] → ∀ calls weather records n disk',
      append weather records (run disk calls) = (.ok n, disk') →
        (∃ more, (readJournal disk').lines = (readJournal (run disk calls)).lines ++ more) ∧
          (verifyChain disk').breaks = [] ∧
          (records ≠ [] ∨ ¬ Tampered (run disk calls) → ¬ Tampered disk')) := by
  refine ⟨fun _ => ⟨fun hall hnone => ?_, fun hbreaks calls => ?_⟩, ?_⟩
  · have hlands := append_lands [⟨0, "", "", "", 0, [], "", "", []⟩] disk
    rcases hall [(⟨true, true⟩, [⟨0, "", "", "", 0, [], "", "", []⟩])] with hbroken | hhead
    · exact hbroken ((breaks_append _ _ disk).trans hnone)
    · exact hhead (head_append (List.cons_ne_nil _ _) hlands)
  · rw [← breaks_run disk calls] at hbreaks
    exact .inl hbreaks
  · intro hnone calls weather records n disk' happend
    have hafter : disk' = (append weather records (run disk calls)).2 := by rw [happend]
    have hok : (append weather records (run disk calls)).1 = .ok n := by rw [happend]
    have hunbroken : (verifyChain disk').breaks = [] := by
      rw [hafter, breaks_append, breaks_run, hnone]
    refine ⟨?_, hunbroken, fun hwrites => ?_⟩
    · rcases append_cases weather records (run disk calls) with ⟨hsame, _⟩ | ⟨more, hlines, _⟩
      · exact ⟨[], by rw [hafter, hsame, List.append_nil]⟩
      · exact ⟨more, by rw [hafter, hlines]⟩
    · rintro (hbroken | hhead)
      · exact hbroken hunbroken
      · by_cases hrecords : records = []
        · have hsame : disk' = run disk calls := by
            rw [hafter, hrecords]
            rfl
          rcases hwrites with hne | hwhole
          · exact hne hrecords
          · exact hwhole (.inr (hsame ▸ hhead))
        · rw [hafter] at hhead
          exact hhead (head_append hrecords hok)

end Fold

section Sample

instance : Code UInt64 := Code.ofInjective UInt64.toNat fun _ _ h => UInt64.toNat_inj.mp h

instance : Code JournalEntry :=
  Code.ofInjective (fun r : JournalEntry => ((r.seq, r.ts, r.atomId, r.lineage, r.version),
    r.prevHash, r.gateVerdict, r.executor, r.supersedes)) fun a b h => by
    cases a
    cases b
    simp only [Prod.mk.injEq] at h
    obtain ⟨⟨rfl, rfl, rfl, rfl, rfl⟩, rfl, rfl, rfl, rfl⟩ := h
    rfl

/-- The numbers of a value, in unary. -/
def spelled {α : Type} [Code α] (value : α) : Text :=
  (Code.code value).flatMap fun n => List.replicate n '1' ++ ['0']

theorem spelled_injective {α : Type} [Code α] : Function.Injective (spelled : α → Text) := by
  intro a b h
  have hones : ∀ numbers : List ℕ, ∀ piece ∈ numbers.map fun n => List.replicate n '1',
      '0' ∉ piece := by
    intro numbers piece hpiece hmem
    obtain ⟨n, _, rfl⟩ := List.mem_map.mp hpiece
    exact absurd (List.eq_of_mem_replicate hmem) (by decide)
  have hpieces : (Code.code a).map (fun n => List.replicate n '1') =
      (Code.code b).map fun n => List.replicate n '1' := by
    refine Text.flatMap_concat_injective (hones _) (hones _) ?_
    rw [List.flatMap_map, List.flatMap_map]
    exact h
  have hlength := congrArg (List.map List.length) hpieces
  simp only [List.map_map, Function.comp_def, List.length_replicate, List.map_id'] at hlength
  exact Code.code_injective hlength

theorem mem_spelled {α : Type} [Code α] {value : α} {c : Char} (h : c ∈ spelled value) :
    c = '1' ∨ c = '0' := by
  obtain ⟨n, _, hc⟩ := List.mem_flatMap.mp h
  rcases List.mem_append.mp hc with hc | hc
  · exact .inl (List.eq_of_mem_replicate hc)
  · exact .inr (List.mem_singleton.mp hc)

def objectOf (record : JournalEntry) : Text := '{' :: (spelled record ++ ['}'])

theorem objectOf_injective : Function.Injective objectOf := fun _ _ h =>
  spelled_injective (List.append_cancel_right (List.cons.inj h).2)

open Classical in
/-- A record is spelled out, and a text is hashed to its spelling. -/
@[reducible]
noncomputable def formats : Formats where
  readEntry line := if h : ∃ record, objectOf record = line then some h.choose else none
  readLegacy _ := none
  canonicalJson := objectOf
  sha256Hex := spelled

theorem lawfulFormats : @LawfulFormats formats := by
  refine @LawfulFormats.mk formats (fun record => ?_) (fun record => ⟨spelled record, rfl, ?_⟩)
    fun {text c} hc => ?_
  · have hex : ∃ other, objectOf other = objectOf record := ⟨record, rfl⟩
    exact (dif_pos hex).trans (congrArg some (objectOf_injective hex.choose_spec))
  · intro hmem
    rcases mem_spelled hmem with h | h
    · exact absurd h (by decide)
    · exact absurd h (by decide)
  · rcases mem_spelled hc with rfl | rfl
    · decide
    · decide

/-- The first admission of an atom. -/
def admission (atomId : String) : JournalEntry := ⟨1, "epoch:0", atomId, "l", 1, [], "pass", "e", []⟩

theorem admission_injective {a b : String} (h : objectOf (admission a) = objectOf (admission b)) :
    a = b := congrArg JournalEntry.atomId (objectOf_injective h)

theorem fold_injective {line line' : Text} (h : @foldOf formats [line] = @foldOf formats [line']) :
    line = line' := by
  have hmaterial : '\x00' :: line = '\x00' :: line' := spelled_injective h
  exact List.tail_eq_of_cons_eq hmaterial

/-- A journal of one record. -/
noncomputable def pushed (atomId : String) : Disk :=
  (@append formats ⟨true, true⟩ [admission atomId] ⟨.text [], .text ['\n']⟩).2

/-- The same files, with the record edited. -/
noncomputable def edited : Disk := { pushed "a" with journal := (pushed "b").journal }

theorem pushed_eq (atomId : String) : pushed atomId =
    ⟨.text (joined [objectOf (admission atomId)]),
      .text (@foldOf formats [objectOf (admission atomId)] ++ ['\n'])⟩ := rfl

theorem lines_pushed (atomId : String) (head : Content) :
    (@readJournal formats ⟨(pushed atomId).journal, head⟩).lines = [objectOf (admission atomId)] := by
  rw [pushed_eq]
  apply linesOf_joined
  intro line hline
  rw [List.mem_singleton.mp hline]
  exact @isLine_canonicalJson formats lawfulFormats (admission atomId)

theorem unbroken_pushed (atomId : String) (head : Content) :
    (@verifyChain formats ⟨(pushed atomId).journal, head⟩).breaks = [] := by
  have hrecord := @chained_spec formats lawfulFormats [] [admission atomId]
    [objectOf (admission atomId)] rfl
  rw [@breaks_eq formats, lines_pushed]
  exact hrecord.2 1

theorem tampered_edited : @Tampered formats edited := by
  refine .inr ?_
  have hcomputed : (@verifyChain formats edited).computedHead =
      @foldOf formats [objectOf (admission "b")] := by
    rw [@computedHead_eq formats, edited, lines_pushed]
  have hstored : (@verifyChain formats edited).storedHead =
      some (@foldOf formats [objectOf (admission "a")]) := by
    have hhead : edited.head = .text (@foldOf formats [objectOf (admission "a")] ++ ['\n']) := by
      rw [edited, pushed_eq "a"]
    have hdigest := @foldOf_not_blank formats lawfulFormats [objectOf (admission "a")]
    rw [@storedHead_eq formats, readHead, hhead,
      Content.readToString, Option.map_some, trim_digest hdigest]
  rw [hcomputed, hstored]
  intro heq
  exact absurd (admission_injective (fold_injective (Option.some.inj heq))) (by decide)

/-- The last record is edited, one more is appended, and nothing shows that it was. -/
theorem edited_record_is_forgotten :
    Function.Injective (@Formats.sha256Hex formats) ∧
      ¬ ∀ (disk : Disk) (calls : List (Weather × List JournalEntry)),
        @Tampered formats disk → @Tampered formats (@run formats disk calls) := by
  refine ⟨spelled_injective, fun h => ?_⟩
  have hlands := @append_lands formats lawfulFormats [admission "c"] edited
  rcases h edited [(⟨true, true⟩, [admission "c"])] tampered_edited with hbroken | hhead
  · refine hbroken ((@breaks_append formats lawfulFormats _ _ edited).trans ?_)
    exact unbroken_pushed "b" (pushed "a").head
  · exact hhead (@head_append formats edited lawfulFormats _ _ _ (List.cons_ne_nil _ _) hlands)

theorem tampering_is_remembered_pushed :
    (@verifyChain formats (pushed "a")).breaks = [] ∧
      ¬ @Tampered formats
        (@append formats ⟨true, true⟩ [admission "b"] (@run formats (pushed "a") [])).2 := by
  have hunbroken := unbroken_pushed "a" (pushed "a").head
  refine ⟨hunbroken, ?_⟩
  have hlands := @append_lands formats lawfulFormats [admission "b"] (pushed "a")
  exact ((@tampering_is_remembered formats lawfulFormats (pushed "a")).2 hunbroken [] ⟨true, true⟩
    [admission "b"] 1 _ (Prod.ext hlands rfl)).2.2 (.inl (List.cons_ne_nil _ _))

end Sample

end Tracefold.Db
