import Mathlib.Tactic.Common
import Tracefold.Journal.Intact

/-! A chained journal after what can go wrong with its file: writes and syncs that fail under a
process that goes on, and a cut at any byte. -/

namespace Tracefold.JournalFile

open Library
open Library.Frames (lengthBytes Fits)
open Head (Digest JournalFormat journalMagic journalMagicV2 chainBytes maxRecordBytes link genesisLink)
open Ledger (Write)

section Appends

variable (hash : Bytes → Digest) [Cbor Record]

/-- The record of an append that was answered with a sequence number. -/
def acknowledged (record : Record) : Except JournalError ℕ → List Record
  | .ok _ => [record]
  | .error _ => []

/-- The runs of appends to one open journal, every one of them allowed, with the records whose
appends succeeded. -/
inductive Appended (allowed : EngineJournal → Bytes → Record → Write → Prop) (opened : EngineJournal)
    (found : Bytes) : EngineJournal → Bytes → List Record → Prop where
  | start : Appended allowed opened found opened found []
  | append {journal next : EngineJournal} {file file' : Bytes} {succeeded : List Record}
      {record : Record} {write : Write} {answer : Except JournalError ℕ}
      (before : Appended allowed opened found journal file succeeded)
      (allows : allowed journal file record write)
      (append : journal.append hash file record write = (next, file', answer)) :
      Appended allowed opened found next file' (succeeded ++ acknowledged record answer)

/-- An append that puts bytes on the file finds none there that a failed one has left. -/
def Unspoilt (journal : EngineJournal) (file : Bytes) (record : Record) (write : Write) : Prop :=
  file.length = journal.consumedBytes ∨ (∀ payload, ¬ Takes journal record payload) ∨ write = .cut 0

/-- A journal whose records are read back from its file, at the front of an unbroken chain. -/
structure Durable (journal : EngineJournal) (file : Bytes) : Prop where
  held : ∃ magic payloads, Holds hash journal magic payloads ∧ written hash magic payloads <+: file
  records : journal.records <+: (replay hash file).records
  unbroken : (replay hash file).chainBreak = none

variable {hash} {journal next : EngineJournal} {file file' : Bytes}

theorem Holds.durable {magic : Bytes} {payloads : List Bytes}
    (h : Holds hash journal magic payloads) {rest : Bytes}
    (hrest : Sealed.frame? maxRecordBytes chainBytes rest = none) :
    Durable hash journal (written hash magic payloads ++ rest) := by
  obtain ⟨span, hreplay⟩ := @replay_written journal.format hash _ magic h.marker _ _ h.decodes _ hrest
  constructor
  case held => exact ⟨magic, payloads, h, List.prefix_append ..⟩
  case records => rw [hreplay]
  case unbroken => rw [hreplay]

theorem durable_of_open {declared : Option JournalFormat} {creation : JournalCreation}
    {found : Option Bytes}
    (hopen : EngineJournal.openDeclaredCreating hash declared creation found = .ok (journal, file))
    (hchained : journal.format.isChained) (hunbroken : journal.chainBreak = none) :
    Durable hash journal file := by
  obtain ⟨magic, payloads, rest, hholds, hstamped, hprefix, hcut⟩ :=
    openDeclaredCreating_cases hopen hchained
  unfold EngineJournal.openDeclaredCreating at hopen
  split at hopen
  next => cases hopen
  obtain ⟨hjournal, hfile⟩ := Prod.mk.inj (Except.ok.inj hopen)
  split at hfile
  next htorn =>
    have hwhole : file = written hash magic payloads ++ [] := by
      rw [List.append_nil]
      apply hcut hunbroken
      rw [← hjournal]
      exact Bool.eq_false_iff.mpr (of_decide_eq_true htorn).2.1
    rw [hwhole]
    exact hholds.durable Sealed.frame?_nil
  next =>
    constructor
    case held => exact ⟨magic, payloads, hholds, hprefix⟩
    case records =>
      rw [← hjournal, ← hfile]
    case unbroken =>
      rw [← hjournal] at hunbroken
      rw [← hfile]
      exact Option.map_eq_none_iff.mp hunbroken

variable [LawfulCbor Record]

theorem Holds.durable_take {magic : Bytes} {payloads : List Bytes}
    (h : Holds hash journal magic payloads) {record : Record} {payload : Bytes}
    (htakes : Takes journal record payload) (n : ℕ) :
    Durable hash journal (written hash magic payloads ++
      (sealedFrame hash (tip hash magic payloads) payload).take n) := by
  by_cases hn : n < (sealedFrame hash (tip hash magic payloads) payload).length
  · apply h.durable
    apply Sealed.frame?_cut maxRecordBytes_lt htakes.decodes.1
    · exact (link hash (tip hash magic payloads) payload).2
    · exact hn
  · have hpushed := (h.pushed htakes).durable Sealed.frame?_nil
    rw [List.append_nil, written_sealed] at hpushed
    rw [List.take_of_length_le (not_lt.mp hn)]
    constructor
    case held => exact ⟨magic, payloads, h, List.prefix_append ..⟩
    case records => exact (List.prefix_append ..).trans hpushed.records
    case unbroken => exact hpushed.unbroken

theorem Durable.append (h : Durable hash journal file) {record : Record} {write : Write}
    {answer : Except JournalError ℕ} (hunspoilt : Unspoilt journal file record write)
    (happend : journal.append hash file record write = (next, file', answer)) :
    Durable hash next file' ∧ next.records = journal.records ++ acknowledged record answer := by
  obtain ⟨magic, payloads, hholds, rest, rfl⟩ := h.held
  have hfailed : ∀ error : JournalError,
      journal.records = journal.records ++ acknowledged record (.error error) :=
    fun _ => (List.append_nil _).symm
  by_cases hnothing : (∀ payload, ¬ Takes journal record payload) ∨ write = .cut 0
  · obtain ⟨error, hrefused⟩ :=
      append_puts_nothing hholds hnothing (written hash magic payloads ++ rest)
    rw [hrefused] at happend
    cases happend
    exact ⟨h, hfailed error⟩
  · obtain ⟨payload, htakes⟩ := not_forall_not.mp (not_or.mp hnothing).1
    have hempty : rest = [] := by
      have hlength := hunspoilt.resolve_right hnothing
      rw [hholds.consumed, List.length_append] at hlength
      exact List.length_eq_zero_iff.mp (by omega)
    rw [hempty, List.append_nil] at happend
    obtain ⟨hcut, hunsynced, hdone⟩ := append_of_takes hholds htakes (written hash magic payloads)
    cases write with
    | cut n =>
      rw [hcut] at happend
      cases happend
      exact ⟨hholds.durable_take htakes n, hfailed _⟩
    | unsynced =>
      rw [hunsynced] at happend
      cases happend
      have hwhole := hholds.durable_take htakes
        (sealedFrame hash (tip hash magic payloads) payload).length
      rw [List.take_length] at hwhole
      exact ⟨hwhole, hfailed _⟩
    | done =>
      rw [hdone] at happend
      cases happend
      have hpushed := (hholds.pushed htakes).durable Sealed.frame?_nil
      rw [List.append_nil, written_sealed] at hpushed
      exact ⟨hpushed, rfl⟩

/-- Whatever writes and syncs fail, a journal that was opened unbroken is read back, when it is
opened again, with every record whose append succeeded, in a run where no append puts bytes behind
those that a failed one has left. -/
theorem successful_appends_are_read_back {declared : Option JournalFormat}
    {creation : JournalCreation} {found : Option Bytes} {opened : EngineJournal} {start : Bytes}
    (hopen : EngineJournal.openDeclaredCreating hash declared creation found = .ok (opened, start))
    (hchained : opened.format.isChained) (hunbroken : opened.chainBreak = none)
    {succeeded : List Record} (h : Appended hash Unspoilt opened start journal file succeeded)
    (declared' : Option JournalFormat) (creation' : JournalCreation) :
    ∃ reopened kept, EngineJournal.openDeclaredCreating hash declared' creation' (some file) =
        .ok (reopened, kept) ∧
      opened.records ++ succeeded <+: reopened.records ∧ reopened.chainBreak = none := by
  have hdurable : Durable hash journal file ∧ journal.records = opened.records ++ succeeded := by
    induction h with
    | start => exact ⟨durable_of_open hopen hchained hunbroken, (List.append_nil _).symm⟩
    | append _ hallows happend ih =>
      obtain ⟨hdurable, hrecords⟩ := ih
      obtain ⟨hnext, hnextRecords⟩ := hdurable.append hallows happend
      rw [hnextRecords, hrecords, List.append_assoc]
      exact ⟨hnext, rfl⟩
  obtain ⟨hdurable, hrecords⟩ := hdurable
  obtain ⟨magic, payloads, hholds, rest, rfl⟩ := hdurable.held
  unfold EngineJournal.openDeclaredCreating
  rw [if_neg (fun hmissing => nomatch hmissing.1), Option.getD_some,
    stamped_written hholds.marker]
  refine ⟨_, _, rfl, ?_, ?_⟩
  · rw [← hrecords]
    exact hdurable.records
  · exact Option.map_eq_none_iff.mpr hdurable.unbroken

end Appends

section Failed

open Tracefold.Ideal
open Head (lastBytes oneRecord frameOf)

/-- A record, and a second one whose write fails halfway. -/
theorem successful_appends_are_read_back_once :
    ∃ file reopened kept, Appended lastBytes Unspoilt madeJournal journalMagicV2 heldJournal file
        [draft 7] ∧
      EngineJournal.openDeclaredCreating lastBytes none .permitted (some file) =
        .ok (reopened, kept) ∧
      [draft 7] <+: reopened.records ∧ reopened.chainBreak = none := by
  have hsecond : heldJournal.append lastBytes oneRecord (draft 9) (.cut 20) =
      (heldJournal, oneRecord ++ (frameOf (link lastBytes (genesisLink lastBytes journalMagicV2) [7])
        9).take 20, .error .io) := by decide
  have hstart : Appended lastBytes Unspoilt madeJournal journalMagicV2 _ _ _ := .start
  have hrun := (hstart.append (.inl rfl) append_made).append (.inl (by decide)) hsecond
  obtain ⟨reopened, kept, hreopened, hrecords, hunbroken⟩ :=
    successful_appends_are_read_back openDeclaredCreating_made rfl rfl hrun none .permitted
  exact ⟨_, reopened, kept, hrun, hreopened, hrecords, hunbroken⟩

/-- A record that was written but not synced stays on the file, and the next one, whose append
succeeds, is linked to the one before it. -/
theorem unsynced_record_breaks_the_chain :
    ∃ journal file reopened kept,
      Appended lastBytes (fun _ _ _ _ => True) madeJournal journalMagicV2 journal file [draft 9] ∧
      EngineJournal.openDeclaredCreating lastBytes none .permitted (some file) =
        .ok (reopened, kept) ∧
      draft 9 ∉ reopened.records ∧ reopened.chainBreak ≠ none := by
  have hfirst : madeJournal.append lastBytes journalMagicV2 (draft 7) .unsynced =
      (madeJournal, oneRecord, .error .io) := by decide
  have hsecond : (madeJournal.append lastBytes oneRecord (draft 9) .done).2 =
      (oneRecord ++ frameOf (genesisLink lastBytes journalMagicV2) 9, .ok 0) := by decide
  have hstart : Appended lastBytes (fun _ _ _ _ => True) madeJournal journalMagicV2 _ _ _ := .start
  have hrun := (hstart.append trivial hfirst).append trivial (Prod.ext rfl hsecond)
  refine ⟨_, _, _, _, hrun, rfl, ?_, ?_⟩
  · decide
  · decide

end Failed

section Cut

variable (hash : Bytes → Digest) [Cbor Record]

/-- A journal that the writer's door has made and appends that all succeeded, with the length that
each of them has left the file at. -/
inductive Recorded (declared : Option JournalFormat) : EngineJournal → Bytes → List ℕ → Prop where
  | made {journal : EngineJournal} {file : Bytes}
      (open_ : EngineJournal.openDeclared hash declared none = .ok (journal, file)) :
      Recorded declared journal file []
  | append {journal next : EngineJournal} {file file' : Bytes} {ends : List ℕ} {record : Record}
      {write : Write} {index : ℕ} (before : Recorded declared journal file ends)
      (append : journal.append hash file record write = (next, file', .ok index)) :
      Recorded declared next file' (ends ++ [file'.length])

/-- A record that a framing covers, and that has a form within the ceiling. -/
def Admissible (format : JournalFormat) (record : Record) : Prop :=
  record.minimumFormat.vocabularyRank ≤ format.vocabularyRank ∧
    ∃ payload, Cbor.encode record = some payload ∧ payload.length ≤ maxRecordBytes

/-- Bytes that are opened, under what the project declares, as a sound journal in the framing of
another, with those of its records that end within them; and that takes a record more, which the
next process to open the file reads. -/
def Recovers (declared : Option JournalFormat) (journal : EngineJournal) (ends : List ℕ)
    (bytes : Bytes) : Prop :=
  ∃ reopened file, EngineJournal.openDeclared hash declared (some bytes) = .ok (reopened, file) ∧
    reopened.format = journal.format ∧ reopened.format.isChained ∧
    (∃ k ≤ ends.length, (∀ i (hi : i < ends.length), i < k ↔ ends[i] ≤ bytes.length) ∧
      reopened.records = journal.records.take k) ∧
    reopened.downgraded = false ∧ reopened.chainBreak = none ∧
    ∀ record, Admissible journal.format record →
      ∃ next file' index again file'',
        reopened.append hash file record .done = (next, file', .ok index) ∧
        EngineJournal.openDeclared hash declared (some file') = .ok (again, file'') ∧
        again.records = reopened.records ++ [record]

omit [Cbor Record] in
theorem framing_of_declared (declared : Option JournalFormat) :
    ∃ format magic, JournalFormat.marker format = some magic ∧ stamped declared [] = magic ∧
      isDowngraded declared format = false := by
  rcases declared with _ | _ | _ | _
  · exact ⟨.chainedV2, _, rfl, rfl, rfl⟩
  · exact ⟨.chainedV2, _, rfl, rfl, rfl⟩
  · exact ⟨.chained, _, rfl, rfl, rfl⟩
  · exact ⟨.chainedV2, _, rfl, rfl, rfl⟩

/-- A journal that has written all of its file, in the framing that its project declares, and that
refuses no record but for its words. -/
structure Exact (declared : Option JournalFormat) (journal : EngineJournal) (magic : Bytes)
    (payloads : List Bytes) : Prop where
  holds : Holds hash journal magic payloads
  made : stamped declared [] = magic
  declares : isDowngraded declared journal.format = false
  downgraded : journal.downgraded = false
  readOnly : journal.readOnly = false
  fromANewerGx : journal.fromANewerGx = false
  unbroken : journal.chainBreak = none

variable {hash} {declared : Option JournalFormat} {format : JournalFormat} {journal : EngineJournal}
  {file magic : Bytes} {payloads : List Bytes} {ends : List ℕ}

theorem exact_of_open (hmarker : format.marker = some magic) (hmade : stamped declared [] = magic)
    (hdeclares : isDowngraded declared format = false) {records : List Record}
    (h : List.Forall₂ Decodes payloads records) {rest : Bytes}
    (hrest : Sealed.frame? maxRecordBytes chainBytes rest = none) {found : Option Bytes}
    (hstamped : stamped declared (found.getD []) = written hash magic payloads ++ rest) :
    ∃ journal, EngineJournal.openDeclared hash declared found =
        .ok (journal, written hash magic payloads) ∧
      Exact hash declared journal magic payloads ∧ journal.format = format ∧
      journal.records = records := by
  obtain ⟨journal, file, hopen, hholds, hformat, hrecords, hunbroken, hdowngraded, hreadOnly, hnew,
    hfile⟩ := openDeclaredCreating_written hmarker h hrest (.inl rfl) hstamped
  rw [hdeclares, if_neg Bool.false_ne_true] at hfile
  rw [hfile] at hopen
  exact ⟨journal, hopen, ⟨hholds, hmade, hformat ▸ hdeclares, hdowngraded.trans hdeclares, hreadOnly,
    hnew, hunbroken⟩, hformat, hrecords⟩

theorem Exact.takes (h : Exact hash declared journal magic payloads) {record : Record}
    (hrecord : Admissible journal.format record) : ∃ payload, Takes journal record payload := by
  obtain ⟨hrank, payload, hencode, hle⟩ := hrecord
  refine ⟨payload, ?_, hencode, hle⟩
  rw [EngineJournal.refusal, h.readOnly, h.downgraded, h.fromANewerGx, if_neg (not_lt.mpr hrank),
    h.unbroken]
  rfl

variable [LawfulCbor Record]

theorem Exact.pushed (h : Exact hash declared journal magic payloads) {record : Record}
    {payload : Bytes} (htakes : Takes journal record payload) :
    Exact hash declared
      (journal.pushed record (sealedFrame hash (tip hash magic payloads) payload)
        (link hash (tip hash magic payloads) payload)) magic (payloads ++ [payload]) :=
  ⟨h.holds.pushed htakes, h.made, h.declares, h.downgraded, h.readOnly, h.fromANewerGx, h.unbroken⟩

/-- Such a journal takes a record more, and the next process to open the file reads it. -/
theorem Exact.takes_one_more (h : Exact hash declared journal magic payloads) {record : Record}
    (hrecord : Admissible journal.format record) :
    ∃ next file' index again file'',
      journal.append hash (written hash magic payloads) record .done = (next, file', .ok index) ∧
      EngineJournal.openDeclared hash declared (some file') = .ok (again, file'') ∧
      again.records = journal.records ++ [record] := by
  obtain ⟨payload, htakes⟩ := h.takes hrecord
  obtain ⟨-, -, hdone⟩ := append_of_takes h.holds htakes (written hash magic payloads)
  have hpushed := h.pushed htakes
  have hstamped := @stamped_written hash _ _ hpushed.holds.marker declared (payloads ++ [payload]) []
  rw [List.append_nil] at hstamped
  obtain ⟨again, hagain, -, -, hrecords⟩ := @exact_of_open hash _ _ _ _ _ hpushed.holds.marker
    hpushed.made hpushed.declares _ hpushed.holds.decodes [] Sealed.frame?_nil
    (some (written hash magic (payloads ++ [payload]))) (hstamped.trans (List.append_nil _).symm)
  rw [← written_sealed] at hdone
  exact ⟨_, _, _, again, _, hdone, hagain, hrecords⟩

theorem Recorded.exact (h : Recorded hash declared journal file ends) :
    ∃ magic payloads, Exact hash declared journal magic payloads ∧
      file = written hash magic payloads ∧ ends.length = payloads.length ∧
      ∀ i (hi : i < ends.length), ends[i] = (written hash magic (payloads.take (i + 1))).length := by
  induction h with
  | @made journal file hopen =>
    obtain ⟨format, magic, hmarker, hmade, hdeclares⟩ := framing_of_declared declared
    obtain ⟨made, hopened, hexact, -⟩ := @exact_of_open hash _ declared format magic [] hmarker hmade
      hdeclares [] .nil [] Sealed.frame?_nil none (by
        rw [Option.getD_none, hmade, List.append_nil]
        exact (List.append_nil magic).symm)
    rw [hopen] at hopened
    cases hopened
    exact ⟨magic, [], hexact, rfl, rfl, nofun⟩
  | @append journal next file file' ends record write index _ happend ih =>
    obtain ⟨magic, payloads, hexact, rfl, hlength, hends⟩ := ih
    rcases append_cases hexact.holds (written hash magic payloads) record write with
      ⟨error, part, hfailed, -⟩ | ⟨payload, htakes, -, hdone⟩
    · rw [hfailed] at happend
      cases happend
    · rw [hdone] at happend
      cases happend
      refine ⟨magic, payloads ++ [payload], hexact.pushed htakes, (written_sealed ..).symm, ?_, ?_⟩
      · simp only [List.length_append, List.length_singleton, hlength]
      · intro i hi
        rw [List.length_append, List.length_singleton] at hi
        by_cases hlast : i < ends.length
        · rw [List.getElem_append_left hlast, hends i hlast,
            List.take_append_of_le_length (hlength ▸ hlast)]
        · obtain rfl : i = ends.length := by omega
          rw [List.getElem_concat_length rfl, ← written_sealed, hlength,
            List.take_of_length_le (by rw [List.length_append, List.length_singleton])]

theorem Recorded.cut (h : Recorded hash declared journal file ends) {length : ℕ}
    (hlength : length ≤ file.length) (hwhole : length = 0 ∨ 8 ≤ length) :
    ∃ magic k rest payloads, Exact hash declared journal magic payloads ∧ k ≤ ends.length ∧
      (∀ i (hi : i < ends.length), i < k ↔ ends[i] ≤ (file.take length).length) ∧
      stamped declared (file.take length) = written hash magic (payloads.take k) ++ rest ∧
      Sealed.frame? maxRecordBytes chainBytes rest = none := by
  obtain ⟨magic, payloads, hexact, rfl, hcount, hends⟩ := h.exact
  have hmagic : magic.length = 8 := length_of_marker hexact.holds.marker
  rcases hwhole with rfl | hwhole
  · refine ⟨magic, 0, [], payloads, hexact, Nat.zero_le _, ?_, ?_, Sealed.frame?_nil⟩
    · intro i hi
      rw [hends i hi, List.take_zero, List.length_nil, written, List.length_append]
      omega
    · rw [List.take_zero, hexact.made, List.take_zero, List.append_nil]
      exact (List.append_nil magic).symm
  · have hcut : ((written hash magic payloads).take length).length = length := by
      rw [List.length_take]
      omega
    obtain ⟨k, rest, hk, htake, hrest, hbefore⟩ := written_cut hexact.holds.fits
      (List.take_prefix length (written hash magic payloads)) (by omega)
    refine ⟨magic, k, rest, payloads, hexact, hcount ▸ hk, ?_, ?_, hrest⟩
    · intro i hi
      rw [hends i hi]
      exact hbefore i (hcount ▸ hi)
    · rw [htake]
      exact stamped_written hexact.holds.marker ..

omit [LawfulCbor Record] in
theorem replay_of_short {bytes : Bytes} (h : bytes.length < 8) :
    (replay hash bytes).format = .legacy := by
  have hnot : ∀ {format : JournalFormat} {magic : Bytes}, format.marker = some magic →
      ¬ magic.isPrefixOf bytes := by
    intro format magic hmarker hprefix
    have hle := (List.isPrefixOf_iff_prefix.mp hprefix).length_le
    rw [length_of_marker hmarker] at hle
    omega
  unfold replay
  rw [if_neg (@hnot .chainedV2 _ rfl), if_neg (@hnot .chained _ rfl)]
  rfl

/-- A chained journal cut at any byte recovers, under every declaration, if and only if the cut is
not inside its marker. -/
theorem cut_journal_recovers_iff (h : Recorded hash declared journal file ends) {length : ℕ}
    (hlength : length ≤ file.length) :
    Recovers hash declared journal ends (file.take length) ↔ length = 0 ∨ 8 ≤ length := by
  constructor
  · rintro ⟨reopened, kept, hopen, -, hchained, -⟩
    by_contra hinside
    have hcut : (file.take length).length = length := by
      rw [List.length_take]
      omega
    have hstamped : stamped declared (file.take length) = file.take length := by
      unfold stamped
      rw [if_neg]
      intro hempty
      rw [List.isEmpty_iff.mp hempty, List.length_nil] at hcut
      omega
    unfold EngineJournal.openDeclared EngineJournal.openDeclaredCreating at hopen
    rw [if_neg (fun hmissing => nomatch hmissing.1), Option.getD_some, hstamped] at hopen
    obtain ⟨rfl, -⟩ := Prod.mk.inj (Except.ok.inj hopen)
    rw [show (replay hash (file.take length)).format = .legacy from
      replay_of_short (by omega)] at hchained
    cases hchained
  · intro hwhole
    obtain ⟨magic, k, rest, payloads, hexact, hk, hends, hstamped, hrest⟩ := h.cut hlength hwhole
    have hdecodes := List.forall₂_take k hexact.holds.decodes
    obtain ⟨reopened, hopen, hreopened, hformat, hrecords⟩ := @exact_of_open hash _ _ _ _ _
      hexact.holds.marker hexact.made hexact.declares _ hdecodes rest hrest (some (file.take length))
      hstamped
    refine ⟨reopened, _, hopen, hformat, hreopened.holds.isChained, ⟨k, hk, hends, hrecords⟩,
      hreopened.downgraded, hreopened.unbroken, fun record hrecord => ?_⟩
    rw [← hformat] at hrecord
    exact hreopened.takes_one_more hrecord

end Cut

section Torn

open Tracefold.Ideal
open Head (lastBytes oneRecord)

theorem recorded_held : Recorded lastBytes none heldJournal oneRecord [oneRecord.length] :=
  .append (.made openDeclaredCreating_made) append_made

theorem cut_journal_recovers_iff_halfway :
    Recovers lastBytes none heldJournal [oneRecord.length] (oneRecord.take 20) :=
  (cut_journal_recovers_iff recorded_held (by decide)).mpr (.inr (by decide))

/-- A marker of which three bytes have reached the file is cut off with the rest, and what was a
chained journal goes on as one without links. -/
theorem torn_marker_is_not_recovered :
    ∃ reopened, Recorded lastBytes none heldJournal oneRecord [oneRecord.length] ∧
      3 ≤ oneRecord.length ∧
      EngineJournal.openDeclared lastBytes none (some (oneRecord.take 3)) = .ok (reopened, []) ∧
      reopened.format = .legacy ∧ reopened.downgraded = false ∧
      ¬ Recovers lastBytes none heldJournal [oneRecord.length] (oneRecord.take 3) := by
  have hopen : ∃ reopened, EngineJournal.openDeclared lastBytes none (some (oneRecord.take 3)) =
      .ok (reopened, []) ∧ reopened.format = .legacy ∧ reopened.downgraded = false := by
    refine ⟨⟨[], ⟨0, 3⟩, 0, false, some (0, 3), none, .legacy, none, none, false, false⟩, ?_⟩
    decide
  obtain ⟨reopened, hopen, hformat, hdowngraded⟩ := hopen
  refine ⟨reopened, recorded_held, by decide, hopen, hformat, hdowngraded, ?_⟩
  rintro ⟨other, kept, hother, -, hchained, -⟩
  rw [hopen] at hother
  cases hother
  rw [hformat] at hchained
  cases hchained

end Torn

end Tracefold.JournalFile
