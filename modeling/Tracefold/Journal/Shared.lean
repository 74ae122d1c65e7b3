import Mathlib.Logic.Function.Basic
import Mathlib.Tactic.Common
import Tracefold.Ideal.Journal
import Tracefold.Journal.Held

/-! One chained file and the journals of any number of processes over it: the writer holds the lock
and has caught up, and its frame reaches the file in pieces, while others read what is there. -/

namespace Tracefold.JournalFile

open Library
open Library.Frames (lengthBytes Fits)
open Head (Digest JournalFormat journalMagic journalMagicV2 chainBytes maxRecordBytes link genesisLink)
open Ledger (Write)

/-- An append that is being written: what of its frame is not on the file yet, and the journal that
its writer has once all of it is. -/
structure Pending where
  rest : Bytes
  next : EngineJournal

/-- A journal's file, with the journals that processes have open on it and the one that holds the
lock. -/
structure Project (ι : Type) where
  file : Bytes
  journals : ι → Option EngineJournal
  holder : Option ι
  pending : Option Pending

namespace Project

variable {ι : Type} [DecidableEq ι]

/-- A process that is in the middle of an append does nothing else. -/
def Busy (project : Project ι) (i : ι) : Prop := project.pending.isSome ∧ project.holder = some i

def withJournal (project : Project ι) (i : ι) (journal : EngineJournal) : Project ι :=
  { project with journals := Function.update project.journals i (some journal) }

theorem withJournal_cases {project : Project ι} {i j : ι} {journal found : EngineJournal}
    (h : (project.withJournal i journal).journals j = some found) :
    j = i ∧ found = journal ∨ j ≠ i ∧ project.journals j = some found := by
  replace h : Function.update project.journals i (some journal) j = some found := h
  by_cases hj : j = i
  · subst hj
    rw [Function.update_self] at h
    exact .inl ⟨rfl, (Option.some.inj h).symm⟩
  · rw [Function.update_of_ne hj] at h
    exact .inr ⟨hj, h⟩

def unwritten (project : Project ι) : Bytes := (project.pending.map (·.rest)).getD []

section Steps

variable (hash : Bytes → Digest) [Cbor Record]

/-- What a process does next. The writer's door is for a moment in which nobody is writing. -/
inductive Step : Project ι → Project ι → Prop where
  | opened {project : Project ι} {i : ι} {declared : Option JournalFormat} {journal : EngineJournal}
      {file : Bytes} (quiet : project.pending = none)
      (open_ : EngineJournal.openDeclared hash declared (some project.file) = .ok (journal, file)) :
      Step project { project.withJournal i journal with file := file }
  | openedReadOnly {project : Project ι} {i : ι} {declared : Option JournalFormat}
      {journal : EngineJournal} (free : ¬ project.Busy i)
      (open_ : EngineJournal.openReadOnlyDeclared hash declared (some project.file) = .ok journal) :
      Step project (project.withJournal i journal)
  | acquired {project : Project ι} {i : ι} {journal next : EngineJournal} {records : List Record}
      (found : project.journals i = some journal) (unlocked : project.holder = none)
      (read : journal.catchUp hash project.file = (next, .ok records)) :
      Step project { project.withJournal i next with holder := some i }
  | refused {project : Project ι} {i : ι} {journal next : EngineJournal} {error : JournalError}
      (found : project.journals i = some journal) (unlocked : project.holder = none)
      (read : journal.catchUp hash project.file = (next, .error error)) :
      Step project (project.withJournal i next)
  | began {project : Project ι} {i : ι} {journal next : EngineJournal} {record : Record}
      {file : Bytes} {answer : Except JournalError ℕ} (locked : project.holder = some i)
      (quiet : project.pending = none) (found : project.journals i = some journal)
      (append : journal.append hash project.file record .done = (next, file, answer)) :
      Step project { project with pending := some ⟨file.drop project.file.length, next⟩ }
  | wrote {project : Project ι} {pending : Pending} (n : ℕ) (found : project.pending = some pending) :
      Step project
        { project with
          file := project.file ++ pending.rest.take n
          pending := some { pending with rest := pending.rest.drop n } }
  | finished {project : Project ι} {i : ι} {next : EngineJournal} (locked : project.holder = some i)
      (found : project.pending = some ⟨[], next⟩) :
      Step project { project.withJournal i next with pending := none }
  | released {project : Project ι} (quiet : project.pending = none) :
      Step project { project with holder := none }
  | peeked {project : Project ι} {i : ι} {journal next : EngineJournal}
      {answer : Except JournalError (List Record)} (free : ¬ project.Busy i)
      (found : project.journals i = some journal)
      (read : journal.catchUpUnlocked hash project.file = (next, answer)) :
      Step project (project.withJournal i next)

/-- A chained file that is whole and linked, and what processes have made of it since. -/
inductive Reachable : Project ι → Prop where
  | start {file : Bytes} (chained : (replay hash file).format.isChained)
      (whole : (replay hash file).recovery.tornTailBytes = 0)
      (linked : (replay hash file).chainBreak = none) :
      Reachable ⟨file, fun _ => none, none, none⟩
  | step {project next : Project ι} (before : Reachable project) (step : Step hash project next) :
      Reachable next

end Steps

end Project

section Follows

variable (hash : Bytes → Digest) [Cbor Record]

/-- A journal that has read some of the payloads that are, or are about to be, on a file, and all of
those from bytes that are on it. -/
def Follows (magic : Bytes) (all : List Bytes) (file : Bytes) (journal : EngineJournal) : Prop :=
  ∃ mine, mine <+: all ∧ Holds hash journal magic mine ∧ journal.chainBreak = none ∧
    journal.consumedBytes ≤ file.length

/-- One that has read all of them; a journal that is downgraded reads nothing. -/
def UpToDate (magic : Bytes) (all : List Bytes) (journal : EngineJournal) : Prop :=
  Holds hash journal magic all ∨ journal.downgraded = true

variable {hash} {magic : Bytes} {all : List Bytes} {file : Bytes} {journal : EngineJournal}

theorem Follows.mono (h : Follows hash magic all file journal) {all' : List Bytes} {file' : Bytes}
    (hall : all <+: all') (hfile : file.length ≤ file'.length) :
    Follows hash magic all' file' journal := by
  obtain ⟨mine, hmine, hholds, hbreak, hle⟩ := h
  exact ⟨mine, hmine.trans hall, hholds, hbreak, hle.trans hfile⟩

/-- A read takes a journal to the last whole frame of a file, and is refused only where the frame
behind it is not. -/
theorem Follows.readToTheEnd (h : Follows hash magic all file journal) {records : List Record}
    (hdecodes : List.Forall₂ Decodes all records) (hfile : file <+: written hash magic all)
    (hmagic : magic.length ≤ file.length) (underLock : Bool)
    (hlock : underLock = true → file = written hash magic all) :
    ∃ next arrived, journal.readToTheEnd hash file underLock = (next, .ok arrived) ∧
      Follows hash magic all file next ∧ next.downgraded = journal.downgraded ∧
      (file = written hash magic all → UpToDate hash magic all next) := by
  obtain ⟨mine, hmine, hholds, hbreak, hle⟩ := h
  cases hdowngraded : journal.downgraded with
  | true =>
    refine ⟨journal, [], ?_, ⟨mine, hmine, hholds, hbreak, hle⟩, hdowngraded,
      fun _ => .inr hdowngraded⟩
    rw [EngineJournal.readToTheEnd, if_pos hdowngraded]
  | false =>
    obtain ⟨read, rest, hread, hbytes, hrest, hreads, hwhole⟩ :=
      written_reads (fits_of_decodes hdecodes) hfile hmagic
    obtain ⟨more, rfl⟩ := hreads mine hmine (hholds.consumed ▸ hle)
    obtain ⟨unread, rfl⟩ := hread
    obtain ⟨known, unknown, rfl, hknown, -⟩ := decodes_append hdecodes
    obtain ⟨old, arrived, rfl, -, harrived⟩ := decodes_append hknown
    obtain ⟨next, hnext, hheld, hunbroken, hsame, -, -⟩ :=
      readToTheEnd_linked hholds hdowngraded harrived hrest hbytes underLock
        (fun hunder => (hwhole (hlock hunder)).2)
    refine ⟨next, arrived, hnext, ⟨mine ++ more, List.prefix_append .., hheld,
      hunbroken.trans hbreak, ?_⟩, hsame, fun hfile => .inl ?_⟩
    · rw [hheld.consumed, hbytes, List.length_append]
      exact Nat.le_add_right ..
    · rw [(hwhole hfile).1] at hheld
      exact hheld

end Follows

section Linear

variable {ι : Type} (hash : Bytes → Digest) [Cbor Record]

/-- All that is, or is about to be, on the file is one chained journal, which every process follows
and the one with the lock is up to date with. -/
structure Linear (project : Project ι) (magic : Bytes) (all : List Bytes) : Prop where
  marker : ∃ format : JournalFormat, format.marker = some magic
  decodes : ∃ records, List.Forall₂ Decodes all records
  file : project.file ++ project.unwritten = written hash magic all
  begun : magic.length ≤ project.file.length
  journals : ∀ i journal, project.journals i = some journal →
    Follows hash magic all project.file journal
  pending : ∀ pending, project.pending = some pending → project.holder.isSome ∧
    Follows hash magic all (project.file ++ pending.rest) pending.next ∧
    UpToDate hash magic all pending.next
  holder : ∀ i journal, project.holder = some i → project.pending = none →
    project.journals i = some journal → UpToDate hash magic all journal

variable {hash} {project next : Project ι} {magic : Bytes} {all : List Bytes}

theorem Linear.isPrefix (h : Linear hash project magic all) :
    project.file <+: written hash magic all := ⟨_, h.file⟩

theorem Linear.quiet (h : Linear hash project magic all) (hquiet : project.pending = none) :
    project.file = written hash magic all := by
  have hfile := h.file
  rw [Project.unwritten, hquiet] at hfile
  exact (List.append_nil _).symm.trans hfile

theorem Linear.quiet_of_unlocked (h : Linear hash project magic all)
    (hunlocked : project.holder = none) : project.pending = none := by
  cases hpending : project.pending with
  | none => rfl
  | some pending =>
    have hlocked := (h.pending pending hpending).1
    rw [hunlocked] at hlocked
    cases hlocked

theorem Linear.start {file : Bytes} (hchained : (replay hash file).format.isChained)
    (hwhole : (replay hash file).recovery.tornTailBytes = 0) :
    ∃ magic all, Linear hash (⟨file, fun _ => none, none, none⟩ : Project ι) magic all := by
  obtain ⟨magic, all, rest, hmarker, hfile, hdecodes, -, htorn, -⟩ := replay_reads hchained
  obtain rfl := List.length_eq_zero_iff.mp (htorn.symm.trans hwhole)
  refine ⟨magic, all, ⟨_, hmarker⟩, ⟨_, hdecodes⟩, hfile ▸ by simp [Project.unwritten], ?_,
    (fun _ _ hfound => nomatch hfound), (fun _ hpending => nomatch hpending),
    (fun _ _ hlocked => nomatch hlocked)⟩
  show magic.length ≤ file.length
  rw [hfile, List.append_nil, written, List.length_append]
  exact Nat.le_add_right ..

variable [DecidableEq ι]

theorem Linear.withJournal (h : Linear hash project magic all) (i : ι) {journal : EngineJournal}
    (hfollows : Follows hash magic all project.file journal)
    (hholder : project.holder = some i → project.pending = none →
      UpToDate hash magic all journal) :
    Linear hash (project.withJournal i journal) magic all where
  marker := h.marker
  decodes := h.decodes
  file := h.file
  begun := h.begun
  journals j found hfound := by
    rcases Project.withJournal_cases hfound with ⟨rfl, rfl⟩ | ⟨-, hfound⟩
    · exact hfollows
    · exact h.journals j found hfound
  pending := h.pending
  holder j found hlocked hquiet hfound := by
    rcases Project.withJournal_cases hfound with ⟨rfl, rfl⟩ | ⟨-, hfound⟩
    · exact hholder hlocked hquiet
    · exact h.holder j found hlocked hquiet hfound

variable [LawfulCbor Record]

omit [DecidableEq ι] in
theorem Linear.began (h : Linear hash project magic all) {i : ι} {journal after : EngineJournal}
    {record : Record} {file : Bytes} {answer : Except JournalError ℕ}
    (hlocked : project.holder = some i) (hquiet : project.pending = none)
    (hfound : project.journals i = some journal)
    (happend : journal.append hash project.file record .done = (after, file, answer)) :
    ∃ all', Linear hash { project with pending := some ⟨file.drop project.file.length, after⟩ }
      magic all' := by
  have hfile := h.quiet hquiet
  have hcurrent := h.holder i journal hlocked hquiet hfound
  have hnothing : after = journal → file = project.file →
      Linear hash { project with pending := some ⟨file.drop project.file.length, after⟩ } magic all := by
    rintro rfl rfl
    refine ⟨h.marker, h.decodes, ?_, h.begun, h.journals, ?_, fun _ _ _ hidle => nomatch hidle⟩
    · rw [Project.unwritten, Option.map_some, Option.getD_some, List.drop_length, List.append_nil]
      exact hfile
    · intro pending hpending
      cases hpending
      rw [List.drop_length, List.append_nil, hlocked]
      exact ⟨rfl, h.journals i _ hfound, hcurrent⟩
  rcases hcurrent with hholds | hdowngraded
  · rcases append_cases hholds project.file record .done with
      ⟨error, part, hfailed, hpart⟩ | ⟨payload, htakes, -, hdone⟩
    · rw [hfailed, hpart rfl, List.append_nil] at happend
      cases happend
      exact ⟨all, hnothing rfl rfl⟩
    · rw [hdone] at happend
      cases happend
      obtain ⟨records, hdecodes⟩ := h.decodes
      have hpushed := hholds.pushed htakes
      obtain ⟨mine, -, -, hbreak, -⟩ := h.journals i journal hfound
      refine ⟨all ++ [payload], h.marker,
        ⟨_, List.rel_append hdecodes (.cons htakes.decodes .nil)⟩, ?_, h.begun, ?_, ?_, fun _ _ _ hidle => nomatch hidle⟩
      · rw [Project.unwritten, Option.map_some, Option.getD_some, List.drop_left, written_sealed,
          hfile]
      · exact fun j found hfound => (h.journals j found hfound).mono (List.prefix_append ..) le_rfl
      · intro pending hpending
        cases hpending
        rw [hlocked]
        refine ⟨rfl, ⟨_, List.prefix_rfl, hpushed, hbreak, ?_⟩, .inl hpushed⟩
        rw [List.drop_left, hpushed.consumed, written_sealed, hfile]
  · obtain ⟨mine, -, hholds, -⟩ := h.journals i journal hfound
    obtain ⟨error, hrefused⟩ := append_of_not_takes hholds
      (not_takes_of_downgraded hdowngraded record) project.file .done
    rw [hrefused] at happend
    cases happend
    exact ⟨all, hnothing rfl rfl⟩

/-- No step of any process parts the journals from the file. -/
theorem Linear.step (h : Linear hash project magic all) (hstep : Project.Step hash project next) :
    ∃ all', Linear hash next magic all' := by
  obtain ⟨format, hmarker⟩ := h.marker
  obtain ⟨records, hdecodes⟩ := h.decodes
  cases hstep with
  | @opened i declared journal file hquiet hopen =>
    have hfile := h.quiet hquiet
    have hstamped := @stamped_written hash _ _ hmarker declared all []
    rw [List.append_nil, ← hfile] at hstamped
    obtain ⟨opened, cut, hopened, hholds, -, -, hbreak, -, -, -, hcut⟩ :=
      @openDeclaredCreating_written hash _ _ _ declared .permitted (some project.file) _ _ [] hmarker
        hdecodes Sealed.frame?_nil (.inl rfl)
        (hstamped.trans (hfile.trans (List.append_nil _).symm))
    rw [List.append_nil, ite_self, ← hfile] at hcut
    rw [show EngineJournal.openDeclaredCreating _ _ _ _ = _ from hopen, hcut] at hopened
    cases hopened
    refine ⟨all, h.withJournal i ⟨all, List.prefix_rfl, hholds, hbreak, ?_⟩ fun _ _ => .inl hholds⟩
    rw [hholds.consumed, hfile]
  | @openedReadOnly i declared journal _ hopen =>
    obtain ⟨mine, rest, hmine, hbytes, hrest, -, hwhole⟩ :=
      written_reads (fits_of_decodes hdecodes) h.isPrefix h.begun
    obtain ⟨more, rfl⟩ := hmine
    obtain ⟨known, unknown, rfl, hknown, -⟩ := decodes_append hdecodes
    obtain ⟨opened, hopened, hholds, hbreak⟩ :=
      @openReadOnlyDeclared_written hash _ _ _ _ _ _ hmarker hknown hrest declared
    rw [← hbytes, hopen] at hopened
    cases hopened
    refine ⟨mine ++ more, h.withJournal i ⟨mine, List.prefix_append .., hholds, hbreak, ?_⟩ ?_⟩
    · rw [hholds.consumed, hbytes, List.length_append]
      exact Nat.le_add_right ..
    · intro _ hquiet
      rw [(hwhole (h.quiet hquiet)).1] at hholds
      exact .inl hholds
  | @acquired i journal after arrived hfound hunlocked hread =>
    have hquiet := h.quiet_of_unlocked hunlocked
    have hfile := h.quiet hquiet
    obtain ⟨caught, _, hcaught, hfollows, -, hcurrent⟩ :=
      (h.journals i journal hfound).readToTheEnd hdecodes h.isPrefix h.begun true fun _ => hfile
    rw [show journal.readToTheEnd hash project.file true = _ from hread] at hcaught
    cases hcaught
    have hwith := h.withJournal i hfollows fun _ _ => hcurrent hfile
    refine ⟨all, hwith.marker, hwith.decodes, hwith.file, hwith.begun, hwith.journals, ?_, ?_⟩
    · exact fun pending hpending => nomatch hquiet.symm.trans hpending
    · rintro j found hlocked - hj
      rcases Project.withJournal_cases hj with ⟨-, rfl⟩ | ⟨hne, -⟩
      · exact hcurrent hfile
      · exact absurd (Option.some.inj hlocked).symm hne
  | @refused i journal after error hfound hunlocked hread =>
    have hfile := h.quiet (h.quiet_of_unlocked hunlocked)
    obtain ⟨caught, _, hcaught, -⟩ :=
      (h.journals i journal hfound).readToTheEnd hdecodes h.isPrefix h.begun true fun _ => hfile
    rw [show journal.readToTheEnd hash project.file true = _ from hread] at hcaught
    cases hcaught
  | @began i journal after record file answer hlocked hquiet hfound happend =>
    exact h.began hlocked hquiet hfound happend
  | @wrote pending n hfound =>
    obtain ⟨hlocked, hfollows, hcurrent⟩ := h.pending pending hfound
    have hlength : project.file.length ≤ (project.file ++ pending.rest.take n).length :=
      (List.prefix_append ..).length_le
    refine ⟨all, h.marker, h.decodes, ?_, h.begun.trans hlength, ?_, ?_, fun _ _ _ hidle => nomatch hidle⟩
    · have hfile := h.file
      rw [Project.unwritten, hfound, Option.map_some, Option.getD_some] at hfile
      rw [Project.unwritten, Option.map_some, Option.getD_some, List.append_assoc,
        List.take_append_drop]
      exact hfile
    · exact fun j found hj => (h.journals j found hj).mono List.prefix_rfl hlength
    · intro later hlater
      cases hlater
      rw [List.append_assoc, List.take_append_drop]
      exact ⟨hlocked, hfollows, hcurrent⟩
  | @finished i after hlocked hfound =>
    obtain ⟨-, hfollows, hcurrent⟩ := h.pending _ hfound
    rw [List.append_nil] at hfollows
    have hwith := h.withJournal i hfollows fun _ _ => hcurrent
    have hfile := h.file
    rw [Project.unwritten, hfound, Option.map_some, Option.getD_some] at hfile
    refine ⟨all, h.marker, h.decodes, hfile, h.begun, hwith.journals,
      (fun _ hidle => nomatch hidle), ?_⟩
    rintro j found hj - hjournal
    rcases Project.withJournal_cases hjournal with ⟨-, rfl⟩ | ⟨hne, -⟩
    · exact hcurrent
    · exact absurd (Option.some.inj (hlocked.symm.trans hj)).symm hne
  | released hquiet =>
    exact ⟨all, h.marker, h.decodes, h.file, h.begun, h.journals,
      (fun pending hpending => nomatch hquiet.symm.trans hpending), fun _ _ hnobody => nomatch hnobody⟩
  | @peeked i journal after answer hfree hfound hread =>
    obtain ⟨caught, _, hcaught, hfollows, -, hcurrent⟩ :=
      (h.journals i journal hfound).readToTheEnd hdecodes h.isPrefix h.begun false nofun
    rw [show journal.readToTheEnd hash project.file false = _ from hread] at hcaught
    cases hcaught
    exact ⟨all, h.withJournal i hfollows fun _ hquiet => hcurrent (h.quiet hquiet)⟩

theorem Project.Reachable.linear (h : Project.Reachable hash project) :
    ∃ magic all, Linear hash project magic all := by
  induction h with
  | start hchained hwhole _ => exact Linear.start hchained hwhole
  | step _ hstep ih =>
    obtain ⟨magic, all, hlinear⟩ := ih
    obtain ⟨all', hlinear⟩ := hlinear.step hstep
    exact ⟨magic, all', hlinear⟩

end Linear

section Linearised

variable {ι : Type} (hash : Bytes → Digest) [Cbor Record]

/-- A journal that has read a beginning of the records on its file, up to its offset, to the head of
the chain there; and that has read all of them whenever its process can write. -/
structure Linearised (project : Project ι) (i : ι) (journal : EngineJournal) : Prop where
  records : journal.records <+: (replay hash project.file).records
  offset : journal.consumedBytes ≤ project.file.length
  before : ∃ span, replay hash (project.file.take journal.consumedBytes) =
    { records := journal.records
      recovery := ⟨journal.records.length, 0⟩
      goodBytes := journal.consumedBytes
      tailSpan := span
      format := journal.format
      chain := journal.chain
      chainBreak := none }
  unbroken : journal.chainBreak = none
  caughtUp : project.holder = none → ∃ next arrived,
    journal.catchUp hash project.file = (next, .ok arrived) ∧
      (journal.downgraded = false → next.records = (replay hash project.file).records)
  writes : project.holder = some i → project.pending = none → journal.downgraded = false →
    journal.records = (replay hash project.file).records

variable {hash} {project : Project ι} {magic : Bytes} {all : List Bytes}

theorem Holds.records_eq {journal : EngineJournal} (h : Holds hash journal magic all)
    (hfile : project.file = written hash magic all) :
    journal.records = (replay hash project.file).records := by
  obtain ⟨span, hreplay⟩ := @replay_written journal.format hash _ magic h.marker _ _ h.decodes []
    Sealed.frame?_nil
  rw [hfile, ← List.append_nil (written hash magic all), hreplay]

theorem Linear.linearised (h : Linear hash project magic all) {i : ι} {journal : EngineJournal}
    (hfound : project.journals i = some journal) : Linearised hash project i journal := by
  obtain ⟨format, hmarker⟩ := h.marker
  obtain ⟨records, hdecodes⟩ := h.decodes
  have hfollows := h.journals i journal hfound
  obtain ⟨mine, hmine, hholds, hbreak, hle⟩ := id hfollows
  constructor
  case records =>
    obtain ⟨read, rest, ⟨unread, rfl⟩, hbytes, hrest, hreads, -⟩ :=
      written_reads (fits_of_decodes hdecodes) h.isPrefix h.begun
    obtain ⟨known, unknown, rfl, hknown, -⟩ := decodes_append hdecodes
    obtain ⟨more, rfl⟩ := hreads mine hmine (hholds.consumed ▸ hle)
    obtain ⟨span, hreplay⟩ := @replay_written format hash _ magic hmarker _ _ hknown _ hrest
    obtain ⟨old, arrived, rfl, hold, -⟩ := decodes_append hknown
    rw [hbytes, hreplay, decodes_unique hholds.decodes hold]
    exact List.prefix_append ..
  case offset => exact hle
  case before =>
    obtain ⟨span, hreplay⟩ := @replay_written journal.format hash _ magic hholds.marker _ _
      hholds.decodes [] Sealed.frame?_nil
    have htake : project.file.take journal.consumedBytes = written hash magic mine := by
      rw [hholds.consumed]
      exact (List.prefix_iff_eq_take.mp (List.prefix_of_prefix_length_le (written_isPrefix hmine)
        h.isPrefix (hholds.consumed ▸ hle))).symm
    refine ⟨span, ?_⟩
    rw [htake, ← List.append_nil (written hash magic mine), hreplay, hholds.consumed, hholds.chain]
    rfl
  case unbroken => exact hbreak
  case caughtUp =>
    intro hunlocked
    have hfile := h.quiet (h.quiet_of_unlocked hunlocked)
    obtain ⟨next, arrived, hread, -, hsame, hcurrent⟩ :=
      hfollows.readToTheEnd hdecodes h.isPrefix h.begun true fun _ => hfile
    refine ⟨next, arrived, hread, fun hdowngraded => ?_⟩
    rcases hcurrent hfile with hnext | hnext
    · exact hnext.records_eq hfile
    · rw [hsame, hdowngraded] at hnext
      cases hnext
  case writes =>
    intro hlocked hquiet hdowngraded
    rcases h.holder i journal hlocked hquiet hfound with hcurrent | hcurrent
    · exact hcurrent.records_eq (h.quiet hquiet)
    · rw [hdowngraded] at hcurrent
      cases hcurrent

/-- Whatever processes do with a chained file, one lock and reads without it, each of their journals
has read a beginning of what is on the file, and never finds its chain broken. -/
theorem journals_are_linearised [DecidableEq ι] [LawfulCbor Record]
    (h : Project.Reachable hash project) {i : ι} {journal : EngineJournal}
    (hfound : project.journals i = some journal) : Linearised hash project i journal := by
  obtain ⟨magic, all, hlinear⟩ := h.linear
  exact hlinear.linearised hfound

end Linearised

section LeftBehind

open Tracefold.Ideal
open Head (lastBytes frameOf)

/-- A journal of a file that has only the older marker, under a declaration. -/
def unwrittenJournal (declared : Option JournalFormat) : EngineJournal where
  records := []
  recovery := ⟨0, 0⟩
  consumedBytes := 8
  readOnly := false
  quarantined := none
  tail := none
  format := .chained
  chain := some (genesisLink lastBytes journalMagic)
  chainBreak := none
  downgraded := isDowngraded declared .chained
  fromANewerGx := false

def writtenJournal : EngineJournal :=
  ((unwrittenJournal none).append lastBytes journalMagic (draft 7) .done).1

def firstFrame : Bytes := frameOf (genesisLink lastBytes journalMagic) 7

/-- One process has put twenty bytes of a frame on the file; another has it open. -/
theorem half_written_reachable (declared : Option JournalFormat) :
    ∃ project : Project Bool, Project.Reachable lastBytes project ∧
      project.file = journalMagic ++ firstFrame.take 20 ∧
      project.journals true = some (unwrittenJournal declared) ∧ project.holder = some false ∧
      project.pending = some ⟨firstFrame.drop 20, writtenJournal⟩ := by
  have hfirst : EngineJournal.openDeclared lastBytes none (some journalMagic) =
      .ok (unwrittenJournal none, journalMagic) := by decide
  have hsecond : EngineJournal.openDeclared lastBytes declared (some journalMagic) =
      .ok (unwrittenJournal declared, journalMagic) := by
    rcases declared with _ | _ | _ | _ <;> decide
  have hread : (unwrittenJournal none).catchUp lastBytes journalMagic =
      (unwrittenJournal none, .ok []) := by decide
  have happend : (unwrittenJournal none).append lastBytes journalMagic (draft 7) .done =
      (writtenJournal, journalMagic ++ firstFrame, .ok 0) := by decide
  have hstart : Project.Reachable lastBytes (⟨journalMagic, fun _ => none, none, none⟩ : Project Bool) :=
    .start rfl (by decide) (by decide)
  have hopened := hstart.step (@Project.Step.opened _ _ lastBytes _ _ false _ _ _ rfl hfirst)
  have hboth := hopened.step (@Project.Step.opened _ _ lastBytes _ _ true _ _ _ rfl hsecond)
  have hlocked := hboth.step (@Project.Step.acquired _ _ lastBytes _ _ false _ _ _ rfl rfl hread)
  have hbegun := hlocked.step (.began rfl rfl rfl happend)
  exact ⟨_, hbegun.step (.wrote 20 rfl), rfl, rfl, rfl, rfl⟩

theorem journals_are_linearised_half_written :
    ∃ project : Project Bool, project.file = journalMagic ++ firstFrame.take 20 ∧
      Linearised lastBytes project true (unwrittenJournal none) := by
  obtain ⟨project, hreachable, hfile, hfound, -⟩ := half_written_reachable none
  exact ⟨project, hfile, journals_are_linearised hreachable hfound⟩

/-- A journal whose project declares more than the file is framed in takes the lock, and has not
read what is there. -/
theorem downgraded_journal_is_left_behind :
    ∃ (project : Project Bool) (journal : EngineJournal), Project.Reachable lastBytes project ∧
      project.journals true = some journal ∧ project.holder = some true ∧ project.pending = none ∧
      journal.records ≠ (replay lastBytes project.file).records := by
  obtain ⟨project, hreachable, hfile, hfound, hholder, hpending⟩ :=
    half_written_reachable (some .chainedV2)
  have hwritten := hreachable.step (.wrote 20 hpending)
  have hrest : (firstFrame.drop 20).drop 20 = [] := by decide
  have hfinished := hwritten.step (@Project.Step.finished _ _ lastBytes _ _ false writtenJournal
    hholder (congrArg (fun rest => some (Pending.mk rest writtenJournal)) hrest))
  have hreleased := hfinished.step (.released rfl)
  refine ⟨_, unwrittenJournal (some .chainedV2), hreleased.step (@Project.Step.acquired _ _ lastBytes
    _ _ true (unwrittenJournal (some .chainedV2)) (unwrittenJournal (some .chainedV2)) [] hfound rfl rfl),
    rfl, rfl, rfl, ?_⟩
  show [] ≠ (replay lastBytes (project.file ++ (firstFrame.drop 20).take 20)).records
  rw [hfile]
  decide

end LeftBehind

end Tracefold.JournalFile
