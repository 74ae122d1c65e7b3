import Mathlib.Tactic.Common
import Tracefold.Ideal.Journal
import Tracefold.Journal.Held

/-! The check of a journal's prefix against the bytes that a process has read or written: a walk
over the links, whose head commits to every one of them. -/

namespace Tracefold.JournalFile

open Library
open Library.Frames (lengthBytes u32FromBeBytes Fits)
open Head (Digest JournalFormat journalMagic journalMagicV2 chainBytes maxRecordBytes link genesisLink
  walkFrames walkLinks preimages sniff)
open Ledger (Write)

section Links

theorem head_frame?_eq (rest : Bytes) :
    Head.frame? rest = Sealed.frame? maxRecordBytes chainBytes rest := by
  unfold Head.frame? Sealed.frame? Frames.frame?
  dsimp only
  split
  next => rfl
  next =>
    split
    next => rfl
    next =>
      by_cases hpayload : rest.length < lengthBytes + u32FromBeBytes (rest.take lengthBytes)
      · rw [if_pos hpayload, if_pos (Nat.lt_add_right _ hpayload)]
      · rw [if_neg hpayload]
        dsimp only
        rw [List.length_drop, List.drop_drop]
        by_cases hlink : rest.length <
            lengthBytes + u32FromBeBytes (rest.take lengthBytes) + chainBytes
        · rw [if_pos hlink, if_pos (by omega)]
        · rw [if_neg hlink, if_neg (by omega)]

variable {hash : Bytes → Digest}

theorem walkFrames_linked {payloads : List Bytes}
    (hfits : ∀ payload ∈ payloads, Fits maxRecordBytes payload) {start : Digest}
    {records offset fuel : ℕ} (hfuel : (linked hash start payloads).length ≤ fuel) :
    walkFrames hash fuel start records offset (linked hash start payloads) =
      ⟨some (Chain.head (link hash) start payloads), records + payloads.length,
        offset + (linked hash start payloads).length, none⟩ := by
  induction payloads generalizing start records offset fuel with
  | nil =>
    cases fuel with
    | zero => rfl
    | succ fuel => rfl
  | cons payload payloads ih =>
    have hframe : Head.frame? (linked hash start (payload :: payloads)) =
        some (payload, (link hash start payload).1,
          linked hash (link hash start payload) payloads) := by
      rw [head_frame?_eq]
      apply Sealed.frame?_append maxRecordBytes_lt (hfits payload List.mem_cons_self)
      exact (link hash start payload).2
    have hlength : (linked hash start (payload :: payloads)).length =
        lengthBytes + payload.length + chainBytes +
          (linked hash (link hash start payload) payloads).length := by
      rw [← length_sealedFrame hash start]
      exact Sealed.length_laid_cons ..
    cases fuel with
    | zero =>
      rw [hlength, lengthBytes] at hfuel
      omega
    | succ fuel =>
      rw [walkFrames, hframe]
      dsimp only
      rw [if_neg (not_not.mpr rfl), ih (fun p hp => hfits p (List.mem_cons_of_mem _ hp)) (by
        rw [hlength, lengthBytes] at hfuel
        omega), hlength, List.length_cons]
      congr 1
      · omega
      · omega

theorem sniff_of_marker {format : JournalFormat} {magic : Bytes} (h : format.marker = some magic)
    (body : Bytes) : sniff (magic ++ body) = some magic := by
  cases format with
  | legacy => cases h
  | chained =>
    cases h
    rfl
  | chainedV2 =>
    cases h
    rfl

theorem walkLinks_written {format : JournalFormat} {magic : Bytes}
    (hmarker : format.marker = some magic) {payloads : List Bytes}
    (hfits : ∀ payload ∈ payloads, Fits maxRecordBytes payload) :
    walkLinks hash (written hash magic payloads) =
      ⟨some (tip hash magic payloads), payloads.length, (written hash magic payloads).length,
        none⟩ := by
  rw [walkLinks, written, sniff_of_marker hmarker]
  dsimp only
  rw [List.drop_left, walkFrames_linked hfits (List.suffix_append _ _).length_le, Nat.zero_add,
    List.length_append]
  rfl

end Links

section Kept

variable (hash : Bytes → Digest) [Cbor Record]

/-- A chained journal that a process has opened, appended to and caught up with, whatever the file
has held at each of these moments; and the bytes that it has read or written. -/
inductive Kept : EngineJournal → Bytes → Prop where
  | opened {declared : Option JournalFormat} {creation : JournalCreation} {file : Option Bytes}
      {journal : EngineJournal} {file' : Bytes}
      (open_ : EngineJournal.openDeclaredCreating hash declared creation file = .ok (journal, file'))
      (chained : journal.format.isChained) :
      Kept journal (file'.take journal.consumedBytes)
  | openedReadOnly {declared : Option JournalFormat} {file : Bytes} {journal : EngineJournal}
      (open_ : EngineJournal.openReadOnlyDeclared hash declared (some file) = .ok journal)
      (chained : journal.format.isChained) :
      Kept journal (file.take journal.consumedBytes)
  | appended {journal next : EngineJournal} {seen file file' : Bytes} {record : Record}
      {write : Write} {index : ℕ} (kept : Kept journal seen)
      (append : journal.append hash file record write = (next, file', .ok index)) :
      Kept next (seen ++ file'.drop file.length)
  | failed {journal next : EngineJournal} {seen file file' : Bytes} {record : Record}
      {write : Write} {error : JournalError} (kept : Kept journal seen)
      (append : journal.append hash file record write = (next, file', .error error)) :
      Kept next seen
  | caughtUp {journal next : EngineJournal} {seen file : Bytes} {underLock : Bool}
      {answer : Except JournalError (List Record)} (kept : Kept journal seen)
      (read : journal.readToTheEnd hash file underLock = (next, answer)) :
      Kept next
        (seen ++ (file.drop journal.consumedBytes).take (next.consumedBytes - journal.consumedBytes))

variable {hash} {journal : EngineJournal} {seen : Bytes}

/-- What a process has read or written is a chained journal of payloads that it holds. -/
theorem Kept.holds [LawfulCbor Record] (h : Kept hash journal seen) :
    ∃ magic payloads, Holds hash journal magic payloads ∧ seen = written hash magic payloads := by
  induction h with
  | @opened declared creation file journal file' hopen hchained =>
    obtain ⟨magic, payloads, rest, hholds, -, hprefix, -⟩ := openDeclaredCreating_cases hopen hchained
    refine ⟨magic, payloads, hholds, ?_⟩
    rw [hholds.consumed]
    exact (List.prefix_iff_eq_take.mp hprefix).symm
  | @openedReadOnly declared file journal hopen hchained =>
    obtain ⟨magic, payloads, rest, hholds, hfile⟩ := openReadOnlyDeclared_cases hopen hchained
    refine ⟨magic, payloads, hholds, ?_⟩
    rw [Option.some.inj hfile, hholds.consumed, List.take_left]
  | @appended journal next seen file file' record write index _ happend ih =>
    obtain ⟨magic, payloads, hholds, rfl⟩ := ih
    rcases append_cases hholds file record write with
      ⟨error, part, hfailed, -⟩ | ⟨payload, htakes, -, hdone⟩
    · rw [hfailed] at happend
      cases happend
    · rw [hdone] at happend
      cases happend
      refine ⟨magic, payloads ++ [payload], hholds.pushed htakes, ?_⟩
      rw [List.drop_left, written_sealed]
  | @failed journal next seen file file' record write error _ happend ih =>
    obtain ⟨magic, payloads, hholds, rfl⟩ := ih
    rcases append_cases hholds file record write with ⟨error, part, hfailed, -⟩ | ⟨payload, -, -, hdone⟩
    · rw [hfailed] at happend
      cases happend
      exact ⟨magic, payloads, hholds, rfl⟩
    · rw [hdone] at happend
      cases happend
  | @caughtUp journal next seen file underLock answer _ hread ih =>
    obtain ⟨magic, payloads, hholds, rfl⟩ := ih
    have hcases := readToTheEnd_cases hholds file underLock
    rw [hread] at hcases
    rcases hcases with rfl | ⟨more, rest, -, hdrop, hnext⟩
    · refine ⟨magic, payloads, hholds, ?_⟩
      rw [Nat.sub_self, List.take_zero, List.append_nil]
    · refine ⟨magic, payloads ++ more, hnext, ?_⟩
      rw [hdrop, hnext.consumed, hholds.consumed, written_append, List.length_append,
        Nat.add_sub_cancel_left, List.take_left]

/-- The prefix of a chained journal is found intact if and only if it is, byte for byte, what the
process has read or written. -/
theorem prefix_intact_iff [LawfulCbor Record] (h : Kept hash journal seen) (file : Option Bytes)
    (hfree : ∀ x ∈ preimages hash seen,
      ∀ y ∈ preimages hash ((file.getD []).take journal.consumedBytes), hash x = hash y → x = y) :
    journal.prefixIntact hash file = true ↔
      ∃ now, file = some now ∧ now.take journal.consumedBytes = seen := by
  obtain ⟨magic, payloads, hholds, rfl⟩ := h.holds
  have hwalk := @walkLinks_written hash _ _ hholds.marker _ hholds.fits
  have hpos : journal.consumedBytes ≠ 0 := by
    rw [hholds.consumed, written, List.length_append, length_of_marker hholds.marker]
    omega
  unfold EngineJournal.prefixIntact
  rw [if_neg hpos]
  cases file with
  | none => simp
  | some now =>
    dsimp only [Option.getD_some] at hfree ⊢
    split
    next hshorter =>
      constructor
      · intro hfalse
        cases hfalse
      · rintro ⟨_, hnow, htake⟩
        cases hnow
        have hlength := congrArg List.length htake
        rw [List.length_take, ← hholds.consumed] at hlength
        omega
    next hlength =>
      rw [if_pos hholds.isChained, decide_eq_true_iff]
      have htake : (now.take journal.consumedBytes).length = journal.consumedBytes := by
        rw [List.length_take]
        omega
      constructor
      · rintro ⟨hbreak, hgood, -, hhead⟩
        refine ⟨now, rfl, ?_⟩
        rw [hholds.chain] at hhead
        symm
        apply Head.walkLinks_injective hash _ hfree (congrArg _ hwalk) (congrArg _ hwalk)
          (congrArg _ hwalk) hbreak (hgood.trans htake.symm) hhead
        rw [htake, hholds.consumed]
      · rintro ⟨_, hnow, hseen⟩
        cases hnow
        rw [hseen, hwalk]
        exact ⟨rfl, hholds.consumed.symm, hholds.length, hholds.chain.symm⟩

end Kept

section Swapped

open Tracefold.Ideal
open Head (lastBytes oneRecord frameOf)

/-- A journal that has just been made, and the same one with a record written. -/
def madeJournal : EngineJournal where
  records := []
  recovery := ⟨0, 0⟩
  consumedBytes := 8
  readOnly := false
  quarantined := none
  tail := none
  format := .chainedV2
  chain := some (genesisLink lastBytes journalMagicV2)
  chainBreak := none
  downgraded := false
  fromANewerGx := false

def heldJournal : EngineJournal := (madeJournal.append lastBytes journalMagicV2 (draft 7) .done).1

/-- The same file with another record in the place of the one that was written. -/
def swapped : Bytes := journalMagicV2 ++ frameOf (genesisLink lastBytes journalMagicV2) 9

theorem openDeclaredCreating_made :
    EngineJournal.openDeclaredCreating lastBytes none .permitted none =
      .ok (madeJournal, journalMagicV2) := by decide

theorem append_made : madeJournal.append lastBytes journalMagicV2 (draft 7) .done =
    (heldJournal, oneRecord, .ok 0) := by decide

theorem kept_held : Kept lastBytes heldJournal oneRecord :=
  .appended (.opened openDeclaredCreating_made rfl) append_made

theorem prefix_intact_iff_swapped : heldJournal.prefixIntact lastBytes (some swapped) = false := by
  have hfree : ∀ x ∈ preimages lastBytes oneRecord,
      ∀ y ∈ preimages lastBytes (((some swapped).getD []).take heldJournal.consumedBytes),
        lastBytes x = lastBytes y → x = y := by decide
  rw [Bool.eq_false_iff]
  intro hintact
  obtain ⟨now, hnow, hseen⟩ := (prefix_intact_iff kept_held (some swapped) hfree).mp hintact
  cases hnow
  have hdiffers : swapped.take heldJournal.consumedBytes ≠ oneRecord := by decide
  exact hdiffers hseen

end Swapped

end Tracefold.JournalFile
