import Mathlib.Tactic.Common
import Tracefold.Journal.Store

/-! What a chained journal holds of its file: the records, the link and the offset of one list of
payloads. Every door gives such a journal, and an append and a read leave one. -/

namespace Tracefold.JournalFile

open Library
open Library.Frames (lengthBytes u32ToBeBytes Fits)
open Head (Digest JournalFormat journalMagic journalMagicV2 chainBytes maxRecordBytes link genesisLink)
open Ledger (Write)

variable (hash : Bytes → Digest)

/-- The bytes that a payload takes behind a link. -/
def sealedFrame (previous : Digest) (payload : Bytes) : Bytes :=
  Frames.frame payload ++ (link hash previous payload).1

theorem written_sealed (magic : Bytes) (payloads : List Bytes) (payload : Bytes) :
    written hash magic (payloads ++ [payload]) =
      written hash magic payloads ++ sealedFrame hash (tip hash magic payloads) payload :=
  written_concat ..

theorem length_sealedFrame (previous : Digest) (payload : Bytes) :
    (sealedFrame hash previous payload).length = lengthBytes + payload.length + chainBytes := by
  rw [sealedFrame, List.length_append, Frames.length_frame, (link hash previous payload).2]
  rfl

theorem framing_of_marker {format : JournalFormat} {magic : Bytes} (h : format.marker = some magic)
    (body : Bytes) : framingThisBuildDoesNotKnow (magic ++ body) = false := by
  cases format with
  | legacy => cases h
  | chained =>
    cases h
    have hprefix : journalMagic.isPrefixOf (journalMagic ++ body) := rfl
    simp [framingThisBuildDoesNotKnow, hprefix]
  | chainedV2 =>
    cases h
    have hprefix : journalMagicV2.isPrefixOf (journalMagicV2 ++ body) := rfl
    simp [framingThisBuildDoesNotKnow, hprefix]

variable [Cbor Record]

/-- A journal that has read or written some payloads of a chained file, and no others. -/
structure Holds (journal : EngineJournal) (magic : Bytes) (payloads : List Bytes) : Prop where
  marker : journal.format.marker = some magic
  decodes : List.Forall₂ Decodes payloads journal.records
  chain : journal.chain = some (tip hash magic payloads)
  consumed : journal.consumedBytes = (written hash magic payloads).length

variable {hash} {journal : EngineJournal} {magic : Bytes} {payloads : List Bytes}

theorem Holds.isChained (h : Holds hash journal magic payloads) : journal.format.isChained :=
  isChained_of_marker h.marker

theorem Holds.fits (h : Holds hash journal magic payloads) :
    ∀ payload ∈ payloads, Fits maxRecordBytes payload := fits_of_decodes h.decodes

theorem Holds.length (h : Holds hash journal magic payloads) :
    payloads.length = journal.records.length := h.decodes.length_eq

section Doors

variable {declared : Option JournalFormat} {creation : JournalCreation} {file : Option Bytes}

theorem openDeclaredCreating_cases {file' : Bytes}
    (h : EngineJournal.openDeclaredCreating hash declared creation file = .ok (journal, file'))
    (hchained : journal.format.isChained) :
    ∃ magic payloads rest, Holds hash journal magic payloads ∧
      stamped declared (file.getD []) = written hash magic payloads ++ rest ∧
      written hash magic payloads <+: file' ∧
      (journal.chainBreak = none → journal.downgraded = false →
        file' = written hash magic payloads) := by
  unfold EngineJournal.openDeclaredCreating at h
  split at h
  next => cases h
  generalize stamped declared (file.getD []) = bytes at h ⊢
  obtain ⟨rfl, rfl⟩ := Prod.mk.inj (Except.ok.inj h)
  dsimp only at hchained ⊢
  obtain ⟨magic, payloads, rest, hmarker, rfl, hdecodes, hgood, htorn, hchain⟩ :=
    replay_reads hchained
  have hnew : framingThisBuildDoesNotKnow (written hash magic payloads ++ rest) = false := by
    rw [written, List.append_assoc]
    exact framing_of_marker hmarker _
  refine ⟨magic, payloads, rest, ⟨hmarker, hdecodes, hchain, hgood⟩, rfl, ?_, ?_⟩
  · split
    · rw [hgood, List.take_left]
    · exact List.prefix_append ..
  · intro hbreak hdowngraded
    rw [hnew, hdowngraded, htorn, hgood, List.take_left]
    split
    next => rfl
    next hcut =>
      have hempty : rest.length = 0 := by
        by_contra hne
        have hbreak := Option.map_eq_none_iff.mp hbreak
        exact hcut (decide_eq_true ⟨Nat.pos_of_ne_zero hne, Bool.false_ne_true,
          Bool.false_ne_true, hbreak⟩)
      rw [List.length_eq_zero_iff.mp hempty, List.append_nil]

theorem openReadOnlyDeclared_cases
    (h : EngineJournal.openReadOnlyDeclared hash declared file = .ok journal)
    (hchained : journal.format.isChained) :
    ∃ magic payloads rest, Holds hash journal magic payloads ∧
      file = some (written hash magic payloads ++ rest) := by
  cases file with
  | none => cases h
  | some bytes =>
    cases Except.ok.inj h
    obtain ⟨magic, payloads, rest, hmarker, rfl, hdecodes, hgood, -, hchain⟩ :=
      @replay_reads hash _ bytes hchained
    exact ⟨magic, payloads, rest, ⟨hmarker, hdecodes, hchain, hgood⟩, rfl⟩

variable {format : JournalFormat} {records : List Record} {rest : Bytes}

omit [Cbor Record] in
theorem stamped_written (hmarker : format.marker = some magic) (declared : Option JournalFormat)
    (payloads : List Bytes) (rest : Bytes) :
    stamped declared (written hash magic payloads ++ rest) = written hash magic payloads ++ rest := by
  cases format with
  | legacy => cases hmarker
  | chained =>
    cases hmarker
    rfl
  | chainedV2 =>
    cases hmarker
    rfl

/-- What was written and a frame that is not whole are opened as what was written. -/
theorem openDeclaredCreating_written (hmarker : format.marker = some magic)
    (h : List.Forall₂ Decodes payloads records)
    (hrest : Sealed.frame? maxRecordBytes chainBytes rest = none)
    (hcreation : creation = .permitted ∨ file.isSome)
    (hstamped : stamped declared (file.getD []) = written hash magic payloads ++ rest) :
    ∃ journal file', EngineJournal.openDeclaredCreating hash declared creation file =
        .ok (journal, file') ∧
      Holds hash journal magic payloads ∧ journal.format = format ∧ journal.records = records ∧
      journal.chainBreak = none ∧ journal.downgraded = isDowngraded declared format ∧
      journal.readOnly = false ∧ journal.fromANewerGx = false ∧
      file' = if isDowngraded declared format then written hash magic payloads ++ rest
        else written hash magic payloads := by
  obtain ⟨span, hreplay⟩ := @replay_written format hash _ magic hmarker _ _ h _ hrest
  have hnew : framingThisBuildDoesNotKnow (written hash magic payloads ++ rest) = false := by
    rw [written, List.append_assoc]
    exact framing_of_marker hmarker _
  have hthere : ¬ (file = none ∧ creation = .refused) := by
    rintro ⟨rfl, rfl⟩
    rcases hcreation with hcreation | hcreation
    · cases hcreation
    · cases hcreation
  unfold EngineJournal.openDeclaredCreating
  rw [if_neg hthere, hstamped]
  dsimp only
  rw [hreplay, hnew]
  refine ⟨_, _, rfl, ⟨hmarker, h, rfl, rfl⟩, rfl, rfl, rfl, rfl, rfl, rfl, ?_⟩
  dsimp only
  rw [List.take_left]
  cases hdowngraded : isDowngraded declared format with
  | true => simp
  | false =>
    rcases rest with _ | ⟨byte, rest⟩
    · simp
    · simp

theorem openReadOnlyDeclared_written (hmarker : format.marker = some magic)
    (h : List.Forall₂ Decodes payloads records)
    (hrest : Sealed.frame? maxRecordBytes chainBytes rest = none) (declared : Option JournalFormat) :
    ∃ journal, EngineJournal.openReadOnlyDeclared hash declared
        (some (written hash magic payloads ++ rest)) = .ok journal ∧
      Holds hash journal magic payloads ∧ journal.chainBreak = none := by
  obtain ⟨span, hreplay⟩ := @replay_written format hash _ magic hmarker _ _ h _ hrest
  unfold EngineJournal.openReadOnlyDeclared
  dsimp only
  rw [hreplay]
  exact ⟨_, rfl, ⟨hmarker, h, rfl, rfl⟩, rfl⟩

end Doors

section Append

/-- The payload of a record that a journal takes. -/
def Takes (journal : EngineJournal) (record : Record) (payload : Bytes) : Prop :=
  journal.refusal record = none ∧ Cbor.encode record = some payload ∧
    payload.length ≤ maxRecordBytes

theorem not_takes_of_downgraded (h : journal.downgraded = true) (record : Record) (payload : Bytes) :
    ¬ Takes journal record payload := by
  rintro ⟨hrefusal, -, -⟩
  unfold EngineJournal.refusal at hrefusal
  rw [if_pos h] at hrefusal
  split at hrefusal
  next => cases hrefusal
  next => cases hrefusal

/-- A journal with one record more. -/
def EngineJournal.pushed (journal : EngineJournal) (record : Record) (framed : Bytes)
    (head : Digest) : EngineJournal :=
  { journal with
    records := journal.records ++ [record]
    tail := some ⟨journal.consumedBytes, framed⟩
    consumedBytes := journal.consumedBytes + framed.length
    chain := some head }

theorem sealOf_of_holds (h : Holds hash journal magic payloads) (payload : Bytes) :
    journal.sealOf hash payload = .ok (some (link hash (tip hash magic payloads) payload)) := by
  have hchained := h.isChained
  unfold EngineJournal.sealOf
  rw [h.chain]
  cases hformat : journal.format with
  | legacy =>
    rw [hformat] at hchained
    cases hchained
  | chained => rfl
  | chainedV2 => rfl

theorem append_of_not_takes (h : Holds hash journal magic payloads) {record : Record}
    (hrecord : ∀ payload, ¬ Takes journal record payload) (file : Bytes) (write : Write) :
    ∃ error, journal.append hash file record write = (journal, file, .error error) := by
  unfold EngineJournal.append
  cases hrefusal : journal.refusal record with
  | some error => exact ⟨error, rfl⟩
  | none =>
    cases hencode : Cbor.encode record with
    | none => exact ⟨.canon, rfl⟩
    | some payload =>
      have hover : maxRecordBytes < payload.length := by
        by_contra hle
        exact hrecord payload ⟨hrefusal, hencode, not_lt.mp hle⟩
      refine ⟨.overCeiling payload.length, ?_⟩
      dsimp only
      rw [sealOf_of_holds h]
      dsimp only
      rw [EngineJournal.writeAndSync, if_pos hover]

theorem append_of_takes (h : Holds hash journal magic payloads) {record : Record} {payload : Bytes}
    (hrecord : Takes journal record payload) (file : Bytes) :
    (∀ n, journal.append hash file record (.cut n) =
        (journal, file ++ (sealedFrame hash (tip hash magic payloads) payload).take n, .error .io)) ∧
      journal.append hash file record .unsynced =
        (journal, file ++ sealedFrame hash (tip hash magic payloads) payload, .error .io) ∧
      journal.append hash file record .done =
        (journal.pushed record (sealedFrame hash (tip hash magic payloads) payload)
            (link hash (tip hash magic payloads) payload),
          file ++ sealedFrame hash (tip hash magic payloads) payload,
          .ok journal.records.length) := by
  obtain ⟨hrefusal, hencode, hle⟩ := hrecord
  rw [EngineJournal.pushed, length_sealedFrame, ← Nat.add_assoc journal.consumedBytes]
  refine ⟨fun n => ?_, ?_, ?_⟩
  all_goals
    unfold EngineJournal.append
    rw [hrefusal]
    dsimp only
    rw [hencode]
    dsimp only
    rw [sealOf_of_holds h]
    dsimp only
    rw [EngineJournal.writeAndSync, if_neg (not_lt.mpr hle)]
    rfl

theorem append_puts_nothing (h : Holds hash journal magic payloads) {record : Record} {write : Write}
    (hnothing : (∀ payload, ¬ Takes journal record payload) ∨ write = .cut 0) (file : Bytes) :
    ∃ error, journal.append hash file record write = (journal, file, .error error) := by
  by_cases htakes : ∃ payload, Takes journal record payload
  · obtain ⟨payload, htakes⟩ := htakes
    rcases hnothing with hrecord | rfl
    · exact absurd htakes (hrecord payload)
    · have hcut := (append_of_takes h htakes file).1 0
      rw [List.take_zero, List.append_nil] at hcut
      exact ⟨.io, hcut⟩
  · exact append_of_not_takes h (not_exists.mp htakes) file write

/-- An append that fails leaves the journal as it was, with bytes behind the file only where the
write fails; one that succeeds has written the whole frame. -/
theorem append_cases (h : Holds hash journal magic payloads) (file : Bytes) (record : Record)
    (write : Write) :
    (∃ error part, journal.append hash file record write = (journal, file ++ part, .error error) ∧
        (write = .done → part = [])) ∨
      ∃ payload, Takes journal record payload ∧ write = .done ∧
        journal.append hash file record write =
          (journal.pushed record (sealedFrame hash (tip hash magic payloads) payload)
              (link hash (tip hash magic payloads) payload),
            file ++ sealedFrame hash (tip hash magic payloads) payload,
            .ok journal.records.length) := by
  by_cases htakes : ∃ payload, Takes journal record payload
  · obtain ⟨payload, htakes⟩ := htakes
    obtain ⟨hcut, hunsynced, hdone⟩ := append_of_takes h htakes file
    cases write with
    | cut n => exact .inl ⟨.io, _, hcut n, nofun⟩
    | unsynced => exact .inl ⟨.io, _, hunsynced, nofun⟩
    | done => exact .inr ⟨payload, htakes, rfl, hdone⟩
  · obtain ⟨error, hrefused⟩ := append_of_not_takes h (not_exists.mp htakes) file write
    refine .inl ⟨error, [], ?_, fun _ => rfl⟩
    rw [List.append_nil]
    exact hrefused

variable [LawfulCbor Record]

theorem Takes.decodes {record : Record} {payload : Bytes} (h : Takes journal record payload) :
    Decodes payload record :=
  ⟨⟨LawfulCbor.encode_length_pos h.2.1, h.2.2⟩, LawfulCbor.decode_encode h.2.1⟩

theorem Holds.pushed (h : Holds hash journal magic payloads) {record : Record} {payload : Bytes}
    (hrecord : Takes journal record payload) :
    Holds hash
      (journal.pushed record (sealedFrame hash (tip hash magic payloads) payload)
        (link hash (tip hash magic payloads) payload)) magic (payloads ++ [payload]) where
  marker := h.marker
  decodes := List.rel_append h.decodes (.cons hrecord.decodes .nil)
  chain := congrArg some (tip_concat ..).symm
  consumed := by
    rw [written_sealed, List.length_append, ← h.consumed]
    rfl

end Append

section Read

theorem readToTheEnd_cases (h : Holds hash journal magic payloads) (file : Bytes)
    (underLock : Bool) :
    (journal.readToTheEnd hash file underLock).1 = journal ∨
      ∃ more rest, journal.consumedBytes ≤ file.length ∧
        file.drop journal.consumedBytes = linked hash (tip hash magic payloads) more ++ rest ∧
        Holds hash (journal.readToTheEnd hash file underLock).1 magic (payloads ++ more) := by
  unfold EngineJournal.readToTheEnd
  split_ifs with hdowngraded hshorter hlock hend
  · exact .inl rfl
  · exact .inl rfl
  · exact .inl rfl
  · exact .inl rfl
  · obtain ⟨more, records, rest, span, break_, hbytes, hdecodes, hread⟩ :=
      @replayOnward_reads _ hash _ h.isChained (tip hash magic payloads)
        (file.drop journal.consumedBytes)
    rw [← h.chain] at hread
    dsimp only
    rw [hread]
    dsimp only
    split
    next htorn =>
      left
      obtain ⟨-, -, rfl⟩ := htorn
      rfl
    next =>
      right
      refine ⟨more, rest, not_lt.mp hshorter, hbytes, h.marker, ?_, ?_, ?_⟩
      · exact List.rel_append h.decodes hdecodes
      · exact congrArg some (tip_append ..).symm
      · rw [written_append, List.length_append, ← h.consumed]

/-- What others have written behind it, a journal reads, up to what is no whole frame. -/
theorem readToTheEnd_linked (h : Holds hash journal magic payloads)
    (hdowngraded : journal.downgraded = false) {file rest : Bytes} {more : List Bytes}
    {records : List Record} (hdecodes : List.Forall₂ Decodes more records)
    (hrest : Sealed.frame? maxRecordBytes chainBytes rest = none)
    (hfile : file = written hash magic (payloads ++ more) ++ rest) (underLock : Bool)
    (hlock : underLock = true → rest = []) :
    ∃ next, journal.readToTheEnd hash file underLock = (next, .ok records) ∧
      Holds hash next magic (payloads ++ more) ∧ next.chainBreak = journal.chainBreak ∧
      next.downgraded = false ∧ next.readOnly = journal.readOnly ∧
      next.fromANewerGx = journal.fromANewerGx := by
  have hlength : file.length =
      journal.consumedBytes + (linked hash (tip hash magic payloads) more ++ rest).length := by
    rw [hfile, written_append, List.append_assoc, List.length_append, h.consumed]
  have hdrop : file.drop journal.consumedBytes =
      linked hash (tip hash magic payloads) more ++ rest := by
    rw [hfile, written_append, List.append_assoc, h.consumed, List.drop_left]
  unfold EngineJournal.readToTheEnd
  rw [if_neg (Bool.eq_false_iff.mp hdowngraded), if_neg (by omega)]
  split
  next hend =>
    have hnil : linked hash (tip hash magic payloads) more ++ rest = [] :=
      List.length_eq_zero_iff.mp (by omega)
    cases hdecodes with
    | nil =>
      refine ⟨journal, rfl, ?_, rfl, hdowngraded, rfl, rfl⟩
      rwa [List.append_nil]
    | @cons payload record more records hdecodes =>
      have hframe := (List.append_eq_nil_iff.mp hnil).1
      rw [linked, Sealed.laid_cons] at hframe
      have hlength := congrArg List.length hframe
      simp [Frames.length_frame, lengthBytes] at hlength
  next =>
    obtain ⟨span, hread⟩ :=
      @replayOnward_linked _ hash _ h.isChained _ _ hdecodes (tip hash magic payloads) _ hrest
    rw [← h.chain, ← hdrop] at hread
    dsimp only
    rw [hread]
    dsimp only
    rw [if_neg (by
      rintro ⟨hpos, hunder, -⟩
      rw [hlock hunder] at hpos
      exact absurd hpos (lt_irrefl 0))]
    refine ⟨_, rfl, ⟨h.marker, ?_, ?_, ?_⟩, rfl, hdowngraded, rfl, rfl⟩
    · exact List.rel_append h.decodes hdecodes
    · exact congrArg some (tip_append ..).symm
    · rw [written_append, List.length_append, ← h.consumed]

end Read

end Tracefold.JournalFile
