import Mathlib.Data.List.Forall2
import Mathlib.Tactic.Common
import Tracefold.Cbor
import Tracefold.Journal
import Tracefold.Library.Sealed
import Tracefold.Rollback

/-! The journal's bytes, read back into the records they hold: the framing that the first of them
are sniffed as, and the walk over the frames, which stops at the first one that is not whole, is
not linked to those before it, or is no record. -/

namespace Tracefold

open Library
open Library.Frames (lengthBytes Fits Flow)
open Head (Digest JournalFormat journalMagic journalMagicV2 chainBytes maxRecordBytes link genesisLink)

/-- `EngineJournalRecord::minimum_format`. -/
def Record.minimumFormat : Record → JournalFormat
  | .about _ (.aborted _ (some .diverged)) _ => .chainedV2
  | _ => .legacy

namespace Head.JournalFormat

def marker : JournalFormat → Option Bytes
  | .legacy => none
  | .chained => some journalMagic
  | .chainedV2 => some journalMagicV2

def isChained : JournalFormat → Bool
  | .legacy => false
  | .chained => true
  | .chainedV2 => true

def vocabularyRank : JournalFormat → ℕ
  | .legacy => 1
  | .chained => 1
  | .chainedV2 => 2

/-- The bytes of a link behind every payload. -/
def linkBytes (format : JournalFormat) : ℕ := if format.isChained then chainBytes else 0

end Head.JournalFormat

namespace JournalFile

/-- `JOURNAL_MAGIC_PREFIX`: `GXJRNL`. -/
def journalMagicPrefix : Bytes := [71, 88, 74, 82, 78, 76]

def framingThisBuildDoesNotKnow (bytes : Bytes) : Bool :=
  journalMagic.length ≤ bytes.length ∧ journalMagicPrefix.isPrefixOf bytes ∧
    ¬ journalMagic.isPrefixOf bytes ∧ ¬ journalMagicV2.isPrefixOf bytes

structure ChainBreak where
  at_ : ℕ
  found : Bytes
  expected : Bytes
  deriving DecidableEq, Repr

structure Resume where
  format : JournalFormat
  chain : Option Digest

structure Recovery where
  records : ℕ
  tornTailBytes : ℕ
  deriving DecidableEq, Repr

structure Replay where
  records : List Record
  recovery : Recovery
  goodBytes : ℕ
  tailSpan : Option (ℕ × ℕ)
  format : JournalFormat
  chain : Option Digest
  chainBreak : Option ChainBreak
  deriving DecidableEq

/-- The variables of the loop of `walk`; `good` and `at` are the same in all its turns. -/
structure Walk where
  records : List Record
  good : ℕ
  tailSpan : Option (ℕ × ℕ)
  chain : Option Digest
  chainBreak : Option ChainBreak

section Read

variable (hash : Bytes → Digest)

/-- `genesis_link_of`. -/
def genesisLinkOf : JournalFormat → Option Digest
  | .legacy => none
  | .chained => some (genesisLink hash journalMagic)
  | .chainedV2 => some (genesisLink hash journalMagicV2)

/-- The check of a frame's link: the link that was verified, if the framing has them, or the one
that was found and the one that was expected. -/
def verify (format : JournalFormat) (chain : Option Digest) (payload stored : Bytes) :
    Except (Bytes × Bytes) (Option Digest) :=
  if format.isChained then
    match chain with
    | none => .error (List.replicate chainBytes 0, List.replicate chainBytes 0)
    | some previous =>
      let expected := link hash previous payload
      if stored ≠ expected.1 then .error (stored, expected.1) else .ok (some expected)
  else .ok none

variable [Cbor Record]

/-- One turn of the loop of `walk`, over a whole frame. The link is checked before the payload is
decoded. -/
def Walk.record (format : JournalFormat) (walk : Walk) (payload stored : Bytes) : Flow Walk :=
  match verify hash format walk.chain payload stored with
  | .error (found, expected) => .stop { walk with chainBreak := some ⟨walk.good, found, expected⟩ }
  | .ok verified =>
    match Cbor.decode (α := Record) payload with
    | none => .stop walk
    | some record =>
      let framed := lengthBytes + payload.length + format.linkBytes
      .next {
        records := walk.records ++ [record]
        good := walk.good + framed
        tailSpan := some (walk.good, framed)
        chain := verified.or walk.chain
        chainBreak := walk.chainBreak }

/-- `walk`. -/
def walk (bytes : Bytes) (from_ : ℕ) (resume : Resume) : Replay :=
  let last := Sealed.walk maxRecordBytes resume.format.linkBytes (Walk.record hash resume.format)
    bytes.length ⟨[], from_, none, resume.chain, none⟩ (bytes.drop from_)
  { records := last.records
    recovery := ⟨last.records.length, bytes.length - last.good⟩
    goodBytes := last.good
    tailSpan := last.tailSpan
    format := resume.format
    chain := if resume.format.isChained then last.chain else none
    chainBreak := last.chainBreak }

/-- `replay`. -/
def replay (bytes : Bytes) : Replay :=
  let (format, from_) :=
    if journalMagicV2.isPrefixOf bytes then (JournalFormat.chainedV2, journalMagicV2.length)
    else if journalMagic.isPrefixOf bytes then (JournalFormat.chained, journalMagic.length)
    else (JournalFormat.legacy, 0)
  walk hash bytes from_ ⟨format, genesisLinkOf hash format⟩

/-- `replay_onward`. -/
def replayOnward (bytes : Bytes) (resume : Resume) : Replay := walk hash bytes 0 resume

end Read

section Written

variable (hash : Bytes → Digest)

/-- Payloads as a chained journal lays them, from a link on. -/
def linked (start : Digest) (payloads : List Bytes) : Bytes :=
  Sealed.laid (link hash) Subtype.val start payloads

/-- A chained journal of some payloads, and the link after the last of them. -/
def written (magic : Bytes) (payloads : List Bytes) : Bytes :=
  magic ++ linked hash (genesisLink hash magic) payloads

def tip (magic : Bytes) (payloads : List Bytes) : Digest :=
  Chain.head (link hash) (genesisLink hash magic) payloads

theorem written_concat (magic : Bytes) (payloads : List Bytes) (payload : Bytes) :
    written hash magic (payloads ++ [payload]) =
      written hash magic payloads ++
        (Frames.frame payload ++ (link hash (tip hash magic payloads) payload).1) := by
  rw [written, linked, Sealed.laid_concat, ← List.append_assoc]
  rfl

theorem written_append (magic : Bytes) (payloads more : List Bytes) :
    written hash magic (payloads ++ more) =
      written hash magic payloads ++ linked hash (tip hash magic payloads) more := by
  rw [written, linked, Sealed.laid_append, ← List.append_assoc]
  rfl

theorem tip_append (magic : Bytes) (payloads more : List Bytes) :
    tip hash magic (payloads ++ more) = Chain.head (link hash) (tip hash magic payloads) more := by
  rw [tip, Chain.head, List.foldl_append]
  rfl

theorem tip_concat (magic : Bytes) (payloads : List Bytes) (payload : Bytes) :
    tip hash magic (payloads ++ [payload]) = link hash (tip hash magic payloads) payload :=
  Chain.head_concat ..

end Written

section Walked

theorem maxRecordBytes_lt : maxRecordBytes < 2 ^ 32 := by decide

theorem length_sub_good (front body rest : Bytes) :
    (front ++ (body ++ rest)).length - (front.length + body.length) = rest.length := by
  rw [List.length_append, List.length_append, ← Nat.add_assoc, Nat.add_sub_cancel_left]

variable {format : JournalFormat}

theorem linkBytes_of_isChained (h : format.isChained) : format.linkBytes = chainBytes := if_pos h

theorem isChained_of_marker {magic : Bytes} (h : format.marker = some magic) : format.isChained := by
  cases format with
  | legacy => cases h
  | chained => rfl
  | chainedV2 => rfl

theorem length_of_marker {magic : Bytes} (h : format.marker = some magic) : magic.length = 8 := by
  cases format with
  | legacy => cases h
  | chained =>
    cases h
    rfl
  | chainedV2 =>
    cases h
    rfl

variable {hash : Bytes → Digest} [Cbor Record]

/-- Payloads that a walk takes for records, and the records that it takes them for. -/
def Decodes (payload : Bytes) (record : Record) : Prop :=
  Fits maxRecordBytes payload ∧ Cbor.decode payload = some record

theorem fits_of_decodes {payloads : List Bytes} {records : List Record}
    (h : List.Forall₂ Decodes payloads records) : ∀ payload ∈ payloads, Fits maxRecordBytes payload := by
  induction h with
  | nil => exact fun _ hmem => absurd hmem List.not_mem_nil
  | cons hdecodes _ ih =>
    intro payload hmem
    rcases List.mem_cons.mp hmem with rfl | hmem
    · exact hdecodes.1
    · exact ih payload hmem

theorem decodes_append {payloads more : List Bytes} {records : List Record}
    (h : List.Forall₂ Decodes (payloads ++ more) records) :
    ∃ before after, records = before ++ after ∧ List.Forall₂ Decodes payloads before ∧
      List.Forall₂ Decodes more after := by
  have hbefore := List.forall₂_take payloads.length h
  have hafter := List.forall₂_drop payloads.length h
  rw [List.take_left] at hbefore
  rw [List.drop_left] at hafter
  exact ⟨_, _, (List.take_append_drop payloads.length records).symm, hbefore, hafter⟩

theorem decodes_unique {payloads : List Bytes} {records records' : List Record}
    (h : List.Forall₂ Decodes payloads records) (h' : List.Forall₂ Decodes payloads records') :
    records = records' := by
  induction h generalizing records' with
  | nil =>
    cases h'
    rfl
  | cons hdecodes _ ih =>
    cases h' with
    | cons hdecodes' h' =>
      rw [ih h', Option.some.inj (hdecodes.2.symm.trans hdecodes'.2)]

theorem Walk.record_of_decodes (hformat : format.isChained) {walk : Walk} {previous : Digest}
    (hchain : walk.chain = some previous) {payload : Bytes} {record : Record}
    (h : Decodes payload record) :
    ∃ next, Walk.record hash format walk payload (link hash previous payload).1 = .next next ∧
      next.records = walk.records ++ [record] ∧
      next.good = walk.good + (Frames.frame payload ++ (link hash previous payload).1).length ∧
      next.chain = some (link hash previous payload) ∧ next.chainBreak = walk.chainBreak := by
  have hverify : verify hash format walk.chain payload (link hash previous payload).1 =
      .ok (some (link hash previous payload)) := by
    unfold verify
    rw [if_pos hformat, hchain]
    exact if_neg (not_not.mpr rfl)
  have hlength : (Frames.frame payload ++ (link hash previous payload).1).length =
      lengthBytes + payload.length + format.linkBytes := by
    rw [List.length_append, Frames.length_frame, (link hash previous payload).2,
      linkBytes_of_isChained hformat]
    rfl
  rw [Walk.record, hverify, h.2, hlength]
  exact ⟨_, rfl, rfl, rfl, rfl, rfl⟩

theorem Walk.record_eq_next (hformat : format.isChained) {walk next : Walk} {previous : Digest}
    (hchain : walk.chain = some previous) {payload stored : Bytes}
    (h : Walk.record hash format walk payload stored = .next next) :
    stored = (link hash previous payload).1 ∧ ∃ record : Record, Cbor.decode payload = some record := by
  unfold Walk.record at h
  split at h
  next => cases h
  next hverify =>
    unfold verify at hverify
    rw [if_pos hformat, hchain] at hverify
    dsimp only at hverify
    split at hverify
    next => cases hverify
    next hlink =>
      split at h
      next => cases h
      next record hdecode => exact ⟨not_not.mp hlink, record, hdecode⟩

theorem Walk.record_eq_stop {walk last : Walk} {payload stored : Bytes}
    (h : Walk.record hash format walk payload stored = .stop last) :
    last = { walk with chainBreak := last.chainBreak } := by
  unfold Walk.record at h
  split at h
  next =>
    cases h
    rfl
  next =>
    split at h
    next =>
      cases h
      rfl
    next => cases h

theorem walk_linked (hformat : format.isChained) {payloads : List Bytes} {records : List Record}
    (h : List.Forall₂ Decodes payloads records) {start : Digest} {state : Walk}
    (hchain : state.chain = some start) {rest : Bytes} {fuel : ℕ}
    (hfuel : (linked hash start payloads ++ rest).length ≤ fuel) :
    ∃ fuel' span, rest.length ≤ fuel' ∧
      Sealed.walk maxRecordBytes format.linkBytes (Walk.record hash format) fuel state
          (linked hash start payloads ++ rest) =
        Sealed.walk maxRecordBytes format.linkBytes (Walk.record hash format) fuel'
          { records := state.records ++ records
            good := state.good + (linked hash start payloads).length
            tailSpan := span
            chain := some (Chain.head (link hash) start payloads)
            chainBreak := state.chainBreak } rest := by
  induction h generalizing start state fuel with
  | nil =>
    refine ⟨fuel, state.tailSpan, hfuel, ?_⟩
    rw [List.append_nil]
    show _ = Sealed.walk _ _ _ fuel { state with chain := some start } rest
    rw [← hchain]
    rfl
  | @cons payload record payloads records hdecodes _ ih =>
    have hframe : Sealed.frame? maxRecordBytes format.linkBytes
        (linked hash start (payload :: payloads) ++ rest) =
          some (payload, (link hash start payload).1,
            linked hash (link hash start payload) payloads ++ rest) := by
      rw [linked, Sealed.laid_cons, List.append_assoc]
      apply Sealed.frame?_append maxRecordBytes_lt hdecodes.1
      rw [linkBytes_of_isChained hformat]
      exact (link hash start payload).2
    cases fuel with
    | zero =>
      have hlt := Sealed.length_lt_of_frame? hframe
      omega
    | succ fuel =>
      obtain ⟨next, hrecord, hrecords, hgood, hnext, hbreak⟩ :=
        @Walk.record_of_decodes _ hash _ hformat _ _ hchain _ _ hdecodes
      obtain ⟨fuel', span, hfuel', hwalk⟩ := ih hnext
        (Nat.le_of_lt_succ (Nat.lt_of_lt_of_le (Sealed.length_lt_of_frame? hframe) hfuel))
      refine ⟨fuel', span, hfuel', ?_⟩
      rw [Sealed.walk_next hframe hrecord, hwalk, hrecords, hgood, hbreak, List.append_assoc,
        List.singleton_append, linked, linked, Sealed.length_laid_cons, Nat.add_assoc]
      rfl

theorem Walk.stopped {start : Digest} {state last : Walk} (hchain : state.chain = some start)
    (h : last = { state with chainBreak := last.chainBreak }) (bytes : Bytes) :
    ∃ payloads records rest span break_, bytes = linked hash start payloads ++ rest ∧
      List.Forall₂ Decodes payloads records ∧
      last =
        { records := state.records ++ records
          good := state.good + (linked hash start payloads).length
          tailSpan := span
          chain := some (Chain.head (link hash) start payloads)
          chainBreak := break_ } := by
  refine ⟨[], [], bytes, state.tailSpan, last.chainBreak, rfl, .nil, ?_⟩
  rw [List.append_nil]
  show last = { state with chain := some start, chainBreak := last.chainBreak }
  rw [← hchain]
  exact h

/-- Any bytes are linked frames, and then what is not whole, not linked or no record. -/
theorem walk_cases (hformat : format.isChained) {start : Digest} {state : Walk}
    (hchain : state.chain = some start) {bytes : Bytes} {fuel : ℕ} (hfuel : bytes.length ≤ fuel) :
    ∃ payloads records rest span break_, bytes = linked hash start payloads ++ rest ∧
      List.Forall₂ Decodes payloads records ∧
      Sealed.walk maxRecordBytes format.linkBytes (Walk.record hash format) fuel state bytes =
        { records := state.records ++ records
          good := state.good + (linked hash start payloads).length
          tailSpan := span
          chain := some (Chain.head (link hash) start payloads)
          chainBreak := break_ } := by
  induction fuel generalizing start state bytes with
  | zero => exact Walk.stopped hchain rfl bytes
  | succ fuel ih =>
    cases hframe : Sealed.frame? maxRecordBytes format.linkBytes bytes with
    | none =>
      rw [Sealed.walk_done hframe]
      exact Walk.stopped hchain rfl bytes
    | some frame =>
      obtain ⟨payload, stored, tail⟩ := frame
      cases hrecord : Walk.record hash format state payload stored with
      | stop last =>
        rw [Sealed.walk_stop hframe hrecord]
        exact Walk.stopped hchain (Walk.record_eq_stop hrecord) bytes
      | next next =>
        obtain ⟨hbytes, hfits, -⟩ := Sealed.frame?_eq_some hframe
        obtain ⟨rfl, record, hdecode⟩ := Walk.record_eq_next hformat hchain hrecord
        have htail : tail.length ≤ fuel :=
          Nat.le_of_lt_succ (Nat.lt_of_lt_of_le (Sealed.length_lt_of_frame? hframe) hfuel)
        obtain ⟨_, hrecord', hrecords, hgood, hnext, -⟩ :=
          @Walk.record_of_decodes _ hash _ hformat _ _ hchain _ _ ⟨hfits, hdecode⟩
        obtain rfl := Flow.next.inj (hrecord.symm.trans hrecord')
        obtain ⟨payloads, records, rest, span, break_, rfl, hdecodes, hwalk⟩ := ih hnext htail
        refine ⟨payload :: payloads, record :: records, rest, span, break_, ?_,
          .cons ⟨hfits, hdecode⟩ hdecodes, ?_⟩
        · rw [hbytes, ← List.append_assoc]
          rfl
        · rw [Sealed.walk_next hframe hrecord, hwalk, hrecords, hgood, List.append_assoc,
            List.singleton_append, linked, linked, Sealed.length_laid_cons, Nat.add_assoc]
          rfl

/-- Linked records are read back, up to what is no whole frame. -/
theorem walk_eq (hformat : format.isChained) {payloads : List Bytes} {records : List Record}
    (h : List.Forall₂ Decodes payloads records) (front : Bytes) (start : Digest) {rest : Bytes}
    (hrest : Sealed.frame? maxRecordBytes chainBytes rest = none) :
    ∃ span, walk hash (front ++ (linked hash start payloads ++ rest)) front.length
        ⟨format, some start⟩ =
      { records := records
        recovery := ⟨records.length, rest.length⟩
        goodBytes := front.length + (linked hash start payloads).length
        tailSpan := span
        format := format
        chain := some (Chain.head (link hash) start payloads)
        chainBreak := none } := by
  obtain ⟨fuel, span, -, hwalk⟩ := @walk_linked _ hash _ hformat _ _ h start
    ⟨[], front.length, none, some start, none⟩ rfl rest
    (front ++ (linked hash start payloads ++ rest)).length
    (List.suffix_append front _).length_le
  rw [← linkBytes_of_isChained hformat] at hrest
  refine ⟨span, ?_⟩
  unfold walk
  dsimp only
  rw [List.drop_left, hwalk, Sealed.walk_done hrest, if_pos hformat, length_sub_good]
  rfl

/-- Whatever is read of some bytes is linked records. -/
theorem walk_reads (hformat : format.isChained) (front : Bytes) (start : Digest) (body : Bytes) :
    ∃ payloads records rest span break_, body = linked hash start payloads ++ rest ∧
      List.Forall₂ Decodes payloads records ∧
      walk hash (front ++ body) front.length ⟨format, some start⟩ =
        { records := records
          recovery := ⟨records.length, rest.length⟩
          goodBytes := front.length + (linked hash start payloads).length
          tailSpan := span
          format := format
          chain := some (Chain.head (link hash) start payloads)
          chainBreak := break_ } := by
  obtain ⟨payloads, records, rest, span, break_, rfl, hdecodes, hwalk⟩ :=
    @walk_cases _ hash _ hformat start ⟨[], front.length, none, some start, none⟩ rfl body
      (front ++ body).length (List.suffix_append front body).length_le
  refine ⟨payloads, records, rest, span, break_, rfl, hdecodes, ?_⟩
  unfold walk
  dsimp only
  rw [List.drop_left, hwalk, if_pos hformat, length_sub_good]
  rfl

theorem replay_eq_walk {magic : Bytes} (hmarker : format.marker = some magic) (body : Bytes) :
    replay hash (magic ++ body) =
      walk hash (magic ++ body) magic.length ⟨format, some (genesisLink hash magic)⟩ := by
  cases format with
  | legacy => cases hmarker
  | chained =>
    cases hmarker
    rfl
  | chainedV2 =>
    cases hmarker
    rfl

theorem marker_of_replay {bytes : Bytes} (h : (replay hash bytes).format.isChained) :
    ∃ magic body, (replay hash bytes).format.marker = some magic ∧ bytes = magic ++ body := by
  by_cases hv2 : journalMagicV2.isPrefixOf bytes
  · obtain ⟨body, rfl⟩ := List.isPrefixOf_iff_prefix.mp hv2
    exact ⟨journalMagicV2, body, rfl, rfl⟩
  · by_cases hv1 : journalMagic.isPrefixOf bytes
    · obtain ⟨body, rfl⟩ := List.isPrefixOf_iff_prefix.mp hv1
      exact ⟨journalMagic, body, rfl, rfl⟩
    · unfold replay at h
      rw [if_neg hv2, if_neg hv1] at h
      cases h

theorem replay_written {magic : Bytes} (hmarker : format.marker = some magic) {payloads : List Bytes}
    {records : List Record} (h : List.Forall₂ Decodes payloads records) {rest : Bytes}
    (hrest : Sealed.frame? maxRecordBytes chainBytes rest = none) :
    ∃ span, replay hash (written hash magic payloads ++ rest) =
      { records := records
        recovery := ⟨records.length, rest.length⟩
        goodBytes := (written hash magic payloads).length
        tailSpan := span
        format := format
        chain := some (tip hash magic payloads)
        chainBreak := none } := by
  obtain ⟨span, hwalk⟩ := @walk_eq _ hash _ (isChained_of_marker hmarker) _ _ h magic
    (genesisLink hash magic) _ hrest
  refine ⟨span, ?_⟩
  rw [written, List.append_assoc, replay_eq_walk hmarker, hwalk, List.length_append]
  rfl

theorem replay_reads {bytes : Bytes} (h : (replay hash bytes).format.isChained) :
    ∃ magic payloads rest, (replay hash bytes).format.marker = some magic ∧
      bytes = written hash magic payloads ++ rest ∧
      List.Forall₂ Decodes payloads (replay hash bytes).records ∧
      (replay hash bytes).goodBytes = (written hash magic payloads).length ∧
      (replay hash bytes).recovery.tornTailBytes = rest.length ∧
      (replay hash bytes).chain = some (tip hash magic payloads) := by
  obtain ⟨magic, body, hmarker, rfl⟩ := marker_of_replay h
  obtain ⟨payloads, records, rest, span, break_, rfl, hdecodes, hwalk⟩ :=
    @walk_reads _ hash _ h magic (genesisLink hash magic) body
  have hreplay := @replay_eq_walk _ hash _ _ hmarker
    (linked hash (genesisLink hash magic) payloads ++ rest)
  refine ⟨magic, payloads, rest, hmarker, ?_, ?_⟩
  · rw [written, List.append_assoc]
  · rw [hreplay, hwalk]
    refine ⟨hdecodes, ?_, rfl, rfl⟩
    rw [written, List.length_append]

theorem replayOnward_linked (hformat : format.isChained) {payloads : List Bytes}
    {records : List Record} (h : List.Forall₂ Decodes payloads records) (start : Digest) {rest : Bytes}
    (hrest : Sealed.frame? maxRecordBytes chainBytes rest = none) :
    ∃ span, replayOnward hash (linked hash start payloads ++ rest) ⟨format, some start⟩ =
      { records := records
        recovery := ⟨records.length, rest.length⟩
        goodBytes := (linked hash start payloads).length
        tailSpan := span
        format := format
        chain := some (Chain.head (link hash) start payloads)
        chainBreak := none } := by
  obtain ⟨span, hwalk⟩ := @walk_eq _ hash _ hformat _ _ h [] start _ hrest
  refine ⟨span, ?_⟩
  rw [List.nil_append, List.length_nil, Nat.zero_add] at hwalk
  exact hwalk

theorem replayOnward_reads (hformat : format.isChained) (start : Digest) (bytes : Bytes) :
    ∃ payloads records rest span break_, bytes = linked hash start payloads ++ rest ∧
      List.Forall₂ Decodes payloads records ∧
      replayOnward hash bytes ⟨format, some start⟩ =
        { records := records
          recovery := ⟨records.length, rest.length⟩
          goodBytes := (linked hash start payloads).length
          tailSpan := span
          format := format
          chain := some (Chain.head (link hash) start payloads)
          chainBreak := break_ } := by
  obtain ⟨payloads, records, rest, span, break_, hbytes, hdecodes, hwalk⟩ :=
    @walk_reads _ hash _ hformat [] start bytes
  refine ⟨payloads, records, rest, span, break_, hbytes, hdecodes, ?_⟩
  rw [List.nil_append, List.length_nil, Nat.zero_add] at hwalk
  exact hwalk

end Walked

section Cut

variable {hash : Bytes → Digest} {magic : Bytes} {payloads all : List Bytes}

theorem written_isPrefix (h : payloads <+: all) :
    written hash magic payloads <+: written hash magic all :=
  (List.prefix_append_right_inj magic).mpr (Sealed.laid_isPrefix h)

/-- A cut behind the marker leaves the frames that end before it, and no whole one after them. -/
theorem written_cut (hfits : ∀ payload ∈ all, Fits maxRecordBytes payload) {bytes : Bytes}
    (h : bytes <+: written hash magic all) (hmagic : magic.length ≤ bytes.length) :
    ∃ k rest, k ≤ all.length ∧ bytes = written hash magic (all.take k) ++ rest ∧
      Sealed.frame? maxRecordBytes chainBytes rest = none ∧
      ∀ i < all.length, i < k ↔ (written hash magic (all.take (i + 1))).length ≤ bytes.length := by
  have hle := h.length_le
  rw [written, List.length_append] at hle
  obtain ⟨n, hn⟩ := Nat.exists_eq_add_of_le hmagic
  obtain ⟨k, rest, hk, htake, hrest, hends⟩ :=
    @Sealed.laid_cut _ (link hash) Subtype.val maxRecordBytes chainBytes maxRecordBytes_lt
      (fun digest => digest.2) (genesisLink hash magic) all hfits n (by
        unfold linked at hle
        omega)
  refine ⟨k, rest, hk, ?_, hrest, fun i hi => (hends i hi).trans ?_⟩
  · rw [List.prefix_iff_eq_take.mp h, hn, written, List.take_length_add_append, written,
      List.append_assoc]
    exact congrArg _ htake
  · rw [hn, written, List.length_append, Nat.add_le_add_iff_left]
    rfl

theorem le_of_written_le {k : ℕ} {bytes : Bytes}
    (hends : ∀ i < all.length, i < k ↔ (written hash magic (all.take (i + 1))).length ≤ bytes.length)
    (h : payloads <+: all) (hle : (written hash magic payloads).length ≤ bytes.length) :
    payloads <+: all.take k := by
  have hpayloads := List.prefix_iff_eq_take.mp h
  have hk : payloads.length ≤ k := by
    cases hlength : payloads.length with
    | zero => exact Nat.zero_le k
    | succ i =>
      have hi : i < all.length := by
        have hall := h.length_le
        omega
      refine (hends i hi).mpr ?_
      rw [← hlength, ← hpayloads]
      exact hle
  rw [hpayloads]
  exact (List.take_prefix_take_left hk)

theorem written_reads (hfits : ∀ payload ∈ all, Fits maxRecordBytes payload) {bytes : Bytes}
    (h : bytes <+: written hash magic all) (hmagic : magic.length ≤ bytes.length) :
    ∃ mine rest, mine <+: all ∧ bytes = written hash magic mine ++ rest ∧
      Sealed.frame? maxRecordBytes chainBytes rest = none ∧
      (∀ payloads, payloads <+: all → (written hash magic payloads).length ≤ bytes.length →
        payloads <+: mine) ∧
      (bytes = written hash magic all → mine = all ∧ rest = []) := by
  obtain ⟨k, rest, -, hbytes, hrest, hends⟩ := written_cut hfits h hmagic
  refine ⟨all.take k, rest, List.take_prefix k all, hbytes, hrest,
    fun payloads => le_of_written_le hends, fun hwhole => ?_⟩
  have hall : all.take k = all :=
    (List.take_prefix k all).eq_of_length_le
      (le_of_written_le hends List.prefix_rfl (congrArg List.length hwhole).ge).length_le
  rw [hall] at hbytes ⊢
  exact ⟨rfl, List.append_right_eq_self.mp (hbytes.symm.trans hwhole)⟩

end Cut

end JournalFile

end Tracefold
