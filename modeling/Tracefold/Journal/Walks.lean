import Mathlib.Tactic.Common
import Tracefold.Ideal.Journal
import Tracefold.Journal.Intact

/-! The reads of a journal's bytes agree: the walk over the links alone with the one that decodes
the records too, and a read in two parts with the one that is made at once. -/

namespace Tracefold.JournalFile

open Library
open Library.Frames (lengthBytes Fits Flow)
open Head (Digest JournalFormat journalMagic journalMagicV2 chainBytes maxRecordBytes link genesisLink
  walkFrames walkLinks chainHeadThrough sniff)

section Links

variable (hash : Bytes → Digest)

/-- The payloads of the frames that `walk_links` passes over, from a link on. -/
def passedFrom : ℕ → Digest → Bytes → List Bytes
  | 0, _, _ => []
  | fuel + 1, chain, rest =>
    match Head.frame? rest with
    | none => []
    | some (payload, stored, tail) =>
      if stored ≠ (link hash chain payload).1 then []
      else payload :: passedFrom fuel (link hash chain payload) tail

def passed (bytes : Bytes) : List Bytes :=
  match sniff bytes with
  | none => []
  | some magic => passedFrom hash bytes.length (genesisLink hash magic) (bytes.drop magic.length)

variable {hash} {fuel : ℕ} {start : Digest} {payload stored rest tail : Bytes}

theorem passedFrom_done (h : Head.frame? rest = none) : passedFrom hash fuel start rest = [] := by
  cases fuel with
  | zero => rfl
  | succ fuel => rw [passedFrom, h]

theorem passedFrom_stop (h : Head.frame? rest = some (payload, stored, tail))
    (hlink : stored ≠ (link hash start payload).1) : passedFrom hash fuel start rest = [] := by
  cases fuel with
  | zero => rfl
  | succ fuel =>
    rw [passedFrom, h]
    exact if_pos hlink

theorem passedFrom_next
    (h : Head.frame? rest = some (payload, (link hash start payload).1, tail)) :
    passedFrom hash (fuel + 1) start rest =
      payload :: passedFrom hash fuel (link hash start payload) tail := by
  rw [passedFrom, h]
  exact if_neg (not_not.mpr rfl)

variable {records offset : ℕ}

theorem walkFrames_done (h : Head.frame? rest = none) :
    walkFrames hash fuel start records offset rest = ⟨some start, records, offset, none⟩ := by
  cases fuel with
  | zero => rfl
  | succ fuel => rw [walkFrames, h]

theorem walkFrames_stop (h : Head.frame? rest = some (payload, stored, tail))
    (hlink : stored ≠ (link hash start payload).1) :
    walkFrames hash (fuel + 1) start records offset rest =
      ⟨some start, records, offset, some offset⟩ := by
  rw [walkFrames, h]
  exact if_pos hlink

theorem walkFrames_next
    (h : Head.frame? rest = some (payload, (link hash start payload).1, tail)) :
    walkFrames hash (fuel + 1) start records offset rest =
      walkFrames hash fuel (link hash start payload) (records + 1)
        (offset + (Frames.frame payload ++ (link hash start payload).1).length) tail := by
  rw [walkFrames, h]
  dsimp only
  rw [if_neg (not_not.mpr rfl), List.length_append, Frames.length_frame,
    (link hash start payload).2, ← Nat.add_assoc, ← Nat.add_assoc]
  rfl

/-- What `walk_links` counts are the linked frames that it passes over. -/
theorem walkFrames_passed (fuel : ℕ) (start : Digest) (records offset : ℕ) (bytes : Bytes) :
    (∃ rest, bytes = linked hash start (passedFrom hash fuel start bytes) ++ rest) ∧
    walkFrames hash fuel start records offset bytes =
      { head := some (Chain.head (link hash) start (passedFrom hash fuel start bytes))
        records := records + (passedFrom hash fuel start bytes).length
        goodBytes := offset + (linked hash start (passedFrom hash fuel start bytes)).length
        breakAt := (walkFrames hash fuel start records offset bytes).breakAt } := by
  induction fuel generalizing start records offset bytes with
  | zero => exact ⟨⟨bytes, rfl⟩, rfl⟩
  | succ fuel ih =>
    cases hframe : Head.frame? bytes with
    | none =>
      rw [passedFrom_done hframe, walkFrames_done hframe]
      exact ⟨⟨bytes, rfl⟩, rfl⟩
    | some frame =>
      obtain ⟨payload, stored, tail⟩ := frame
      by_cases hlink : stored = (link hash start payload).1
      · subst hlink
        obtain ⟨⟨rest, htail⟩, hwalk⟩ := ih (link hash start payload) (records + 1)
          (offset + (Frames.frame payload ++ (link hash start payload).1).length) tail
        rw [head_frame?_eq] at hframe
        obtain ⟨hbytes, -⟩ := Sealed.frame?_eq_some hframe
        rw [← head_frame?_eq] at hframe
        rw [passedFrom_next hframe, walkFrames_next hframe]
        constructor
        · refine ⟨rest, ?_⟩
          rw [linked, Sealed.laid_cons, List.append_assoc, hbytes]
          exact congrArg _ htail
        · rw [hwalk, linked, linked, Sealed.length_laid_cons, List.length_cons]
          congr 1
          · omega
          · omega
      · rw [passedFrom_stop hframe hlink, walkFrames_stop hframe hlink]
        exact ⟨⟨bytes, rfl⟩, rfl⟩

variable [Cbor Record] {format : JournalFormat}

/-- How a decoding walk, from a state with a link, ends over frames of which `walk_links` passes some:
it reads the first of these, and stops short of the others at one that is no record, or it stops
where `walk_links` does. -/
def ReadsFirst (hash : Bytes → Digest) (start : Digest) (state : Walk) (frames : List Bytes)
    (breakAt : Option ℕ) (last : Walk) : Prop :=
  ∃ mine more read, frames = mine ++ more ∧ List.Forall₂ Decodes mine read ∧
    (∀ payload ∈ more.head?, Cbor.decode (α := Record) payload = none) ∧
    last.records = state.records ++ read ∧
    last.good = state.good + (linked hash start mine).length ∧
    last.chain = some (Chain.head (link hash) start mine) ∧
    last.chainBreak.map (·.at_) = if more = [] then breakAt else none

theorem ReadsFirst.stopped {state last : Walk} (hchain : state.chain = some start)
    (h : last = { state with chainBreak := last.chainBreak }) {frames : List Bytes}
    {breakAt : Option ℕ} (hframes : ∀ payload ∈ frames.head?, Cbor.decode (α := Record) payload = none)
    (hbreak : last.chainBreak.map (·.at_) = if frames = [] then breakAt else none) :
    ReadsFirst hash start state frames breakAt last := by
  refine ⟨[], frames, [], rfl, .nil, hframes, ?_, ?_, ?_, hbreak⟩
  · rw [h, List.append_nil]
  · rw [h]
    rfl
  · rw [h]
    exact hchain

theorem ReadsFirst.ended {state last : Walk} (hchain : state.chain = some start)
    (h : last = { state with chainBreak := last.chainBreak }) {breakAt : Option ℕ}
    (hbreak : last.chainBreak.map (·.at_) = breakAt) :
    ReadsFirst hash start state [] breakAt last :=
  .stopped hchain h (fun _ hmem => nomatch hmem) hbreak

theorem ReadsFirst.cons {state next last : Walk} {record : Record} (h : Decodes payload record)
    (hrecords : next.records = state.records ++ [record])
    (hgood : next.good = state.good + (Frames.frame payload ++ (link hash start payload).1).length)
    {frames : List Bytes} {breakAt : Option ℕ}
    (hlast : ReadsFirst hash (link hash start payload) next frames breakAt last) :
    ReadsFirst hash start state (payload :: frames) breakAt last := by
  obtain ⟨mine, more, read, rfl, hread, hmore, hall, hend, hhead, hbreak⟩ := hlast
  refine ⟨payload :: mine, more, record :: read, rfl, .cons h hread, hmore, ?_, ?_, hhead, hbreak⟩
  · rw [hall, hrecords, List.append_assoc]
    rfl
  · rw [hend, hgood, linked, linked, Sealed.length_laid_cons, Nat.add_assoc]

theorem walk_passed (hformat : format.isChained) (fuel : ℕ) {start : Digest} {state : Walk}
    (hchain : state.chain = some start) (hbreak : state.chainBreak = none) (records : ℕ)
    (bytes : Bytes) :
    ReadsFirst hash start state (passedFrom hash fuel start bytes)
      (walkFrames hash fuel start records state.good bytes).breakAt
      (Sealed.walk maxRecordBytes format.linkBytes (Walk.record hash format) fuel state bytes) := by
  induction fuel generalizing start state records bytes with
  | zero =>
    apply ReadsFirst.ended hchain rfl
    show state.chainBreak.map _ = none
    rw [hbreak]
    rfl
  | succ fuel ih =>
    cases hframe : Head.frame? bytes with
    | none =>
      have hsealed := hframe
      rw [head_frame?_eq, ← linkBytes_of_isChained hformat] at hsealed
      rw [passedFrom_done hframe, walkFrames_done hframe, Sealed.walk_done hsealed]
      apply ReadsFirst.ended hchain rfl
      rw [hbreak]
      rfl
    | some frame =>
      obtain ⟨payload, stored, tail⟩ := frame
      have hsealed := hframe
      rw [head_frame?_eq, ← linkBytes_of_isChained hformat] at hsealed
      obtain ⟨-, hfits, -⟩ := Sealed.frame?_eq_some hsealed
      by_cases hlink : stored = (link hash start payload).1
      · subst hlink
        rw [passedFrom_next hframe, walkFrames_next hframe]
        cases hdecode : Cbor.decode (α := Record) payload with
        | none =>
          have hrecord : Walk.record hash format state payload (link hash start payload).1 =
              .stop state := by
            unfold Walk.record verify
            rw [if_pos hformat, hchain]
            dsimp only
            rw [if_neg (not_not.mpr rfl)]
            dsimp only
            rw [hdecode]
          rw [Sealed.walk_stop hsealed hrecord]
          apply ReadsFirst.stopped hchain rfl
          · intro other hother
            rw [← Option.some.inj hother]
            exact hdecode
          · rw [hbreak]
            rfl
        | some record =>
          obtain ⟨next, hrecord, hrecords, hgood, hnext, hnone⟩ :=
            @Walk.record_of_decodes _ hash _ hformat _ _ hchain _ _ ⟨hfits, hdecode⟩
          rw [Sealed.walk_next hsealed hrecord, ← hgood]
          exact .cons ⟨hfits, hdecode⟩ hrecords hgood
            (ih hnext (hnone.trans hbreak) (records + 1) tail)
      · have hrecord : Walk.record hash format state payload stored = .stop
            { state with chainBreak := some ⟨state.good, stored, (link hash start payload).1⟩ } := by
          unfold Walk.record verify
          rw [if_pos hformat, hchain]
          dsimp only
          rw [if_pos hlink]
        rw [passedFrom_stop hframe hlink, walkFrames_stop hframe hlink,
          Sealed.walk_stop hsealed hrecord]
        exact .ended hchain rfl rfl

/-- The walk over the links and the decoding replay stop at the same place of a chained journal
whenever all that is linked up to there are records; and what is replayed are always the first of
the frames that the links pass over, cut short only by a payload that is no record. -/
theorem walk_links_agrees {magic : Bytes} (hmarker : format.marker = some magic) (body : Bytes) :
    written hash magic (passed hash (magic ++ body)) <+: magic ++ body ∧
    (walkLinks hash (magic ++ body)).head = some (tip hash magic (passed hash (magic ++ body))) ∧
    (walkLinks hash (magic ++ body)).records = (passed hash (magic ++ body)).length ∧
    (walkLinks hash (magic ++ body)).goodBytes =
      (written hash magic (passed hash (magic ++ body))).length ∧
    (∃ mine more, passed hash (magic ++ body) = mine ++ more ∧
      List.Forall₂ Decodes mine (replay hash (magic ++ body)).records ∧
      (∀ payload ∈ more.head?, Cbor.decode (α := Record) payload = none) ∧
      (replay hash (magic ++ body)).goodBytes = (written hash magic mine).length ∧
      (replay hash (magic ++ body)).chain = some (tip hash magic mine) ∧
      (more ≠ [] → (replay hash (magic ++ body)).chainBreak = none)) ∧
    ((∀ payload ∈ passed hash (magic ++ body), (Cbor.decode (α := Record) payload).isSome) →
      (replay hash (magic ++ body)).goodBytes = (walkLinks hash (magic ++ body)).goodBytes ∧
      (replay hash (magic ++ body)).records.length = (walkLinks hash (magic ++ body)).records ∧
      (replay hash (magic ++ body)).chain = (walkLinks hash (magic ++ body)).head ∧
      (replay hash (magic ++ body)).chainBreak.map (·.at_) =
        (walkLinks hash (magic ++ body)).breakAt) := by
  have hformat := isChained_of_marker hmarker
  have hpassed : passed hash (magic ++ body) =
      passedFrom hash (magic ++ body).length (genesisLink hash magic) body := by
    rw [passed, sniff_of_marker hmarker]
    dsimp only
    rw [List.drop_left]
  have hlinks : walkLinks hash (magic ++ body) =
      walkFrames hash (magic ++ body).length (genesisLink hash magic) 0 magic.length body := by
    rw [walkLinks, sniff_of_marker hmarker]
    dsimp only
    rw [List.drop_left]
  obtain ⟨⟨rest, hrest⟩, hwalk⟩ := @walkFrames_passed hash (magic ++ body).length
    (genesisLink hash magic) 0 magic.length body
  obtain ⟨mine, more, read, hframes, hread, hmore, hrecords, hgood, hchain, hbreak⟩ :=
    @walk_passed hash _ _ hformat (magic ++ body).length (genesisLink hash magic)
      ⟨[], magic.length, none, some (genesisLink hash magic), none⟩ rfl rfl 0 body
  rw [← hpassed] at hrest hwalk hframes
  rw [← hlinks] at hwalk hbreak
  have hreplay : replay hash (magic ++ body) = _ := replay_eq_walk hmarker body
  unfold walk at hreplay
  dsimp only at hreplay
  rw [List.drop_left, if_pos hformat] at hreplay
  rw [hreplay, hwalk]
  dsimp only
  rw [List.nil_append] at hrecords
  have hwritten : magic.length + (linked hash (genesisLink hash magic) mine).length =
      (written hash magic mine).length := List.length_append.symm
  rw [hrecords, hgood, hchain, Nat.zero_add, hwritten, ← List.length_append]
  refine ⟨?_, rfl, rfl, rfl, ⟨mine, more, hframes, hread, hmore, rfl, rfl, fun hne => ?_⟩, fun hall => ?_⟩
  · exact ⟨rest, by rw [written, List.append_assoc, ← hrest]⟩
  · rw [if_neg hne] at hbreak
    exact Option.map_eq_none_iff.mp hbreak
  · obtain rfl : more = [] := by
      cases more with
      | nil => rfl
      | cons payload more =>
        have hdecode := hall payload (by
          rw [hframes]
          exact List.mem_append_right _ List.mem_cons_self)
        rw [hmore payload rfl] at hdecode
        cases hdecode
    rw [List.append_nil] at hframes
    rw [if_pos rfl] at hbreak
    rw [hframes, ← hread.length_eq]
    exact ⟨rfl, rfl, rfl, hbreak⟩

end Links

section Broken

open Tracefold.Ideal
open Head (lastBytes oneRecord)

/-- A record behind the first one with a link that is none. -/
def brokenRecord : Bytes := Frames.frame [9] ++ List.replicate chainBytes 0

theorem walk_links_agrees_broken :
    (replay lastBytes (oneRecord ++ brokenRecord)).chainBreak.map (·.at_) =
        (walkLinks lastBytes (oneRecord ++ brokenRecord)).breakAt ∧
      (walkLinks lastBytes (oneRecord ++ brokenRecord)).breakAt = some oneRecord.length := by
  have hall : ∀ payload ∈ passed lastBytes (oneRecord ++ brokenRecord),
      (Cbor.decode (α := Record) payload).isSome := by decide
  obtain ⟨-, -, -, -, -, hsame⟩ := @walk_links_agrees lastBytes _ .chainedV2 journalMagicV2 rfl
    ((oneRecord ++ brokenRecord).drop 8)
  exact ⟨(hsame hall).2.2.2, by decide⟩

end Broken

section Parts

variable (hash : Bytes → Digest)

/-- The framing that `replay` sniffs from a file's first bytes, and where the records start. -/
def sniffed (bytes : Bytes) : JournalFormat × ℕ :=
  if journalMagicV2.isPrefixOf bytes then (.chainedV2, journalMagicV2.length)
  else if journalMagic.isPrefixOf bytes then (.chained, journalMagic.length)
  else (.legacy, 0)

/-- What a reader carries on with behind what it has read. -/
def Replay.resume (replayed : Replay) : Resume := ⟨replayed.format, replayed.chain⟩

/-- A walk that goes on from the end of another, in the offsets of the first. -/
def Walk.after (first second : Walk) : Walk where
  records := first.records ++ second.records
  good := first.good + second.good
  tailSpan := (second.tailSpan.map fun span => (first.good + span.1, span.2)).or first.tailSpan
  chain := second.chain
  chainBreak := second.chainBreak.map fun broken => { broken with at_ := first.good + broken.at_ }

variable [Cbor Record]

/-- The frame boundaries that `replay` passes over. -/
def boundaries (bytes : Bytes) : List ℕ :=
  (Sealed.trail maxRecordBytes (sniffed bytes).1.linkBytes (Walk.record hash (sniffed bytes).1)
    bytes.length ⟨[], (sniffed bytes).2, none, genesisLinkOf hash (sniffed bytes).1, none⟩
    (bytes.drop (sniffed bytes).2)).map Walk.good

theorem replay_eq_sniffed (bytes : Bytes) :
    replay hash bytes = walk hash bytes (sniffed bytes).2
      ⟨(sniffed bytes).1, genesisLinkOf hash (sniffed bytes).1⟩ := rfl

variable {hash} {format : JournalFormat}

omit [Cbor Record] in
theorem sniffed_le (bytes : Bytes) : (sniffed bytes).2 ≤ bytes.length := by
  unfold sniffed
  split_ifs with hv2 hv1
  · exact (List.isPrefixOf_iff_prefix.mp hv2).length_le
  · exact (List.isPrefixOf_iff_prefix.mp hv1).length_le
  · exact Nat.zero_le _

omit [Cbor Record] in
theorem sniffed_of_isPrefix {front bytes : Bytes} (h : front <+: bytes)
    (hfront : (sniffed bytes).2 ≤ front.length) : sniffed front = sniffed bytes := by
  have hback : ∀ {magic : Bytes}, magic.isPrefixOf front → magic.isPrefixOf bytes := fun hmagic =>
    List.isPrefixOf_iff_prefix.mpr ((List.isPrefixOf_iff_prefix.mp hmagic).trans h)
  have hforth : ∀ {magic : Bytes}, magic.length ≤ front.length → magic.isPrefixOf bytes →
      magic.isPrefixOf front := fun hlength hmagic =>
    List.isPrefixOf_iff_prefix.mpr
      (List.prefix_of_prefix_length_le (List.isPrefixOf_iff_prefix.mp hmagic) h hlength)
  unfold sniffed at hfront ⊢
  by_cases hv2 : journalMagicV2.isPrefixOf bytes
  · rw [if_pos hv2] at hfront ⊢
    rw [if_pos (hforth hfront hv2)]
  · rw [if_neg hv2] at hfront ⊢
    rw [if_neg (fun h => hv2 (hback h))]
    by_cases hv1 : journalMagic.isPrefixOf bytes
    · rw [if_pos hv1] at hfront ⊢
      rw [if_pos (hforth hfront hv1)]
    · rw [if_neg hv1]
      rw [if_neg (fun h => hv1 (hback h))]

/-- A step that goes on from the end of another walk does what it does on its own. -/
theorem Walk.record_after (first second : Walk) (payload stored : Bytes) :
    Walk.record hash format (first.after second) payload stored =
      (Walk.record hash format second payload stored).map first.after := by
  have hchain : (first.after second).chain = second.chain := rfl
  unfold Walk.record
  rw [hchain]
  cases verify hash format second.chain payload stored with
  | error links => rfl
  | ok verified =>
    cases Cbor.decode (α := Record) payload with
    | none => rfl
    | some record =>
      dsimp only [Walk.after, Flow.map]
      rw [List.append_assoc, Nat.add_assoc]
      rfl

/-- A walk in which no link is broken. Its tail ends where it has come to, and without links there is
none that it carries. -/
structure Walk.Unbroken (format : JournalFormat) (walk : Walk) : Prop where
  chainBreak : walk.chainBreak = none
  spans : ∀ span ∈ walk.tailSpan, span.1 + span.2 = walk.good
  unlinked : ¬ format.isChained → walk.chain = none

theorem Walk.record_next {walk next : Walk} (hwalk : walk.Unbroken format) {payload stored : Bytes}
    (hstored : stored.length = format.linkBytes)
    (h : Walk.record hash format walk payload stored = .next next) :
    next.good = walk.good + (Frames.frame payload ++ stored).length ∧ next.Unbroken format := by
  unfold Walk.record at h
  split at h
  next => cases h
  next verified hverify =>
    split at h
    next => cases h
    next =>
      cases h
      constructor
      · rw [List.length_append, Frames.length_frame, hstored]
      · constructor
        case chainBreak => exact hwalk.chainBreak
        case spans =>
          intro span hspan
          rw [← Option.some.inj hspan]
        case unlinked =>
          intro hlegacy
          unfold verify at hverify
          rw [if_neg hlegacy] at hverify
          cases hverify
          exact hwalk.unlinked hlegacy

theorem Walk.passes {state last : Walk} {front : Bytes}
    (h : Sealed.Passes maxRecordBytes format.linkBytes (Walk.record hash format) state front last)
    (hstate : state.Unbroken format) :
    last.good = state.good + front.length ∧ last.Unbroken format := by
  induction h with
  | nil state => exact ⟨rfl, hstate⟩
  | cons hfits hwidth hstep _ ih =>
    obtain ⟨hgood, hnext⟩ := Walk.record_next hstate hwidth hstep
    obtain ⟨hgood', hlast⟩ := ih hnext
    refine ⟨?_, hlast⟩
    rw [hgood', hgood, Nat.add_assoc, ← List.length_append]

/-- A walk over bytes of which the first are passed over is the walk over these, and a new one from
there on. -/
theorem walk_parts {state last : Walk} {front : Bytes}
    (h : Sealed.Passes maxRecordBytes format.linkBytes (Walk.record hash format) state front last)
    (hbreak : last.chainBreak = none) (behind : Bytes) {fuel : ℕ}
    (hfuel : (front ++ behind).length ≤ fuel) :
    Sealed.walk maxRecordBytes format.linkBytes (Walk.record hash format) fuel state
        (front ++ behind) =
      last.after (Sealed.walk maxRecordBytes format.linkBytes (Walk.record hash format) behind.length
        ⟨[], 0, none, last.chain, none⟩ behind) := by
  have hlast : last.after ⟨[], 0, none, last.chain, none⟩ = last := by
    unfold Walk.after
    rw [List.append_nil, Nat.add_zero]
    cases last
    cases hbreak
    rfl
  obtain ⟨fuel', hfuel', hwalk⟩ := Sealed.walk_passes maxRecordBytes_lt h hfuel
  rw [hwalk, Sealed.walk_enough hfuel' le_rfl]
  have hmap := @Sealed.walk_map maxRecordBytes format.linkBytes _ (Walk.record hash format)
    last.after (Walk.record_after last) behind.length ⟨[], 0, none, last.chain, none⟩ behind
  rw [hlast] at hmap
  exact hmap

omit [Cbor Record] in
theorem tailRecord_drop {bytes : Bytes} {p : ℕ} (hp : p ≤ bytes.length) (span : ℕ × ℕ) :
    tailRecord (bytes.drop p) p (some span) = tailRecord bytes 0 (some (p + span.1, span.2)) := by
  unfold tailRecord
  dsimp only
  rw [List.length_drop, List.drop_drop, Nat.zero_add]
  by_cases hshort : bytes.length < p + span.1 + span.2
  · rw [if_pos hshort, if_pos (by omega)]
  · rw [if_neg hshort, if_neg (by omega)]

omit [Cbor Record] in
theorem tailRecord_take {bytes : Bytes} {p : ℕ} (hp : p ≤ bytes.length) {span : ℕ × ℕ}
    (hspan : span.1 + span.2 ≤ p) :
    tailRecord (bytes.take p) 0 (some span) = tailRecord bytes 0 (some span) := by
  unfold tailRecord
  dsimp only
  rw [List.length_take, if_neg (by omega), if_neg (by omega), List.drop_take, List.take_take,
    Nat.min_eq_left (by omega)]

theorem replayOnward_tailSpan {bytes : Bytes} {resume : Resume}
    (h : ¬ resume.format.isChained → resume.chain = none) :
    ∀ span ∈ (replayOnward hash bytes resume).tailSpan, span.1 + span.2 ≤ bytes.length := by
  intro span hspan
  obtain ⟨front, behind, last, hbytes, hpasses, hend⟩ :=
    @Sealed.walk_ends maxRecordBytes resume.format.linkBytes _ (Walk.record hash resume.format)
      bytes.length ⟨[], 0, none, resume.chain, none⟩ bytes
  have hstart : Walk.Unbroken resume.format ⟨[], 0, none, resume.chain, none⟩ := by
    constructor
    case chainBreak => rfl
    case spans => exact fun _ hspan => nomatch hspan
    case unlinked => exact h
  obtain ⟨hgood, hlast⟩ := Walk.passes hpasses hstart
  have hwalked : (replayOnward hash bytes resume).tailSpan = last.tailSpan := by
    unfold replayOnward walk
    rcases hend with hend | ⟨payload, stamp, hstop⟩
    · rw [List.drop_zero, hend]
    · rw [List.drop_zero, Walk.record_eq_stop hstop]
  rw [hwalked] at hspan
  rw [hlast.spans span hspan, hgood, Nat.zero_add, hbytes]
  exact (List.prefix_append ..).length_le

theorem parts_of_mem_boundaries {bytes : Bytes} {p : ℕ} (h : p ∈ boundaries hash bytes) :
    ∃ marker front behind last, bytes = marker ++ (front ++ behind) ∧
      marker.length = (sniffed bytes).2 ∧ p = (marker ++ front).length ∧
      Sealed.Passes maxRecordBytes (sniffed bytes).1.linkBytes (Walk.record hash (sniffed bytes).1)
        ⟨[], marker.length, none, genesisLinkOf hash (sniffed bytes).1, none⟩ front last ∧
      last.good = p ∧ last.Unbroken (sniffed bytes).1 := by
  obtain ⟨last, hlast, rfl⟩ := List.mem_map.mp h
  obtain ⟨front, behind, hdrop, hpasses⟩ := Sealed.passes_of_mem_trail hlast
  have hmarker : (bytes.take (sniffed bytes).2).length = (sniffed bytes).2 := by
    rw [List.length_take, Nat.min_eq_left (sniffed_le bytes)]
  have hstart : Walk.Unbroken (sniffed bytes).1
      ⟨[], (sniffed bytes).2, none, genesisLinkOf hash (sniffed bytes).1, none⟩ := by
    constructor
    case chainBreak => rfl
    case spans => exact fun _ hspan => nomatch hspan
    case unlinked =>
      intro hlegacy
      cases hformat : (sniffed bytes).1 with
      | legacy => rfl
      | chained => exact absurd (congrArg JournalFormat.isChained hformat) hlegacy
      | chainedV2 => exact absurd (congrArg JournalFormat.isChained hformat) hlegacy
  obtain ⟨hgood, hlast⟩ := Walk.passes hpasses hstart
  rw [← hmarker] at hpasses
  refine ⟨bytes.take (sniffed bytes).2, front, behind, last, ?_, hmarker, ?_, ?_, rfl, hlast⟩
  · rw [← hdrop, List.take_append_drop]
  · rw [hgood, List.length_append, hmarker]
  · rw [hmarker] at hpasses ⊢
    exact hpasses

/-- A read up to a frame boundary, and one that carries on from there, are the read of it all. -/
theorem replay_in_parts {bytes : Bytes} {p : ℕ} (h : p ∈ boundaries hash bytes) :
    ∃ first second, replay hash (bytes.take p) = first ∧
      replayOnward hash (bytes.drop p) first.resume = second ∧
      first.goodBytes = p ∧ first.recovery.tornTailBytes = 0 ∧ first.chainBreak = none ∧
      replay hash bytes =
        { records := first.records ++ second.records
          recovery := ⟨first.recovery.records + second.recovery.records,
            second.recovery.tornTailBytes⟩
          goodBytes := first.goodBytes + second.goodBytes
          tailSpan := (second.tailSpan.map fun span => (p + span.1, span.2)).or first.tailSpan
          format := second.format
          chain := second.chain
          chainBreak := second.chainBreak.map fun broken => { broken with at_ := p + broken.at_ } } ∧
      tailRecord bytes 0 (replay hash bytes).tailSpan =
        (tailRecord (bytes.drop p) p second.tailSpan).or
          (tailRecord (bytes.take p) 0 first.tailSpan) := by
  obtain ⟨marker, front, behind, last, hbytes, hmarker, hp, hpasses, hgood, hlast⟩ :=
    parts_of_mem_boundaries h
  have hparted : bytes = (marker ++ front) ++ behind := hbytes.trans (List.append_assoc ..).symm
  have hle : p ≤ bytes.length := by
    rw [hp, hparted]
    exact (List.prefix_append ..).length_le
  have hsniffed : sniffed (marker ++ front) = sniffed bytes := by
    apply sniffed_of_isPrefix
    · rw [hparted]
      exact List.prefix_append ..
    · rw [← hmarker]
      exact (List.prefix_append ..).length_le
  have htake : bytes.take p = marker ++ front := by
    rw [hp, hparted, List.take_left]
  have hdrop : bytes.drop p = behind := by
    rw [hp, hparted, List.drop_left]
  have hchain : (if (sniffed bytes).1.isChained then last.chain else none) = last.chain := by
    split_ifs with hchained
    · rfl
    · exact (hlast.unlinked hchained).symm
  have hfirst : replay hash (bytes.take p) =
      { records := last.records
        recovery := ⟨last.records.length, 0⟩
        goodBytes := p
        tailSpan := last.tailSpan
        format := (sniffed bytes).1
        chain := last.chain
        chainBreak := none } := by
    rw [htake, replay_eq_sniffed, hsniffed, walk, ← hmarker]
    dsimp only
    rw [List.drop_left, Sealed.walk_of_passes maxRecordBytes_lt hpasses
      (List.suffix_append marker front).length_le, hgood, hp, Nat.sub_self, hlast.chainBreak, hchain]
  have hwhole : replay hash bytes =
      let second := replayOnward hash behind ⟨(sniffed bytes).1, last.chain⟩
      { records := last.records ++ second.records
        recovery := ⟨last.records.length + second.recovery.records, second.recovery.tornTailBytes⟩
        goodBytes := p + second.goodBytes
        tailSpan := (second.tailSpan.map fun span => (p + span.1, span.2)).or last.tailSpan
        format := second.format
        chain := second.chain
        chainBreak := second.chainBreak.map fun broken => { broken with at_ := p + broken.at_ } } := by
    have hlength : (front ++ behind).length ≤ bytes.length := by
      rw [hbytes]
      exact (List.suffix_append marker _).length_le
    have hbody : bytes.drop marker.length = front ++ behind := by
      rw [hbytes, List.drop_left]
    have htotal : bytes.length = p + behind.length := by
      rw [hparted, List.length_append, ← hp]
    rw [replay_eq_sniffed, walk, ← hmarker]
    dsimp only
    rw [hbody, walk_parts hpasses hlast.chainBreak behind hlength, Walk.after, hgood, htotal]
    dsimp only [replayOnward, walk]
    rw [List.drop_zero, List.length_append, Nat.add_sub_add_left]
  refine ⟨_, _, hfirst, rfl, rfl, rfl, rfl, ?_, ?_⟩
  · rw [hdrop, hwhole]
    rfl
  · rw [hwhole, hdrop]
    dsimp only [Replay.resume]
    have hsecond := @replayOnward_tailSpan hash _ behind ⟨(sniffed bytes).1, last.chain⟩ hlast.unlinked
    cases hspan : (replayOnward hash behind ⟨(sniffed bytes).1, last.chain⟩).tailSpan with
    | none =>
      cases htail : last.tailSpan with
      | none => rfl
      | some span =>
        have hend : span.1 + span.2 ≤ p := (hlast.spans span htail).trans hgood |>.le
        exact (tailRecord_take hle hend).symm
    | some span =>
      have hin := Nat.not_lt.mpr (hsecond span hspan)
      have hsome : tailRecord behind p (some span) =
          some ⟨p + span.1, (behind.drop span.1).take span.2⟩ := if_neg hin
      have hshift := tailRecord_drop hle span
      rw [hdrop, hsome] at hshift
      rw [hsome]
      exact hshift.symm

end Parts

section Second

open Tracefold.Ideal
open Head (lastBytes oneRecord twoRecords)

theorem replay_in_parts_second :
    ∃ first second, replay lastBytes (twoRecords.take oneRecord.length) = first ∧
      replayOnward lastBytes (twoRecords.drop oneRecord.length) first.resume = second ∧
      (replay lastBytes twoRecords).records = first.records ++ second.records ∧
      (replay lastBytes twoRecords).chain = second.chain ∧ second.records = [draft 9] := by
  have hmem : oneRecord.length ∈ boundaries lastBytes twoRecords := by decide
  obtain ⟨first, second, hfirst, hsecond, -, -, -, hwhole, -⟩ := replay_in_parts hmem
  rw [hwhole]
  refine ⟨first, second, hfirst, hsecond, rfl, rfl, ?_⟩
  rw [← hsecond, ← hfirst]
  decide

end Second

end Tracefold.JournalFile
