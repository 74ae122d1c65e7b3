import Mathlib.Tactic.Common
import Tracefold.Ledger.Index

/-! What a crash leaves of the ledger, and what failed writes leave of the answers given before
them. -/

namespace Tracefold.Ledger

open Library.Frames

section Files

variable [Canon] [Cbor LedgerEntry]

/-- The store is what the loop makes of some records; it may know keys that they do not carry. -/
structure OnFile (payloads : List Bytes) (store : LedgerStore) : Prop where
  runs : ∃ byKey, Runs maxRecordBytes Replay.record .start payloads
      ⟨store.tree, byKey, store.bytes, store.tail⟩ ∧
    ∀ key : TransformationId, store.byKey[key]? = none → byKey[key]? = none

theorem onFile_open (bytes : Bytes) :
    ∃ payloads, (LedgerStore.open_ bytes).2 = frames payloads ∧
      OnFile payloads (LedgerStore.open_ bytes).1 := by
  obtain ⟨payloads, last, rest, hbytes, hruns, htree, hgood, htail, hkeys⟩ := @replay_reads _ _ bytes
  have hread := reads_of_runs hruns
  refine ⟨payloads, ?_, ?_⟩
  · have htorn : (replay bytes).tornTailBytes = rest.length := by
      change bytes.length - (replay bytes).goodBytes = rest.length
      rw [hgood, hread.good, hbytes, List.length_append, Nat.add_sub_cancel_left]
    change (if 0 < (replay bytes).tornTailBytes then bytes.take (replay bytes).goodBytes
      else bytes) = frames payloads
    rw [htorn, hgood, hread.good]
    split_ifs with hrest
    · rw [hbytes, List.take_left]
    · rw [hbytes, List.length_eq_zero_iff.mp (Nat.eq_zero_of_not_pos hrest), List.append_nil]
  · refine ⟨last.byKey, ?_, ?_⟩
    · have hlast : (⟨(replay bytes).tree, last.byKey, (replay bytes).goodBytes,
          (replay bytes).tail⟩ : Replay) = last := by
        rw [htree, hgood, htail]
      rw [← hlast] at hruns
      exact hruns
    · intro key hkey
      rcases hkeys with hkeys | ⟨_, hkeys⟩
      · rw [← hkeys]
        exact hkey
      · exact hkeys key hkey

theorem OnFile.bytes {payloads : List Bytes} {store : LedgerStore} (h : OnFile payloads store) :
    store.bytes = (frames payloads).length := by
  obtain ⟨_, hruns, _⟩ := h.runs
  exact (reads_of_runs hruns).good

theorem OnFile.replay {payloads : List Bytes} {store : LedgerStore} (h : OnFile payloads store)
    (left : Bytes) : store.tree.entries <+: (replay (frames payloads ++ left)).tree.entries := by
  obtain ⟨byKey, hruns, _⟩ := h.runs
  obtain ⟨fuel, hfuel, hwalk⟩ := walk_append maxRecordBytes_lt hruns
    (le_refl (frames payloads ++ left).length)
  obtain ⟨_, last, _, _, hmore, hend⟩ := @walk_cases maxRecordBytes Replay Replay.record
    ⟨store.tree, byKey, store.bytes, store.tail⟩ fuel left hfuel
  have hprefix : store.tree.entries <+: last.tree.entries := by
    apply hmore.keeps (P := fun loop => store.tree.entries <+: loop.tree.entries)
    · intro loop next payload hloop haccepted
      obtain ⟨entry, _, _, _, rfl⟩ := record_eq_next.mp haccepted
      exact hloop.trans (List.prefix_append _ _)
    · exact List.prefix_rfl
  rw [Ledger.replay, hwalk]
  dsimp only
  rcases hend with ⟨_, heq⟩ | ⟨_, _, _, hstop⟩
  · rw [heq]
    exact hprefix
  · rcases record_eq_stop hstop with heq | ⟨_, _, _, _, heq⟩
    · rw [heq]
      exact hprefix
    · rw [heq]
      exact hprefix

variable [LawfulCbor LedgerEntry]

theorem OnFile.append {payloads : List Bytes} {store : LedgerStore} (h : OnFile payloads store)
    {transformation : TransformationId} {receiptDigest : Cid} {appendedAt : Timestamp}
    {payload : Bytes} (hkey : store.byKey[transformation]? = none)
    (hencoded : Cbor.encode (store.tree.stage transformation receiptDigest appendedAt) = some payload)
    (hle : payload.length ≤ maxRecordBytes) :
    OnFile (payloads ++ [payload])
      { store with
        tree := store.tree.append transformation receiptDigest appendedAt
        byKey := store.byKey.insert transformation store.tree.len
        bytes := store.bytes + lengthBytes + payload.length
        tail := some ⟨store.bytes, frame payload⟩ } := by
  obtain ⟨byKey, hruns, hkeys⟩ := h.runs
  refine ⟨byKey.insert transformation store.tree.len, ?_, ?_⟩
  · apply hruns.concat ⟨LawfulCbor.encode_length_pos hencoded, hle⟩
    rw [record_eq_next]
    exact ⟨_, LawfulCbor.decode_encode hencoded, stagedAt_stage _ _ _, hkeys _ hkey, rfl⟩
  · intro key hnone
    dsimp only at hnone
    rw [Std.ExtTreeMap.getElem?_insert] at hnone ⊢
    split at hnone
    next => cases hnone
    next hne =>
      rw [if_neg hne]
      exact hkeys key hnone

end Files

section Answers

variable [Canon] [Cbor LedgerEntry]

/-- The entry an append answered that it had appended. -/
def appendedBy : Except StoreError AppendOutcome → List LedgerEntry
  | .ok (.appended entry) => [entry]
  | .ok (.alreadyPresent _) => []
  | .error _ => []

/-- The runs of appends on one store, opened over some bytes, with what they have answered; every
append is one that is allowed. -/
inductive Answered (allowed : LedgerStore → Bytes → TransformationId → Prop) (bytes : Bytes) :
    LedgerStore → Bytes → List LedgerEntry → Prop where
  | opened : Answered allowed bytes (LedgerStore.open_ bytes).1 (LedgerStore.open_ bytes).2 []
  | append {store : LedgerStore} {file : Bytes} {answered : List LedgerEntry}
      (h : Answered allowed bytes store file answered) {transformation : TransformationId}
      (hallowed : allowed store file transformation) (receiptDigest : Cid) (appendedAt : Timestamp)
      (write : Write) :
    Answered allowed bytes (store.append file transformation receiptDigest appendedAt write).1
      (store.append file transformation receiptDigest appendedAt write).2.1
      (answered ++ appendedBy
        (store.append file transformation receiptDigest appendedAt write).2.2)

/-- An append that will write finds no bytes on the file that a failed one has left. -/
def Unspoilt (store : LedgerStore) (file : Bytes) (transformation : TransformationId) : Prop :=
  store.byKey[transformation]? = none → file.length = store.bytes

/-- What the file holds of a store and its answers, in a run whose writes are never spoilt. -/
structure Durable (store : LedgerStore) (file : Bytes) (answered : List LedgerEntry) : Prop where
  file : ∃ payloads left, file = frames payloads ++ left ∧ OnFile payloads store
  answered : ∀ entry ∈ answered, store.tree.entries[entry.index]? = some entry

theorem Durable.append [LawfulCbor LedgerEntry] {store : LedgerStore} {file : Bytes}
    {answered : List LedgerEntry} (h : Durable store file answered)
    {transformation : TransformationId} (hunspoilt : Unspoilt store file transformation)
    (receiptDigest : Cid) (appendedAt : Timestamp) (write : Write) :
    Durable (store.append file transformation receiptDigest appendedAt write).1
      (store.append file transformation receiptDigest appendedAt write).2.1
      (answered ++ appendedBy
        (store.append file transformation receiptDigest appendedAt write).2.2) := by
  obtain ⟨payloads, left, hfile, honFile⟩ := h.file
  have hcases := @appends _ _ store file transformation receiptDigest appendedAt write
  generalize store.append file transformation receiptDigest appendedAt write = after at hcases
  cases hcases with
  | refused more error =>
    constructor
    · exact ⟨payloads, left ++ more, by rw [hfile, List.append_assoc], honFile⟩
    · rw [appendedBy, List.append_nil]
      exact h.answered
  | present entry =>
    constructor
    · exact h.file
    · rw [appendedBy, List.append_nil]
      exact h.answered
  | @appended payload hkey hencoded hle =>
    have hnothing : left = [] := by
      have hlength := hunspoilt hkey
      rw [hfile, List.length_append, honFile.bytes] at hlength
      exact List.length_eq_zero_iff.mp (by omega)
    constructor
    · refine ⟨payloads ++ [payload], [], ?_, honFile.append hkey hencoded hle⟩
      rw [hfile, hnothing, List.append_nil, List.append_nil, frames_concat]
    · intro entry hmem
      rcases List.mem_append.mp hmem with hmem | hmem
      · have hentry := h.answered entry hmem
        exact (List.getElem?_append_left (List.getElem?_eq_some_iff.mp hentry).1).trans hentry
      · rw [List.mem_singleton.mp hmem]
        exact List.getElem?_concat_length

end Answers

/-- Whatever writes and syncs fail, what was answered as appended is read back, in a run where no
append writes behind the bytes that a failed one has left. -/
theorem answered_appends_are_replayed [Canon] [Cbor LedgerEntry] [LawfulCbor LedgerEntry]
    {bytes : Bytes} {store : LedgerStore} {file : Bytes} {answered : List LedgerEntry}
    (h : Answered Unspoilt bytes store file answered) :
    ∀ entry ∈ answered,
      (LedgerStore.open_ file).1.tree.entries[entry.index]? = some entry := by
  have hdurable : Durable store file answered := by
    induction h with
    | opened =>
      obtain ⟨payloads, hfile, honFile⟩ := @onFile_open _ _ bytes
      exact ⟨⟨payloads, [], by rw [hfile, List.append_nil], honFile⟩, by simp⟩
    | append _ hunspoilt receiptDigest appendedAt write ih =>
      exact ih.append hunspoilt receiptDigest appendedAt write
  intro entry hmem
  obtain ⟨payloads, left, rfl, honFile⟩ := hdurable.file
  have hentry := hdurable.answered entry hmem
  obtain ⟨more, hmore⟩ := honFile.replay left
  change (replay (frames payloads ++ left)).tree.entries[entry.index]? = some entry
  rw [← hmore, List.getElem?_append_left (List.getElem?_eq_some_iff.mp hentry).1, hentry]

namespace Sample

open Tracefold.Ideal

/-- A store over an empty file. -/
noncomputable def empty : LedgerStore := (LedgerStore.open_ []).1

/-- What it stages of a transformation. -/
noncomputable def staged (transformation : ℕ) : LedgerEntry :=
  empty.tree.stage ⟨[transformation]⟩ ⟨[9]⟩ 0

theorem onFile_empty : OnFile [] empty := ⟨∅, .nil _, fun _ _ => Std.ExtTreeMap.getElem?_empty⟩

theorem append_empty (transformation : ℕ) (file : Bytes) (write : Write)
    (hle : (bytesOf (staged transformation)).length ≤ maxRecordBytes) :
    empty.append file ⟨[transformation]⟩ ⟨[9]⟩ 0 write =
      match write with
      | .cut written =>
        (empty, file ++ (frame (bytesOf (staged transformation))).take written, .error .io)
      | .unsynced => (empty, file ++ frame (bytesOf (staged transformation)), .error .io)
      | .done =>
        ({ empty with
           tree := empty.tree.append ⟨[transformation]⟩ ⟨[9]⟩ 0
           byKey := empty.byKey.insert ⟨[transformation]⟩ empty.tree.len
           bytes := empty.bytes + lengthBytes + (bytesOf (staged transformation)).length
           tail := some ⟨empty.bytes, frame (bytesOf (staged transformation))⟩ },
          file ++ frame (bytesOf (staged transformation)), .ok (.appended (staged transformation))) :=
  append_new rfl Std.ExtTreeMap.getElem?_empty rfl hle write

end Sample

open Tracefold.Ideal Sample in
/-- An append, and then one whose write fails halfway. -/
theorem answered_appends_are_replayed_once :
    ∃ store file, Answered Unspoilt [] store file [staged 1] ∧
      (LedgerStore.open_ file).1.tree.entries[0]? = some (staged 1) := by
  have hfirst := @Answered.append _ _ Unspoilt [] _ _ _ .opened ⟨[1]⟩ (fun _ => rfl) ⟨[9]⟩ 0 .done
  rw [show LedgerStore.append (LedgerStore.open_ []).1 (LedgerStore.open_ []).2 ⟨[1]⟩ ⟨[9]⟩ 0 .done =
    _ from append_empty 1 [] .done (by decide)] at hfirst
  have hsecond := @Answered.append _ _ Unspoilt [] _ _ _ hfirst ⟨[2]⟩ (fun _ => rfl) ⟨[9]⟩ 0 (.cut 3)
  rw [append_new rfl (by decide) rfl (by decide)] at hsecond
  exact ⟨_, _, hsecond, answered_appends_are_replayed hsecond _ (List.mem_singleton_self _)⟩

open Tracefold.Ideal Sample in
/-- A record that was written but not synced stays on the file, and the next one is appended behind
it, with the same index. -/
theorem unsynced_record_hides_the_next :
    ∃ store file, Answered (fun _ _ _ => True) [] store file [staged 2] ∧
      (LedgerStore.open_ file).1.tree.entries[(staged 2).index]? ≠ some (staged 2) := by
  have hfirst := @Answered.append _ _ (fun _ _ _ => True) [] _ _ _ .opened ⟨[1]⟩ trivial ⟨[9]⟩ 0
    .unsynced
  rw [show LedgerStore.append (LedgerStore.open_ []).1 (LedgerStore.open_ []).2 ⟨[1]⟩ ⟨[9]⟩ 0
    .unsynced = _ from append_empty 1 [] .unsynced (by decide)] at hfirst
  have hsecond := @Answered.append _ _ (fun _ _ _ => True) [] _ _ _ hfirst ⟨[2]⟩ trivial ⟨[9]⟩ 0
    .done
  rw [append_empty 2 _ .done (by decide)] at hsecond
  refine ⟨_, _, hsecond, ?_⟩
  have hleft : OnFile [bytesOf (staged 1)] { empty with
      tree := empty.tree.append ⟨[1]⟩ ⟨[9]⟩ 0
      byKey := empty.byKey.insert ⟨[1]⟩ empty.tree.len
      bytes := empty.bytes + lengthBytes + (bytesOf (staged 1)).length
      tail := some ⟨empty.bytes, frame (bytesOf (staged 1))⟩ } :=
    onFile_empty.append Std.ExtTreeMap.getElem?_empty rfl (by decide)
  obtain ⟨more, hmore⟩ := hleft.replay (frame (bytesOf (staged 2)))
  rw [show frames [bytesOf (staged 1)] = frame (bytesOf (staged 1)) from List.append_nil _] at hmore
  change (replay (frame (bytesOf (staged 1)) ++ frame (bytesOf (staged 2)))).tree.entries[0]? ≠
    some (staged 2)
  rw [← hmore, List.getElem?_append_left Nat.one_pos]
  decide

section Prefixes

variable [Canon] [Cbor LedgerEntry]

/-- The bytes an entry is written as. -/
def payloadOf (entry : LedgerEntry) : Bytes := (Cbor.encode entry).getD []

/-- Where the records of the first entries end on the file. -/
def recordEnd (entries : List LedgerEntry) (k : ℕ) : ℕ :=
  (frames ((entries.take k).map payloadOf)).length

/-- A store and its file after appends that all succeeded, from an empty file on. -/
inductive Written : LedgerStore → Bytes → Prop where
  | opened : Written (LedgerStore.open_ []).1 (LedgerStore.open_ []).2
  | append {store store' : LedgerStore} {file file' : Bytes} (h : Written store file)
      {transformation : TransformationId} {receiptDigest : Cid} {appendedAt : Timestamp}
      {write : Write} {outcome : AppendOutcome}
      (hok : store.append file transformation receiptDigest appendedAt write =
        (store', file', .ok outcome)) :
    Written store' file'

/-- The file is the records of the entries, and the store what a replay of it makes. -/
structure Exact (store : LedgerStore) (file : Bytes) : Prop where
  file : file = frames (store.tree.entries.map payloadOf)
  onFile : OnFile (store.tree.entries.map payloadOf) store
  indexed : Indexes store.byKey store.tree

theorem Written.exact [LawfulCbor LedgerEntry] {store : LedgerStore} {file : Bytes}
    (h : Written store file) : Exact store file := by
  induction h with
  | opened => exact ⟨rfl, ⟨∅, .nil _, fun _ _ => Std.ExtTreeMap.getElem?_empty⟩, indexes_new⟩
  | @append store store' file file' _ transformation receiptDigest appendedAt write outcome hok ih =>
    have hindexed := @Indexes.append _ _ store file ih.indexed transformation receiptDigest
      appendedAt write
    have hcases := @appends _ _ store file transformation receiptDigest appendedAt write
    rw [hok] at hcases hindexed
    cases hcases with
    | present entry => exact ih
    | @appended payload hkey hencoded hle =>
      have hpayload : payloadOf (store.tree.stage transformation receiptDigest appendedAt) =
          payload := by
        rw [payloadOf, hencoded]
        rfl
      have hentries : (store.tree.append transformation receiptDigest appendedAt).entries.map
          payloadOf = store.tree.entries.map payloadOf ++ [payload] := by
        rw [TileLog.append, entries_commit, List.map_append, List.map_singleton, hpayload]
      constructor
      · dsimp only
        rw [hentries, frames_concat, ← ih.file]
      · dsimp only
        rw [hentries]
        exact ih.onFile.append hkey hencoded hle
      · exact hindexed

omit [Canon] [Cbor LedgerEntry] in
theorem Indexes.unique {a b : BTreeMap TransformationId ℕ} {tree : TileLog} (ha : Indexes a tree)
    (hb : Indexes b tree) : a = b := by
  apply Std.ExtTreeMap.ext_getElem?
  intro key
  apply Option.ext
  intro i
  rw [ha key i, hb key i]

theorem entries_of_runs {before after : List Bytes} {mid last : Replay}
    (hbefore : Runs maxRecordBytes Replay.record .start before mid)
    (hafter : Runs maxRecordBytes Replay.record mid after last) :
    mid.tree.entries = last.tree.entries.take before.length := by
  have hprefix : mid.tree.entries <+: last.tree.entries := by
    apply hafter.keeps (P := fun loop => mid.tree.entries <+: loop.tree.entries)
    · intro loop next payload hloop haccepted
      obtain ⟨entry, _, _, _, rfl⟩ := record_eq_next.mp haccepted
      exact hloop.trans (List.prefix_append _ _)
    · exact List.prefix_rfl
  rw [(reads_of_runs hbefore).decoded.length_eq]
  exact List.prefix_iff_eq_take.mp hprefix

end Prefixes

/-- A ledger cut anywhere is replayed up to its last whole record; and a whole one is replayed to
the store that wrote it. -/
theorem crash_prefix_is_replayed [Canon] [Cbor LedgerEntry] [LawfulCbor LedgerEntry]
    {store : LedgerStore} {file : Bytes} (h : Written store file) (length : ℕ)
    (hlength : length ≤ file.length) :
    ∃ k ≤ store.tree.len,
      (∀ i < store.tree.len, i < k ↔ recordEnd store.tree.entries (i + 1) ≤ length) ∧
      (replay (file.take length)).tree.entries = store.tree.entries.take k ∧
      (replay (file.take length)).tree.leaves = store.tree.leaves.take k ∧
      (replay (file.take length)).tree.Built ∧
      (∀ (key : TransformationId) (i : ℕ), (replay (file.take length)).byKey[key]? = some i ↔
        store.byKey[key]? = some i ∧ i < k) ∧
      (replay (file.take length)).goodBytes = recordEnd store.tree.entries k ∧
      (replay (file.take length)).tornTailBytes = length - recordEnd store.tree.entries k ∧
      (length = file.length →
        (replay (file.take length)).tree = store.tree ∧
        (replay (file.take length)).byKey = store.byKey ∧
        (replay (file.take length)).goodBytes = store.bytes ∧
        (replay (file.take length)).tornTailBytes = 0 ∧
        (replay (file.take length)).tail = store.tail) := by
  have hexact := h.exact
  obtain ⟨byKey, hruns, _⟩ := hexact.onFile.runs
  have hlast := reads_of_runs hruns
  obtain rfl := hexact.indexed.unique hlast.indexed
  have hfile := hexact.file
  rw [hfile] at hlength
  obtain ⟨k, rest, hk, htake, hrest, hends⟩ := frames_cut maxRecordBytes_lt hruns.fits hlength
  obtain ⟨mid, hbefore, hafter⟩ := hruns.take k
  have hmid := reads_of_runs hbefore
  have hentries := entries_of_runs hbefore hafter
  rw [List.length_map] at hk hends
  have hbeforeLength : ((store.tree.entries.map payloadOf).take k).length = k := by
    rw [List.length_take, List.length_map, Nat.min_eq_left hk]
  rw [hbeforeLength] at hentries
  dsimp only at hentries
  have hreplay : replay (file.take length) =
      ⟨mid.tree, mid.byKey, mid.good, length - mid.good, mid.tail⟩ := by
    obtain ⟨fuel, _, hwalk⟩ := walk_append maxRecordBytes_lt hbefore
      (le_refl (frames ((store.tree.entries.map payloadOf).take k) ++ rest).length)
    rw [walk_done hrest] at hwalk
    have hlen : (file.take length).length = length := by
      rw [List.length_take, hfile, Nat.min_eq_left hlength]
    rw [replay, hlen]
    rw [hfile, htake] at hlen ⊢
    rw [← hlen, hwalk]
  have hgood : mid.good = recordEnd store.tree.entries k := by
    rw [hmid.good, recordEnd, List.map_take]
  rw [hreplay]
  dsimp only
  refine ⟨k, hk, ?_, hentries, ?_, hmid.built, ?_, hgood, by rw [hgood], ?_⟩
  · intro i hi
    rw [hends i hi, recordEnd, List.map_take]
  · rw [hmid.built.kept.leaves, hlast.built.kept.leaves, hentries, List.map_take]
  · intro key i
    rw [hmid.indexed key i, hexact.indexed key i, hentries, List.getElem?_take]
    by_cases hlt : i < k
    · simp [hlt]
    · simp [hlt]
  · intro hwhole
    have hall : k = store.tree.len := by
      rw [hfile] at hwhole
      by_contra hne
      have hlt : k < store.tree.len := Nat.lt_of_le_of_ne hk hne
      have hinside := (hends k hlt).mpr (by
        rw [hwhole]
        exact ((List.take_prefix _ _).flatMap frame).length_le)
      exact absurd hinside (lt_irrefl k)
    have hdone : mid = ⟨store.tree, store.byKey, store.bytes, store.tail⟩ := by
      rw [hall, List.drop_of_length_le (by rw [List.length_map]; exact le_rfl)] at hafter
      cases hafter
      rfl
    rw [hdone, hwhole, hfile, ← hexact.onFile.bytes]
    exact ⟨rfl, rfl, rfl, Nat.sub_self _, rfl⟩

open Tracefold.Ideal Sample in
/-- A ledger of one record, cut inside it and whole. -/
theorem crash_prefix_is_replayed_once :
    ∃ store file, Written store file ∧ 3 ≤ file.length ∧
      (replay (file.take 3)).tree.entries = [] ∧ (replay (file.take 3)).tornTailBytes = 3 ∧
      (replay (file.take file.length)).tree = store.tree ∧
      store.tree.entries = [staged 1] := by
  have hwritten := Written.append .opened (append_empty 1 [] .done (by decide))
  refine ⟨_, _, hwritten, by decide, ?_⟩
  obtain ⟨k, hk, hends, hentries, _, _, _, _, htorn, _⟩ :=
    crash_prefix_is_replayed hwritten 3 (by decide)
  obtain ⟨_, _, _, _, _, _, _, _, _, hwhole⟩ := crash_prefix_is_replayed hwritten _ le_rfl
  have hzero : k = 0 := by
    have hnot : ¬ 0 < k := by
      rw [hends 0 (by decide)]
      decide
    omega
  rw [hentries, htorn, hzero]
  exact ⟨rfl, rfl, (hwhole rfl).1, rfl⟩

end Tracefold.Ledger
