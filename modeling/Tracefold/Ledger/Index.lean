import Mathlib.Tactic.Common
import Tracefold.Ideal.Cbor
import Tracefold.Ledger.Complete
import Tracefold.Ledger.Store

/-! What a replay has read, and when the index it leaves behind names the entries of the tree. -/

namespace Tracefold.Ledger

open Library.Frames

/-- An entry that its own log would have staged, at a place of it. -/
def StagedAt [Canon] (index : ℕ) (entry : LedgerEntry) : Prop :=
  entry.index = index ∧ entry.leafCid = leafHash entry.leaf

/-- A key leads to the index of the entry that carries it, and every entry is led to. -/
def Indexes (byKey : BTreeMap TransformationId ℕ) (tree : TileLog) : Prop :=
  ∀ (key : TransformationId) (i : ℕ),
    byKey[key]? = some i ↔ ∃ entry, tree.entries[i]? = some entry ∧ entry.transformation = key

section Records

variable [Canon] {tree : TileLog} {byKey : BTreeMap TransformationId ℕ} {entry : LedgerEntry}

theorem stage_eq_iff :
    tree.stage entry.transformation entry.receiptDigest entry.appendedAt = entry ↔
      StagedAt tree.len entry := by
  constructor
  · intro h
    rw [← h]
    exact ⟨rfl, rfl⟩
  · rintro ⟨hindex, hleaf⟩
    cases entry
    simp only [LedgerEntry.leaf] at hindex hleaf
    subst hindex
    rw [TileLog.stage, hleaf]

theorem stagedAt_stage (transformation : TransformationId) (receiptDigest : Cid)
    (appendedAt : Timestamp) :
    StagedAt tree.len (tree.stage transformation receiptDigest appendedAt) := ⟨rfl, rfl⟩

theorem entries_commit : (tree.commit entry).entries = tree.entries ++ [entry] := rfl

omit [Canon] in
theorem indexes_new : Indexes ∅ .new := by
  intro key i
  simp [TileLog.new]

theorem Indexes.commit (h : Indexes byKey tree) (hnew : byKey[entry.transformation]? = none)
    (hstaged : StagedAt tree.len entry) :
    Indexes (byKey.insert entry.transformation entry.index) (tree.commit entry) := by
  intro key i
  rw [Std.ExtTreeMap.getElem?_insert, entries_commit, hstaged.1]
  split
  next hkey =>
    obtain rfl := Std.LawfulEqOrd.eq_of_compare hkey
    constructor
    · intro heq
      obtain rfl := Option.some.inj heq
      exact ⟨entry, List.getElem?_concat_length, rfl⟩
    · rintro ⟨other, hother, hsame⟩
      rcases Nat.lt_trichotomy i tree.entries.length with hlt | rfl | hgt
      · rw [List.getElem?_append_left hlt] at hother
        rw [(h _ i).mpr ⟨other, hother, hsame⟩] at hnew
        cases hnew
      · rfl
      · rw [List.getElem?_eq_none (by rw [List.length_append, List.length_singleton]; omega)] at hother
        cases hother
  next hkey =>
    rw [h key i]
    constructor
    · rintro ⟨other, hother, hsame⟩
      have hlt := (List.getElem?_eq_some_iff.mp hother).1
      exact ⟨other, (List.getElem?_append_left hlt).trans hother, hsame⟩
    · rintro ⟨other, hother, hsame⟩
      rcases Nat.lt_trichotomy i tree.entries.length with hlt | rfl | hgt
      · rw [List.getElem?_append_left hlt] at hother
        exact ⟨other, hother, hsame⟩
      · rw [List.getElem?_concat_length] at hother
        obtain rfl := Option.some.inj hother
        rw [hsame] at hkey
        exact absurd Std.ReflCmp.compare_self hkey
      · rw [List.getElem?_eq_none (by rw [List.length_append, List.length_singleton]; omega)] at hother
        cases hother

omit [Canon] in
theorem Indexes.nodup (h : Indexes byKey tree) : (tree.entries.map (·.transformation)).Nodup := by
  rw [List.nodup_iff_getElem?_ne_getElem?]
  intro i j hij hj heq
  rw [List.length_map] at hj
  rw [List.getElem?_map, List.getElem?_map, List.getElem?_eq_getElem (hij.trans hj),
    List.getElem?_eq_getElem hj, Option.map_some, Option.map_some, Option.some.injEq] at heq
  have hi := (h _ i).mpr ⟨_, List.getElem?_eq_getElem (hij.trans hj), rfl⟩
  rw [heq, (h _ j).mpr ⟨_, List.getElem?_eq_getElem hj, rfl⟩] at hi
  exact hij.ne (Option.some.inj hi).symm

variable [Cbor LedgerEntry] {loop next : Replay} {payload : Bytes}

theorem record_eq_next :
    loop.record payload = .next next ↔
      ∃ entry, Cbor.decode payload = some entry ∧ StagedAt loop.tree.len entry ∧
        loop.byKey[entry.transformation]? = none ∧
        next = ⟨loop.tree.commit entry, loop.byKey.insert entry.transformation entry.index,
          loop.good + lengthBytes + payload.length, some ⟨loop.good, frame payload⟩⟩ := by
  rw [Replay.record]
  cases hdecode : Cbor.decode (α := LedgerEntry) payload with
  | none => simp
  | some entry =>
    dsimp only
    by_cases hindex : entry.index = loop.tree.len
    · rw [if_neg (not_not.mpr hindex)]
      by_cases hstaged : loop.tree.stage entry.transformation entry.receiptDigest
          entry.appendedAt = entry
      · rw [if_neg (not_not.mpr hstaged), hstaged]
        rw [stage_eq_iff] at hstaged
        cases hkey : loop.byKey[entry.transformation]? with
        | none =>
          simp only [Option.isSome_none, Bool.false_eq_true, if_false, Flow.next.injEq]
          constructor
          · rintro rfl
            exact ⟨entry, rfl, hstaged, hkey, rfl⟩
          · rintro ⟨_, heq, _, _, rfl⟩
            obtain rfl := Option.some.inj heq
            rfl
        | some index =>
          simp only [Option.isSome_some, if_true, reduceCtorEq, false_iff]
          rintro ⟨_, heq, _, hnone, _⟩
          obtain rfl := Option.some.inj heq
          rw [hkey] at hnone
          cases hnone
      · rw [if_pos hstaged]
        simp only [reduceCtorEq, false_iff]
        rintro ⟨_, heq, hat, _, _⟩
        obtain rfl := Option.some.inj heq
        exact hstaged (stage_eq_iff.mpr hat)
    · rw [if_pos hindex]
      simp only [reduceCtorEq, false_iff]
      rintro ⟨_, heq, hat, _, _⟩
      obtain rfl := Option.some.inj heq
      exact hindex hat.1

/-- A record that is not read leaves the loop as it was, unless it repeats a key. -/
theorem record_eq_stop (h : loop.record payload = .stop next) :
    next = loop ∨ ∃ entry, Cbor.decode payload = some entry ∧ StagedAt loop.tree.len entry ∧
      loop.byKey[entry.transformation]?.isSome ∧
      next = { loop with byKey := loop.byKey.insert entry.transformation entry.index } := by
  rw [Replay.record] at h
  cases hdecode : Cbor.decode (α := LedgerEntry) payload with
  | none =>
    rw [hdecode] at h
    cases h
    exact .inl rfl
  | some entry =>
    rw [hdecode] at h
    dsimp only at h
    split_ifs at h with hindex hstaged hkey
    · cases h
      exact .inl rfl
    · cases h
      exact .inl rfl
    · cases h
      exact .inr ⟨entry, rfl, stage_eq_iff.mp (not_not.mp hstaged), hkey, rfl⟩

theorem record_repeats (hdecode : Cbor.decode payload = some entry)
    (hstaged : StagedAt loop.tree.len entry) (hkey : loop.byKey[entry.transformation]?.isSome) :
    loop.record payload =
      .stop { loop with byKey := loop.byKey.insert entry.transformation entry.index } := by
  rw [Replay.record, hdecode]
  dsimp only
  rw [if_neg (not_not.mpr hstaged.1), if_neg (not_not.mpr (stage_eq_iff.mpr hstaged)), if_pos hkey]

/-- What the loop has made of the records it has read. -/
structure Reads (payloads : List Bytes) (loop : Replay) : Prop where
  decoded : List.Forall₂ (fun payload entry => Cbor.decode payload = some entry) payloads
    loop.tree.entries
  built : loop.tree.Built
  indexed : Indexes loop.byKey loop.tree
  good : loop.good = (frames payloads).length

theorem reads_start : Reads [] .start where
  decoded := .nil
  built := .new
  indexed := indexes_new
  good := rfl

theorem Reads.record {payloads : List Bytes} (h : Reads payloads loop)
    (haccepted : loop.record payload = .next next) : Reads (payloads ++ [payload]) next := by
  obtain ⟨entry, hdecode, hstaged, hkey, rfl⟩ := record_eq_next.mp haccepted
  constructor
  · exact List.rel_append h.decoded (.cons hdecode .nil)
  · have happend := h.built.append entry.transformation entry.receiptDigest entry.appendedAt
    rwa [TileLog.append, stage_eq_iff.mpr hstaged] at happend
  · exact h.indexed.commit hkey hstaged
  · rw [frames_concat, List.length_append, length_frame, ← h.good, Nat.add_assoc]

theorem reads_of_runs {payloads : List Bytes} {last : Replay}
    (h : Runs maxRecordBytes Replay.record .start payloads last) : Reads payloads last := by
  apply h.induction
  · exact reads_start
  · intro payloads mid next payload _ hmid _ haccepted
    exact hmid.record haccepted

theorem runs_of_decoded {payloads : List Bytes} {entries : List LedgerEntry}
    (hdecoded : List.Forall₂ (fun payload entry => Cbor.decode payload = some entry) payloads entries)
    (hfits : ∀ payload ∈ payloads, Fits maxRecordBytes payload)
    (hstaged : ∀ (i : ℕ) (entry : LedgerEntry), entries[i]? = some entry → StagedAt i entry)
    (hnodup : (entries.map (·.transformation)).Nodup) :
    ∃ last, Runs maxRecordBytes Replay.record .start payloads last ∧ last.tree.entries = entries := by
  induction entries using List.reverseRecOn generalizing payloads with
  | nil =>
    rw [List.forall₂_nil_right_iff] at hdecoded
    subst hdecoded
    exact ⟨.start, .nil _, rfl⟩
  | append_singleton entries entry ih =>
    obtain ⟨payload, hpayload, hone⟩ :=
      List.forall₂_cons_right_iff.mp (List.forall₂_drop_append _ _ _ hdecoded)
    obtain ⟨hpayload, hnil, hlast⟩ := hone
    rw [List.forall₂_nil_right_iff] at hnil
    have hbefore := List.forall₂_take_append _ _ _ hdecoded
    rw [← List.take_append_drop entries.length payloads, hlast, hnil] at hfits ⊢
    clear hdecoded hlast
    generalize payloads.take entries.length = before at *
    rw [List.map_append, List.map_singleton, List.nodup_append] at hnodup
    obtain ⟨last, hruns, hentries⟩ := ih hbefore
      (fun p hp => hfits p (List.mem_append_left _ hp))
      (fun i e he => hstaged i e
        ((List.getElem?_append_left (List.getElem?_eq_some_iff.mp he).1).trans he)) hnodup.1
    have hread := reads_of_runs hruns
    have hat : StagedAt last.tree.len entry := by
      rw [TileLog.len, hentries]
      exact hstaged _ _ List.getElem?_concat_length
    have hkey : last.byKey[entry.transformation]? = none := by
      rw [Option.eq_none_iff_forall_ne_some]
      intro i hi
      obtain ⟨other, hother, hsame⟩ := (hread.indexed _ i).mp hi
      rw [hentries] at hother
      exact hnodup.2.2 _ (List.mem_map_of_mem (List.mem_of_getElem? hother)) _
        (List.mem_singleton_self _) hsame
    refine ⟨_, hruns.concat (hfits _ (List.mem_append_right _ (List.mem_singleton_self _)))
      (record_eq_next.mpr ⟨entry, hpayload, hat, hkey, rfl⟩), ?_⟩
    rw [entries_commit, hentries]

end Records

section Stores

variable [Canon] [Cbor LedgerEntry]

/-- What an append can do. -/
inductive Appends (store : LedgerStore) (file : Bytes) (transformation : TransformationId)
    (receiptDigest : Cid) (appendedAt : Timestamp) :
    LedgerStore × Bytes × Except StoreError AppendOutcome → Prop where
  | refused (left : Bytes) (error : StoreError) :
    Appends store file transformation receiptDigest appendedAt (store, file ++ left, .error error)
  | present (entry : LedgerEntry) :
    Appends store file transformation receiptDigest appendedAt
      (store, file, .ok (.alreadyPresent entry))
  | appended {payload : Bytes} (key : store.byKey[transformation]? = none)
      (encoded : Cbor.encode (store.tree.stage transformation receiptDigest appendedAt) =
        some payload)
      (fits : payload.length ≤ maxRecordBytes) :
    Appends store file transformation receiptDigest appendedAt
      ({ store with
         tree := store.tree.append transformation receiptDigest appendedAt
         byKey := store.byKey.insert transformation store.tree.len
         bytes := store.bytes + lengthBytes + payload.length
         tail := some ⟨store.bytes, frame payload⟩ },
        file ++ frame payload,
        .ok (.appended (store.tree.stage transformation receiptDigest appendedAt)))

variable {store : LedgerStore} {file : Bytes}

theorem appends (transformation : TransformationId) (receiptDigest : Cid) (appendedAt : Timestamp)
    (write : Write) :
    Appends store file transformation receiptDigest appendedAt
      (store.append file transformation receiptDigest appendedAt write) := by
  have hsame : ∀ error, Appends store file transformation receiptDigest appendedAt
      (store, file, .error error) := by
    intro error
    have hrefused := @Appends.refused _ _ store file transformation receiptDigest appendedAt [] error
    rwa [List.append_nil] at hrefused
  rw [LedgerStore.append]
  split_ifs with hread
  · exact hsame _
  cases hkey : store.byKey[transformation]? with
  | some index =>
    dsimp only
    cases store.tree.entries[index]? with
    | none => exact hsame _
    | some recorded =>
      dsimp only
      split_ifs
      · exact .present recorded
      · exact hsame _
  | none =>
    dsimp only
    cases hencode : Cbor.encode (store.tree.stage transformation receiptDigest appendedAt) with
    | none => exact hsame _
    | some payload =>
      dsimp only [LedgerStore.writeAndSync]
      by_cases hlong : maxRecordBytes < payload.length
      · rw [if_pos hlong]
        exact hsame _
      · rw [if_neg hlong]
        cases write with
        | cut written => exact .refused _ _
        | unsynced => exact .refused _ _
        | done => exact .appended hkey hencode (Nat.le_of_not_lt hlong)

theorem append_new {transformation : TransformationId} {receiptDigest : Cid}
    {appendedAt : Timestamp} {payload : Bytes} (hwritable : store.readOnly = false)
    (hkey : store.byKey[transformation]? = none)
    (hencoded : Cbor.encode (store.tree.stage transformation receiptDigest appendedAt) =
      some payload) (hle : payload.length ≤ maxRecordBytes) (write : Write) :
    store.append file transformation receiptDigest appendedAt write =
      match write with
      | .cut written => (store, file ++ (frame payload).take written, .error .io)
      | .unsynced => (store, file ++ frame payload, .error .io)
      | .done =>
        ({ store with
           tree := store.tree.append transformation receiptDigest appendedAt
           byKey := store.byKey.insert transformation store.tree.len
           bytes := store.bytes + lengthBytes + payload.length
           tail := some ⟨store.bytes, frame payload⟩ },
          file ++ frame payload,
          .ok (.appended (store.tree.stage transformation receiptDigest appendedAt))) := by
  rw [LedgerStore.append, if_neg (by rw [hwritable]; decide), hkey]
  dsimp only
  rw [hencoded]
  dsimp only [LedgerStore.writeAndSync]
  rw [if_neg (Nat.not_lt.mpr hle)]
  cases write with
  | cut written => rfl
  | unsynced => rfl
  | done => rfl

/-- The stores that appends lead to, whatever becomes of their writes, from one opened over some
bytes. -/
inductive Reached (bytes : Bytes) : LedgerStore → Bytes → Prop where
  | opened : Reached bytes (LedgerStore.open_ bytes).1 (LedgerStore.open_ bytes).2
  | append {store : LedgerStore} {file : Bytes} (h : Reached bytes store file)
      (transformation : TransformationId) (receiptDigest : Cid) (appendedAt : Timestamp)
      (write : Write) :
    Reached bytes (store.append file transformation receiptDigest appendedAt write).1
      (store.append file transformation receiptDigest appendedAt write).2.1

/-- An append keeps an index that is right. -/
theorem Indexes.append (h : Indexes store.byKey store.tree) (transformation : TransformationId)
    (receiptDigest : Cid) (appendedAt : Timestamp) (write : Write) :
    Indexes (store.append file transformation receiptDigest appendedAt write).1.byKey
      (store.append file transformation receiptDigest appendedAt write).1.tree := by
  have hcases := @appends _ _ store file transformation receiptDigest appendedAt write
  generalize store.append file transformation receiptDigest appendedAt write = after at hcases
  cases hcases with
  | refused left error => exact h
  | present entry => exact h
  | appended hkey _ _ => exact h.commit hkey (stagedAt_stage _ _ _)

/-- Bytes that begin as a ledger does, up to a record that would be the next one but for its key,
which an earlier record carries. -/
def RepeatsKey (bytes : Bytes) : Prop :=
  ∃ (payloads : List Bytes) (entries : List LedgerEntry) (payload : Bytes) (entry : LedgerEntry)
    (rest : Bytes), bytes = frames payloads ++ (frame payload ++ rest) ∧
    (∀ record ∈ payloads ++ [payload], Fits maxRecordBytes record) ∧
    List.Forall₂ (fun payload entry => Cbor.decode payload = some entry) payloads entries ∧
    Cbor.decode payload = some entry ∧
    (∀ (i : ℕ) (other : LedgerEntry), (entries ++ [entry])[i]? = some other → StagedAt i other) ∧
    (entries.map (·.transformation)).Nodup ∧
    entry.transformation ∈ entries.map (·.transformation)

omit [Canon] [Cbor LedgerEntry] in
theorem maxRecordBytes_lt : maxRecordBytes < 2 ^ 32 := by decide

theorem replay_repeats {bytes : Bytes} (h : RepeatsKey bytes) :
    ∃ key : TransformationId, (replay bytes).byKey[key]? = some (replay bytes).tree.len := by
  obtain ⟨payloads, entries, payload, entry, rest, rfl, hfits, hdecoded, hdecode, hstaged, hnodup,
    hrepeats⟩ := h
  obtain ⟨last, hruns, hentries⟩ := runs_of_decoded hdecoded
    (fun p hp => hfits p (List.mem_append_left _ hp))
    (fun i e he => hstaged i e
      ((List.getElem?_append_left (List.getElem?_eq_some_iff.mp he).1).trans he)) hnodup
  have hread := reads_of_runs hruns
  have hat : StagedAt last.tree.len entry := by
    rw [TileLog.len, hentries]
    exact hstaged _ _ List.getElem?_concat_length
  have hknown : last.byKey[entry.transformation]?.isSome := by
    obtain ⟨other, hother, hsame⟩ := List.mem_map.mp hrepeats
    obtain ⟨i, hi⟩ := List.getElem?_of_mem hother
    rw [← hentries] at hi
    rw [(hread.indexed _ i).mpr ⟨other, hi, hsame⟩]
    rfl
  obtain ⟨fuel, hfuel, hwalk⟩ := walk_append maxRecordBytes_lt hruns
    (le_refl (frames payloads ++ (frame payload ++ rest)).length)
  have hframe := frame?_append maxRecordBytes_lt
    (hfits payload (List.mem_append_right _ (List.mem_singleton_self _))) rest
  have hlast : walk maxRecordBytes Replay.record fuel last (frame payload ++ rest) =
      { last with byKey := last.byKey.insert entry.transformation entry.index } := by
    cases fuel with
    | zero =>
      rw [List.length_append, length_frame, lengthBytes] at hfuel
      omega
    | succ fuel =>
      rw [walk, hframe]
      dsimp only
      rw [record_repeats hdecode hat hknown]
  refine ⟨entry.transformation, ?_⟩
  rw [replay, hwalk, hlast, ← hat.1]
  exact Std.ExtTreeMap.getElem?_insert_self

omit [Canon] [Cbor LedgerEntry] in
theorem not_indexes_of_past {byKey : BTreeMap TransformationId ℕ} {tree : TileLog}
    {key : TransformationId} (h : byKey[key]? = some tree.len) : ¬ Indexes byKey tree := by
  intro hindexes
  obtain ⟨entry, hentry, _⟩ := (hindexes key _).mp h
  exact absurd (List.getElem?_eq_some_iff.mp hentry).1 (lt_irrefl _)

/-- The store then panics over that key. -/
theorem append_panics {bytes : Bytes} (h : RepeatsKey bytes) :
    ∃ key : TransformationId, ∀ (receiptDigest : Cid) (appendedAt : Timestamp) (write : Write),
      ((LedgerStore.open_ bytes).1.append (LedgerStore.open_ bytes).2 key receiptDigest appendedAt
        write).2.2 = .error .panicked := by
  obtain ⟨key, hkey⟩ := replay_repeats h
  refine ⟨key, ?_⟩
  intro receiptDigest appendedAt write
  have hnone : (replay bytes).tree.entries[(replay bytes).tree.len]? = none :=
    List.getElem?_eq_none le_rfl
  rw [LedgerStore.append]
  simp only [LedgerStore.open_, Bool.false_eq_true, if_false, hkey, hnone]

theorem replay_reads {bytes : Bytes} :
    ∃ (payloads : List Bytes) (last : Replay) (rest : Bytes), bytes = frames payloads ++ rest ∧
      Runs maxRecordBytes Replay.record .start payloads last ∧ (replay bytes).tree = last.tree ∧
      (replay bytes).goodBytes = last.good ∧ (replay bytes).tail = last.tail ∧
      ((replay bytes).byKey = last.byKey ∨ RepeatsKey bytes ∧
        ∀ key : TransformationId, (replay bytes).byKey[key]? = none → last.byKey[key]? = none) := by
  obtain ⟨payloads, last, rest, rfl, hruns, hend⟩ := @walk_cases maxRecordBytes Replay
    Replay.record .start bytes.length bytes le_rfl
  refine ⟨payloads, last, rest, rfl, hruns, ?_⟩
  rw [replay]
  dsimp only
  generalize walk maxRecordBytes Replay.record (frames payloads ++ rest).length .start
    (frames payloads ++ rest) = final at hend
  rcases hend with ⟨_, rfl⟩ | ⟨payload, tail, hframe, hstop⟩
  · exact ⟨rfl, rfl, rfl, .inl rfl⟩
  rcases record_eq_stop hstop with rfl | ⟨entry, hdecode, hstaged, hknown, rfl⟩
  · exact ⟨rfl, rfl, rfl, .inl rfl⟩
  refine ⟨rfl, rfl, rfl, .inr ⟨?_, ?_⟩⟩
  · obtain ⟨rfl, hfits⟩ := frame?_eq_some hframe
    have hread := reads_of_runs hruns
    have hkept := hread.built.kept
    refine ⟨payloads, last.tree.entries, payload, entry, tail, rfl, ?_, hread.decoded, hdecode, ?_,
      hread.indexed.nodup, ?_⟩
    · intro record hrecord
      rcases List.mem_append.mp hrecord with hrecord | hrecord
      · exact hruns.fits record hrecord
      · rwa [List.mem_singleton.mp hrecord]
    · intro i other hother
      rcases Nat.lt_trichotomy i last.tree.entries.length with hlt | rfl | hgt
      · rw [List.getElem?_append_left hlt] at hother
        exact hkept.staged i other hother
      · rw [List.getElem?_concat_length] at hother
        obtain rfl := Option.some.inj hother
        exact hstaged
      · rw [List.getElem?_eq_none (by rw [List.length_append, List.length_singleton]; omega)] at hother
        cases hother
    · obtain ⟨i, hi⟩ := Option.isSome_iff_exists.mp hknown
      obtain ⟨other, hother, hsame⟩ := (hread.indexed _ i).mp hi
      exact List.mem_map.mpr ⟨other, List.mem_of_getElem? hother, hsame⟩
  · intro key hnone
    rw [Std.ExtTreeMap.getElem?_insert] at hnone
    split at hnone
    next => cases hnone
    next => exact hnone

end Stores

/-- The index names the entries of the tree, after an open and after any appends, unless the file
repeats a key where the next record would be. -/
theorem index_names_the_entries [Canon] [Cbor LedgerEntry] (bytes : Bytes) :
    (∀ (store : LedgerStore) (file : Bytes), Reached bytes store file →
      Indexes store.byKey store.tree) ↔ ¬ RepeatsKey bytes := by
  constructor
  · intro h hrepeats
    obtain ⟨key, hkey⟩ := replay_repeats hrepeats
    exact not_indexes_of_past hkey (h _ _ .opened)
  · intro hnot store file hreached
    induction hreached with
    | opened =>
      obtain ⟨payloads, last, rest, _, hruns, htree, _, _, hkeys⟩ := @replay_reads _ _ bytes
      change Indexes (replay bytes).byKey (replay bytes).tree
      rcases hkeys with hkeys | ⟨hrepeats, _⟩
      · rw [hkeys, htree]
        exact (reads_of_runs hruns).indexed
      · exact absurd hrepeats hnot
    | append _ transformation receiptDigest appendedAt write ih =>
      exact ih.append transformation receiptDigest appendedAt write

instance : Library.Code LedgerEntry :=
  Library.Code.ofInjective (fun e : LedgerEntry =>
    (e.appendedAt, e.index, e.leafCid, e.receiptDigest, e.transformation)) fun a b h => by
      cases a
      cases b
      simp_all

open Tracefold.Ideal in
/-- The entry that a digest of transformation `[1]` would be staged as, at an index. -/
def entryAt (index digest : ℕ) : LedgerEntry :=
  ⟨0, index, leafHash ⟨index, ⟨[digest]⟩, ⟨[1]⟩⟩, ⟨[digest]⟩, ⟨[1]⟩⟩

open Tracefold.Ideal in
/-- Two records of one transformation, both in their places. -/
def repeated : Bytes := frames [bytesOf (entryAt 0 2), bytesOf (entryAt 1 3)]

open Tracefold.Ideal in
theorem repeated_repeatsKey : RepeatsKey repeated := by
  refine ⟨[bytesOf (entryAt 0 2)], [entryAt 0 2], bytesOf (entryAt 1 3), entryAt 1 3, [], ?_, ?_,
    .cons (LawfulCbor.decode_encode rfl) .nil, LawfulCbor.decode_encode rfl, ?_, by decide,
    by decide⟩
  · simp [repeated, frames]
  · unfold Fits
    decide
  · intro i other hother
    cases i with
    | zero =>
      obtain rfl := Option.some.inj hother
      exact ⟨rfl, rfl⟩
    | succ i =>
      cases i with
      | zero =>
        obtain rfl := Option.some.inj hother
        exact ⟨rfl, rfl⟩
      | succ => cases hother

open Tracefold.Ideal in
/-- The index leads past the tree, and an append of that transformation panics. -/
theorem index_leads_past_the_tree :
    ¬ Indexes (LedgerStore.open_ repeated).1.byKey (LedgerStore.open_ repeated).1.tree ∧
      ∃ key : TransformationId,
        ((LedgerStore.open_ repeated).1.append (LedgerStore.open_ repeated).2 key ⟨[4]⟩ 0
          .done).2.2 = .error .panicked := by
  obtain ⟨key, hkey⟩ := append_panics repeated_repeatsKey
  obtain ⟨_, hpast⟩ := replay_repeats repeated_repeatsKey
  exact ⟨not_indexes_of_past hpast, key, hkey _ _ _⟩

end Tracefold.Ledger
