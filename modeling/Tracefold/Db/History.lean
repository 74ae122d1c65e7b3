import Mathlib.Data.List.Nodup
import Tracefold.Db.Push

/-! What the journal says of the atoms after any run of pushes. -/

namespace Tracefold.Db

open Library Locator

/-- What a record says of an atom. -/
structure Event where
  seq : ℕ
  atomId : String
  lineage : String
  version : ℕ
  supersedes : List String

def JournalEntry.event (record : JournalEntry) : Event :=
  ⟨record.seq.toNat, record.atomId, record.lineage, record.version.toNat, record.supersedes⟩

def ofLineage (lineage : String) (events : List Event) : List Event :=
  events.filter fun event => event.lineage = lineage

/-- The record of a lineage before one, which the one supersedes. -/
def superseded (events : List Event) : List String := (events.getLast?.map Event.atomId).toList

theorem ofLineage_append (lineage : String) (events : List Event) (event : Event) :
    ofLineage lineage (events ++ [event]) =
      if event.lineage = lineage then ofLineage lineage events ++ [event]
      else ofLineage lineage events := by
  rw [ofLineage, List.filter_append, List.filter_singleton]
  split <;> simp_all [ofLineage]

section Kept

variable [Formats]

/-- The events are those of some atoms that were held one after another. -/
structure Kept (events : List Event) (held : List StoredAtom) : Prop where
  seq : ∀ i event, events[i]? = some event → event.seq = i + 1
  versions : ∀ lineage i event, (ofLineage lineage events)[i]? = some event →
    event.version = i + 1 ∧ event.supersedes = superseded ((ofLineage lineage events).take i)
  newest : ∀ lineage, (ofLineage lineage events).getLast?.map Event.atomId =
    (held.filter fun atom => lineageOf atom = lineage).getLast?.map idOf
  length : events.length ≤ held.length

theorem kept_nil : Kept [] [] where
  seq := by simp
  versions := by simp [ofLineage]
  newest := by simp [ofLineage]
  length := le_rfl

theorem filter_concat (held : List StoredAtom) (item : StoredAtom) (lineage : String) :
    (held ++ [item]).filter (fun atom => lineageOf atom = lineage) =
      if lineageOf item = lineage then (held.filter fun atom => lineageOf atom = lineage) ++ [item]
      else held.filter fun atom => lineageOf atom = lineage := by
  rw [List.filter_append, List.filter_singleton]
  split <;> simp_all

variable {events : List Event} {held : List StoredAtom} {item : StoredAtom}

theorem Kept.same (h : Kept events held)
    (hsame : (ofLineage (lineageOf item) events).getLast?.map Event.atomId = some (idOf item)) :
    Kept events (held ++ [item]) where
  seq := h.seq
  versions := h.versions
  newest := by
    intro lineage
    rw [filter_concat]
    split
    · rename_i hlineage
      rw [← hlineage, hsame, List.getLast?_concat]
      rfl
    · exact h.newest lineage
  length := by
    rw [List.length_append]
    exact h.length.trans (Nat.le_add_right _ _)

theorem Kept.grow (h : Kept events held) {event : Event} (hlineage : event.lineage = lineageOf item)
    (hid : event.atomId = idOf item) (hseq : event.seq = events.length + 1)
    (hversion : event.version = (ofLineage (lineageOf item) events).length + 1)
    (hsupersedes : event.supersedes = superseded (ofLineage (lineageOf item) events)) :
    Kept (events ++ [event]) (held ++ [item]) where
  seq := by
    intro i other hother
    obtain hlt | rfl | hlt := lt_trichotomy i events.length
    · rw [List.getElem?_append_left hlt] at hother
      exact h.seq i other hother
    · rw [List.getElem?_concat_length] at hother
      rw [← Option.some.inj hother, hseq]
    · rw [List.getElem?_eq_none (by simpa [Nat.succ_le_iff] using hlt)] at hother
      cases hother
  versions := by
    intro lineage i other hother
    rw [ofLineage_append] at hother ⊢
    split at hother
    · rename_i hsame
      rw [if_pos hsame]
      rw [hlineage] at hsame
      subst hsame
      obtain hlt | rfl | hlt := lt_trichotomy i (ofLineage (lineageOf item) events).length
      · rw [List.getElem?_append_left hlt] at hother
        rw [List.take_append_of_le_length hlt.le]
        exact h.versions _ i other hother
      · rw [List.getElem?_concat_length] at hother
        rw [← Option.some.inj hother, List.take_left]
        exact ⟨hversion, hsupersedes⟩
      · rw [List.getElem?_eq_none (by simpa [Nat.succ_le_iff] using hlt)] at hother
        cases hother
    · rename_i hother'
      rw [if_neg hother']
      exact h.versions lineage i other hother
  newest := by
    intro lineage
    rw [ofLineage_append, filter_concat, hlineage]
    split
    · rw [List.getLast?_concat, List.getLast?_concat, Option.map_some, Option.map_some, hid]
    · exact h.newest lineage
  length := by
    rw [List.length_append, List.length_append]
    exact Nat.add_le_add_right h.length 1

end Kept

section Newest

theorem ofLineage_map (lineage : String) (records : List JournalEntry) :
    ofLineage lineage (records.map JournalEntry.event) =
      (records.filter fun record => record.lineage = lineage).map JournalEntry.event := by
  rw [ofLineage, List.filter_map]
  rfl

theorem foldl_newer {lineage : String} {records : List JournalEntry}
    (h : ∀ i record, (records.filter fun record => record.lineage = lineage)[i]? = some record →
      record.version.toNat = i + 1) :
    records.foldl (newer lineage) none =
      (records.filter fun record => record.lineage = lineage).getLast? := by
  induction records using List.reverseRecOn with
  | nil => rfl
  | append_singleton records record ih =>
    rw [List.filter_append] at h ⊢
    have hrest := ih fun i other hother => h i other (by
      rw [List.getElem?_append_left (List.getElem?_eq_some_iff.mp hother).1]
      exact hother)
    rw [List.foldl_append, hrest, List.foldl_cons, List.foldl_nil, newer.eq_def]
    by_cases hlineage : record.lineage = lineage
    · rw [if_pos hlineage]
      have hsingle : [record].filter (fun record => record.lineage = lineage) = [record] := by
        simp [hlineage]
      rw [hsingle] at h ⊢
      rw [List.getLast?_concat]
      cases hlast : (records.filter fun record => record.lineage = lineage).getLast? with
      | none => rfl
      | some found =>
        have hlength := List.length_pos_of_mem (List.mem_of_getLast? hlast)
        rw [List.getLast?_eq_getElem?] at hlast
        have hfound := h (_ - 1) found ((List.getElem?_append_left (by omega)).trans hlast)
        have hrecord := h _ record List.getElem?_concat_length
        refine if_neg fun hlt => ?_
        rw [UInt64.lt_iff_toNat_lt, hrecord, hfound] at hlt
        omega
    · rw [if_neg hlineage]
      have hnone : [record].filter (fun record => record.lineage = lineage) = [] := by
        simp [hlineage]
      rw [hnone, List.append_nil]

variable [Formats] {journal : JournalRead} {held : List StoredAtom}

theorem Kept.newestForLineage (h : Kept (journal.records.map JournalEntry.event) held)
    {lineage : String} (hdeclared : lineage ≠ "UNKNOWN") :
    journal.newestForLineage lineage =
      (journal.records.filter fun record => record.lineage = lineage).getLast? := by
  rw [JournalRead.newestForLineage, if_neg hdeclared]
  apply foldl_newer
  intro i record hrecord
  apply (h.versions lineage i record.event _).1
  rw [ofLineage_map, List.getElem?_map, hrecord]
  rfl

theorem Kept.maxSeq (h : Kept (journal.records.map JournalEntry.event) held)
    (hlegacy : journal.legacy = []) : journal.maxSeq.toNat = journal.records.length := by
  have hseq : ∀ i record, journal.records[i]? = some record → record.seq.toNat = i + 1 := by
    intro i record hrecord
    apply h.seq i record.event
    rw [List.getElem?_map, hrecord]
    rfl
  rw [JournalRead.maxSeq, hlegacy, List.map_nil, List.append_nil]
  generalize journal.records = records at hseq ⊢
  induction records using List.reverseRecOn with
  | nil => rfl
  | append_singleton records record ih =>
    have hrest := ih fun i other hother => hseq i other (by
      rw [List.getElem?_append_left (List.getElem?_eq_some_iff.mp hother).1]
      exact hother)
    have hrecord := hseq _ record List.getElem?_concat_length
    rw [List.map_append, List.foldl_append, List.map_singleton, List.foldl_cons, List.foldl_nil,
      if_pos, hrecord, List.length_append]
    · rfl
    · rw [UInt64.lt_iff_toNat_lt, hrest, hrecord]
      exact Nat.lt_succ_self _

end Newest

section Disk

variable [Formats]

/-- Every line of a journal is a record of today's format. -/
def Readable (disk : Disk) : Prop :=
  ∀ line ∈ (readJournal disk).lines, ∃ record, classify line = .current record

theorem Readable.legacy {disk : Disk} (h : Readable disk) : (readJournal disk).legacy = [] := by
  rw [List.eq_nil_iff_forall_not_mem]
  intro record hrecord
  obtain ⟨line, hline, hclass⟩ := List.mem_filterMap.mp hrecord
  obtain ⟨other, hother⟩ := h line hline
  rw [hother] at hclass
  cases hclass

theorem Readable.unparsable {disk : Disk} (h : Readable disk) :
    (readJournal disk).unparsable = [] := by
  rw [List.eq_nil_iff_forall_not_mem]
  intro index hindex
  obtain ⟨⟨line, place⟩, hline, hclass⟩ := List.mem_filterMap.mp hindex
  obtain ⟨other, hother⟩ := h line (List.fst_mem_of_mem_zipIdx hline)
  simp only [hother] at hclass
  cases hclass

def Admitted.entry : Admitted → Option JournalEntry
  | .current record => some record
  | _ => none

theorem records_eq (disk : Disk) : (readJournal disk).records =
    (readJournal disk).lines.filterMap fun line => (classify line).entry := rfl

variable [LawfulFormats]

theorem chained_records {running : Text} {records : List JournalEntry} {more : List Text}
    (h : chained running records = some more) :
    (∀ line ∈ more, ∃ record, classify line = .current record) ∧
      (more.filterMap fun line => (classify line).entry).map JournalEntry.event =
        records.map JournalEntry.event := by
  induction records generalizing running more with
  | nil =>
    cases h
    exact ⟨by simp, rfl⟩
  | cons record rest ih =>
    rw [chained] at h
    split at h
    · cases h
    · obtain ⟨lines, hlines, rfl⟩ := Option.map_eq_some_iff.mp h
      obtain ⟨hread, hevents⟩ := ih hlines
      have hclass : classify (Formats.canonicalJson { record with prevHash := running }) =
          .current { record with prevHash := running } := by
        rw [classify, LawfulFormats.read_canonicalJson]
      constructor
      · intro line hline
        obtain rfl | hline := List.mem_cons.mp hline
        · exact ⟨_, hclass⟩
        · exact hread line hline
      · rw [List.filterMap_cons, hclass, List.map_cons, ← hevents]
        rfl

theorem append_records {weather : Weather} (records : List JournalEntry) {disk : Disk}
    (hreadable : Readable disk) (hlands : weather.journalLands = true) :
    Readable (append weather records disk).2 ∧
      (readJournal (append weather records disk).2).records.map JournalEntry.event =
        ((readJournal disk).records ++ records).map JournalEntry.event := by
  rw [append]
  split
  · rename_i hnil
    rw [hnil, List.append_nil]
    exact ⟨hreadable, rfl⟩
  · obtain ⟨more, hmore⟩ := Option.isSome_iff_exists.mp
      (chained_isSome (foldOf (readJournal disk).lines) records)
    obtain ⟨hall, _⟩ := chained_spec hmore
    obtain ⟨hread, hevents⟩ := chained_records hmore
    have hlines : linesOf (joined ((readJournal disk).lines ++ more)) =
        (readJournal disk).lines ++ more := by
      apply linesOf_joined
      intro line hline
      obtain hline | hline := List.mem_append.mp hline
      · exact isLine_lines disk line hline
      · exact hall line hline
    have hwritten : ∀ head : Content,
        Readable ⟨.text (joined ((readJournal disk).lines ++ more)), head⟩ ∧
          (readJournal ⟨.text (joined ((readJournal disk).lines ++ more)), head⟩).records.map
            JournalEntry.event = ((readJournal disk).records ++ records).map JournalEntry.event := by
      intro head
      constructor
      · intro line hline
        change line ∈ linesOf (joined ((readJournal disk).lines ++ more)) at hline
        rw [hlines] at hline
        obtain hline | hline := List.mem_append.mp hline
        · exact hreadable line hline
        · exact hread line hline
      · rw [records_eq]
        change ((linesOf (joined ((readJournal disk).lines ++ more))).filterMap _).map _ = _
        rw [hlines, List.filterMap_append, List.map_append, hevents, List.map_append, records_eq]
    dsimp only
    rw [hmore, hlands]
    simp only [Bool.not_true, Bool.false_eq_true, if_false]
    split
    · exact hwritten _
    · exact hwritten _

end Disk

section Push

variable [Formats]

/-- How far a push has come over the atoms `done`. -/
structure Pushing (journal : JournalRead) (held done : List StoredAtom) (state : PushState) : Prop where
  kept : Kept ((journal.records ++ state.records).map JournalEntry.event) (held ++ done)
  seq : state.seq.toNat = (journal.records ++ state.records).length
  others : ∀ lineage, (∀ item ∈ done, lineageOf item ≠ lineage) →
    state.records.filter (fun record => record.lineage = lineage) = []

theorem Pushing.record {journal : JournalRead} {held done : List StoredAtom} {state : PushState}
    (h : Pushing journal held done state) (stamp : String) {item : StoredAtom} {version : UInt64}
    {supersedes : List String} (hfresh : ∀ other ∈ done, lineageOf other ≠ lineageOf item)
    (hfew : (held ++ done).length + 1 < 2 ^ 64)
    (hversion : version.toNat =
      (journal.records.filter fun record => record.lineage = lineageOf item).length + 1)
    (hsupersedes : supersedes = ((journal.records.filter fun record =>
      record.lineage = lineageOf item).getLast?.map JournalEntry.atomId).toList) :
    Pushing journal held (done ++ [item]) (recordItem stamp state item version supersedes) := by
  have hlength := h.kept.length
  rw [List.length_map] at hlength
  have hseq : (state.seq + 1).toNat = (journal.records ++ state.records).length + 1 := by
    rw [UInt64.toNat_add, h.seq, UInt64.toNat_one]
    exact Nat.mod_eq_of_lt (by omega)
  have hlineage : ofLineage (lineageOf item)
      ((journal.records ++ state.records).map JournalEntry.event) =
        (journal.records.filter fun record => record.lineage = lineageOf item).map
          JournalEntry.event := by
    rw [ofLineage_map, List.filter_append, h.others _ hfresh, List.append_nil]
  refine ⟨?_, ?_, ?_⟩
  · rw [recordItem, ← List.append_assoc, ← List.append_assoc, List.map_append]
    apply h.kept.grow
    · rfl
    · rfl
    · rw [List.length_map]
      exact hseq
    · rw [hlineage, List.length_map]
      exact hversion
    · rw [hlineage, superseded, List.getLast?_map, Option.map_map]
      exact hsupersedes
  · rw [recordItem, ← List.append_assoc, List.length_append]
    exact hseq
  · intro lineage hother
    rw [recordItem, List.filter_append, h.others lineage fun other hmem =>
      hother other (List.mem_append_left _ hmem)]
    have hne := hother item (List.mem_append_right _ List.mem_cons_self)
    simpa using hne

/-- One atom of a push whose lineage no atom before had. -/
theorem Pushing.step {journal : JournalRead} {held done : List StoredAtom} {state : PushState}
    (h : Pushing journal held done state) (hjournal : Kept (journal.records.map JournalEntry.event) held)
    (stamp : String) {item : StoredAtom} (hdeclared : lineageOf item ≠ "UNKNOWN")
    (hfresh : ∀ other ∈ done, lineageOf other ≠ lineageOf item)
    (hfew : (held ++ done).length + 1 < 2 ^ 64) :
    Pushing journal held (done ++ [item]) (pushItem journal stamp state item) := by
  have hnewest := hjournal.newestForLineage hdeclared
  rw [pushItem, hnewest]
  cases hlast : (journal.records.filter fun record => record.lineage = lineageOf item).getLast? with
  | none =>
    have hnil := List.getLast?_eq_none_iff.mp hlast
    have hcounted : Pushing journal held done { state with fresh := state.fresh + 1 } :=
      ⟨h.kept, h.seq, h.others⟩
    apply hcounted.record stamp hfresh hfew
    · rw [hnil]
      rfl
    · rw [hlast]
      rfl
  | some record =>
    dsimp only
    split
    · rename_i hsame
      refine ⟨?_, h.seq, fun lineage hother => h.others lineage fun other hmem =>
        hother other (List.mem_append_left _ hmem)⟩
      rw [← List.append_assoc]
      apply h.kept.same
      rw [ofLineage_map, List.filter_append, h.others _ hfresh, List.append_nil, List.getLast?_map,
        hlast, Option.map_some, Option.map_some, ← hsame]
      rfl
    · have hcounted : Pushing journal held done { state with versioned := state.versioned + 1 } :=
        ⟨h.kept, h.seq, h.others⟩
      apply hcounted.record stamp hfresh hfew
      · have hpos := List.length_pos_of_mem (List.mem_of_getLast? hlast)
        have hle := List.length_filter_le (fun record => decide (record.lineage = lineageOf item))
          journal.records
        have hlength := hjournal.length
        rw [List.length_map] at hlength
        rw [List.length_append] at hfew
        have hversion : record.version.toNat =
            (journal.records.filter fun record => record.lineage = lineageOf item).length := by
          rw [List.getLast?_eq_getElem?] at hlast
          have hevent := (hjournal.versions (lineageOf item) _ record.event (by
            rw [ofLineage_map, List.getElem?_map, hlast]
            rfl)).1
          change record.version.toNat = _ at hevent
          omega
        rw [UInt64.toNat_add, hversion, UInt64.toNat_one]
        exact Nat.mod_eq_of_lt (by omega)
      · rw [hlast]
        rfl

theorem Pushing.run {journal : JournalRead} {held : List StoredAtom}
    (hjournal : Kept (journal.records.map JournalEntry.event) held) (stamp : String)
    {atoms done : List StoredAtom} {state : PushState} (h : Pushing journal held done state)
    (hdeclared : ∀ item ∈ atoms, lineageOf item ≠ "UNKNOWN")
    (hdistinct : ((done ++ atoms).map lineageOf).Nodup)
    (hfew : (held ++ (done ++ atoms)).length < 2 ^ 64) :
    Pushing journal held (done ++ atoms) (atoms.foldl (pushItem journal stamp) state) := by
  induction atoms generalizing done state with
  | nil => rwa [List.append_nil]
  | cons item atoms ih =>
    have hcons : done ++ item :: atoms = (done ++ [item]) ++ atoms := by simp
    have hfresh : ∀ other ∈ done, lineageOf other ≠ lineageOf item := by
      intro other hmem
      rw [List.map_append, List.nodup_append] at hdistinct
      exact hdistinct.2.2 _ (List.mem_map_of_mem hmem) _ (List.mem_map_of_mem List.mem_cons_self)
    have hroom : (held ++ done).length + 1 < 2 ^ 64 := by
      simp only [List.length_append, List.length_cons] at hfew ⊢
      omega
    have hstep := h.step hjournal stamp (hdeclared item List.mem_cons_self) hfresh hroom
    rw [hcons] at hdistinct hfew ⊢
    exact ih hstep (fun other hmem => hdeclared other (List.mem_cons_of_mem _ hmem)) hdistinct hfew

end Push

section Keys

theorem documents_nodup (source : Source) :
    (source.documents.map fun entry => (entry.1.id, entry.2.1.path)).Nodup := by
  rw [Source.documents, List.map_flatMap, List.nodup_flatMap]
  constructor
  · intro entry hentry
    obtain ⟨id, outcome⟩ := entry
    cases outcome with
    | none => exact List.nodup_nil
    | some band =>
      rw [List.map_map]
      exact List.Nodup.of_map Prod.snd (by simpa [Function.comp_def] using band.distinct)
  · have hpairs := List.pairwise_map.mp source.distinct
    apply hpairs.imp_of_mem
    intro a b ha hb hne pair hpaira hpairb
    obtain ⟨ida, outcomea⟩ := a
    obtain ⟨idb, outcomeb⟩ := b
    cases outcomea with
    | none => exact absurd hpaira List.not_mem_nil
    | some banda =>
      cases outcomeb with
      | none => exact absurd hpairb List.not_mem_nil
      | some bandb =>
        simp only [List.map_map, List.mem_map, Function.comp_apply] at hpaira hpairb
        obtain ⟨_, _, rfl⟩ := hpaira
        obtain ⟨_, _, heq⟩ := hpairb
        have hids := congrArg Prod.fst heq
        rw [source.named _ _ ha, source.named _ _ hb] at hids
        exact hne hids.symm

variable [Formats] [Alphanumeric]

theorem atomsOf_spec {entry : BandManifest × DocumentDecl × Content} {atoms : List StoredAtom}
    (h : atomsOf entry = some atoms) :
    (atoms.map keyOf).Nodup ∧ ∀ atom ∈ atoms, IsFrom entry.1 entry.2.1 atom := by
  rw [atomsOf] at h
  split at h
  · rename_i text _
    obtain ⟨ir, hir, rfl⟩ := Option.map_eq_some_iff.mp h
    refine ⟨?_, extractDocument_source hir⟩
    obtain ⟨other, hother, _, hanchors, _⟩ := extractDocument_spec entry.1 entry.2.1 text
    obtain rfl := Option.some.inj (hir.symm.trans hother)
    apply List.Nodup.of_map Key.anchor
    rwa [List.map_map]
  · obtain rfl := Option.some.inj h
    exact ⟨List.nodup_nil, by simp⟩

theorem keys_of_mapM {entries : List (BandManifest × DocumentDecl × Content)}
    {lists : List (List StoredAtom)} (h : entries.mapM atomsOf = some lists)
    (hdistinct : (entries.map fun entry => (entry.1.id, entry.2.1.path)).Nodup) :
    (lists.flatten.map keyOf).Nodup ∧
      ∀ atom ∈ lists.flatten, ∃ entry ∈ entries, IsFrom entry.1 entry.2.1 atom := by
  induction entries generalizing lists with
  | nil =>
    obtain rfl := Option.some.inj h
    exact ⟨List.nodup_nil, by simp⟩
  | cons entry entries ih =>
    rw [List.mapM_cons, Option.bind_eq_bind, Option.bind_eq_some_iff] at h
    obtain ⟨atoms, hatoms, h⟩ := h
    rw [Option.bind_eq_bind, Option.bind_eq_some_iff] at h
    obtain ⟨rest, hrest, h⟩ := h
    obtain rfl := Option.some.inj h
    rw [List.map_cons, List.nodup_cons] at hdistinct
    obtain ⟨hkeys, hfrom⟩ := atomsOf_spec hatoms
    obtain ⟨hkeysRest, hfromRest⟩ := ih hrest hdistinct.2
    rw [List.flatten_cons]
    constructor
    · rw [List.map_append, List.nodup_append]
      refine ⟨hkeys, hkeysRest, fun key hkey other hother heq => ?_⟩
      obtain ⟨atom, hatom, rfl⟩ := List.mem_map.mp hkey
      obtain ⟨atom', hatom', rfl⟩ := List.mem_map.mp hother
      obtain ⟨entry', hentry', hfrom'⟩ := hfromRest atom' hatom'
      have hatomFrom := hfrom atom hatom
      have hband : entry.1.id = entry'.1.id := by
        rw [← hatomFrom.ofBand, ← hfrom'.ofBand]
        exact congrArg Key.band heq
      have hdocument : entry.1.id ++ '/' :: entry.2.1.path =
          entry'.1.id ++ '/' :: entry'.2.1.path := by
        rw [← hatomFrom.document, ← hfrom'.document]
        exact congrArg Key.document heq
      rw [hband] at hdocument
      have hpath := (List.cons.inj (List.append_cancel_left hdocument)).2
      apply hdistinct.1
      rw [hband, hpath]
      exact List.mem_map_of_mem hentry'
    · intro atom hatom
      obtain hatom | hatom := List.mem_append.mp hatom
      · exact ⟨entry, List.mem_cons_self, hfrom atom hatom⟩
      · obtain ⟨entry', hentry', hfrom'⟩ := hfromRest atom hatom
        exact ⟨entry', List.mem_cons_of_mem _ hentry', hfrom'⟩

theorem pushed_spec (source : Source) :
    (source.pushed.map keyOf).Nodup ∧ ∀ atom ∈ source.pushed,
      atom.semantic.source.document = atom.band ++ '/' :: atom.semantic.source.path := by
  rw [Source.pushed]
  split
  · rename_i corpus hcorpus
    obtain ⟨lists, hlists, rfl⟩ := Option.map_eq_some_iff.mp hcorpus
    obtain ⟨hkeys, hfrom⟩ := keys_of_mapM hlists (documents_nodup source)
    split
    · exact ⟨List.nodup_nil, by simp⟩
    · refine ⟨hkeys, fun atom hatom => ?_⟩
      obtain ⟨entry, _, hentry⟩ := hfrom atom hatom
      rw [hentry.document, hentry.ofBand, hentry.path]
  · exact ⟨List.nodup_nil, by simp⟩

end Keys

/-- The atom last held under a key. -/
def lastHeld (held : List StoredAtom) (key : Key) : Option StoredAtom :=
  (held.filter fun atom => keyOf atom = key).getLast?

section Runs

variable [Formats] [Alphanumeric]

/-- The records of each lineage are the versions of one atom, one after another, up to the atom as
it was held last. -/
structure History (held : List StoredAtom) (journal : JournalRead) : Prop where
  seq : (journal.records.map JournalEntry.seq).Pairwise (· < ·)
  versions : ∀ lineage i record,
    (journal.records.filter fun record => record.lineage = lineage)[i]? = some record →
      record.version.toNat = i + 1 ∧ record.supersedes = match i with
        | 0 => []
        | i + 1 => ((journal.records.filter fun record =>
            record.lineage = lineage)[i]?.map JournalEntry.atomId).toList
  newest : ∀ lineage, journal.newestForLineage lineage =
    (journal.records.filter fun record => record.lineage = lineage).getLast?
  recorded : ∀ record ∈ journal.records, ∃ atom ∈ held, lineageOf atom = record.lineage
  lastHeld : ∀ key atom, lastHeld held key = some atom →
    ∃ record, journal.newestForLineage (lineageOf atom) = some record ∧ record.atomId = idOf atom

/-- Another push of a source leaves the files as they are and appends nothing. -/
def Settled (source : Source) (disk : Disk) : Prop :=
  ∀ weather stamp, (push weather stamp source disk).2 = disk ∧
    ∀ counts, (push weather stamp source disk).1 = .ok counts → counts.appended = 0

/-- No two keys share a lineage. -/
def Separate (held : List StoredAtom) : Prop :=
  ∀ a ∈ held, ∀ b ∈ held, lineageOf a = lineageOf b → keyOf a = keyOf b

omit [Alphanumeric] in
theorem Separate.lineages {atoms : List StoredAtom} (h : Separate atoms)
    (hkeys : (atoms.map keyOf).Nodup) : (atoms.map lineageOf).Nodup := by
  apply List.pairwise_map.mpr
  apply (List.pairwise_map.mp hkeys).imp_of_mem
  intro a b ha hb hne heq
  exact hne (h a ha b hb heq)

/-- A journal that can be read and records what was held. -/
structure Sound (disk : Disk) (held : List StoredAtom) : Prop where
  readable : Readable disk
  kept : Kept ((readJournal disk).records.map JournalEntry.event) held

omit [Alphanumeric] in
theorem append_lost {weather : Weather} (h : weather.journalLands = false)
    (records : List JournalEntry) (disk : Disk) : (append weather records disk).2 = disk := by
  rw [append]
  split
  · rfl
  · dsimp only
    rw [h]
    split <;> rfl

omit [Alphanumeric] in
theorem append_nil (weather : Weather) (disk : Disk) : append weather [] disk = (.ok 0, disk) :=
  if_pos rfl

theorem push_disk {disk : Disk} (h : Readable disk) (weather : Weather) (stamp : String)
    (source : Source) : (push weather stamp source disk).2 =
      (append weather (pushState (readJournal disk) stamp source.pushed).records disk).2 := by
  rw [push, Source.pushed]
  cases loadCorpus source with
  | none => exact (congrArg Prod.snd (append_nil weather disk)).symm
  | some corpus =>
    dsimp only
    split
    · exact (congrArg Prod.snd (append_nil weather disk)).symm
    · rw [if_neg (by rw [not_not, h.unparsable])]
      split <;> simp_all

theorem push_ok {disk : Disk} {weather : Weather} {stamp : String} {source : Source} {counts : Pushed}
    (h : (push weather stamp source disk).1 = .ok counts) :
    (append weather (pushState (readJournal disk) stamp source.pushed).records disk).1 =
      .ok counts.appended := by
  rw [push] at h
  split at h
  · cases h
  · rename_i corpus hcorpus
    split at h
    · cases h
    · rename_i hwhole
      have hpushed : source.pushed = corpus.atoms := by
        rw [Source.pushed, hcorpus]
        exact if_neg hwhole
      dsimp only at h
      split at h
      · cases h
      · rw [hpushed]
        split at h
        · cases h
        · rename_i appended disk' happend
          rw [happend, ← Except.ok.inj h]

variable {disk : Disk} {held : List StoredAtom}

omit [Alphanumeric] in
theorem Sound.state (h : Sound disk held) (stamp : String) {atoms : List StoredAtom}
    (hdeclared : ∀ item ∈ atoms, lineageOf item ≠ "UNKNOWN")
    (hdistinct : (atoms.map lineageOf).Nodup) (hfew : (held ++ atoms).length < 2 ^ 64) :
    Pushing (readJournal disk) held atoms (pushState (readJournal disk) stamp atoms) := by
  have hstart : Pushing (readJournal disk) held [] ⟨(readJournal disk).maxSeq, [], 0, 0, 0, 0⟩ := by
    refine ⟨?_, ?_, fun _ _ => rfl⟩
    · rw [List.append_nil, List.append_nil]
      exact h.kept
    · rw [List.append_nil]
      exact h.kept.maxSeq h.readable.legacy
  exact hstart.run h.kept stamp hdeclared hdistinct hfew

variable [LawfulFormats]

theorem Sound.afterPush (h : Sound disk held) (attempt : Attempt)
    (hdeclared : ∀ atom, lineageOf atom ≠ "UNKNOWN") (hseparate : Separate (heldBy [attempt]))
    (hfew : (held ++ heldBy [attempt]).length < 2 ^ 64) :
    Sound (push attempt.weather attempt.stamp attempt.source disk).2 (held ++ heldBy [attempt]) := by
  rw [push_disk h.readable]
  cases hlands : attempt.weather.journalLands with
  | false =>
    rw [append_lost hlands]
    have hheld : heldBy [attempt] = [] := by simp [heldBy, hlands]
    rwa [hheld, List.append_nil]
  | true =>
    have hheld : heldBy [attempt] = attempt.source.pushed := by simp [heldBy, hlands]
    rw [hheld] at hseparate hfew ⊢
    have hpushing := h.state attempt.stamp (fun item _ => hdeclared item)
      (hseparate.lineages (pushed_spec attempt.source).1) hfew
    obtain ⟨hreadable, hrecords⟩ := append_records
      (pushState (readJournal disk) attempt.stamp attempt.source.pushed).records h.readable hlands
    refine ⟨hreadable, ?_⟩
    rw [hrecords]
    exact hpushing.kept

omit [LawfulFormats] in
theorem heldBy_cons (attempt : Attempt) (attempts : List Attempt) :
    heldBy (attempt :: attempts) = heldBy [attempt] ++ heldBy attempts := by
  simp [heldBy]

theorem Sound.afterPushes (h : Sound disk held) (attempts : List Attempt)
    (hdeclared : ∀ atom, lineageOf atom ≠ "UNKNOWN") (hseparate : Separate (heldBy attempts))
    (hfew : (held ++ heldBy attempts).length < 2 ^ 64) :
    Sound (pushes disk attempts) (held ++ heldBy attempts) := by
  induction attempts generalizing disk held with
  | nil => simpa [heldBy, pushes] using h
  | cons attempt attempts ih =>
    rw [heldBy_cons] at hseparate hfew ⊢
    rw [← List.append_assoc] at hfew ⊢
    have hone : Separate (heldBy [attempt]) := fun a ha b hb =>
      hseparate a (List.mem_append_left _ ha) b (List.mem_append_left _ hb)
    have hroom : (held ++ heldBy [attempt]).length < 2 ^ 64 := by
      rw [List.length_append] at hfew
      omega
    apply ih (h.afterPush attempt hdeclared hone hroom) _ hfew
    exact fun a ha b hb =>
      hseparate a (List.mem_append_right _ ha) b (List.mem_append_right _ hb)

omit [LawfulFormats] [Alphanumeric] in
theorem Disk.Unwritten.sound (h : disk.Unwritten) : Sound disk [] := by
  have hlines : (readJournal disk).lines = [] := h
  refine ⟨fun line hline => ?_, ?_⟩
  · rw [hlines] at hline
    cases hline
  · rw [records_eq, hlines]
    exact kept_nil

omit [LawfulFormats] [Alphanumeric] in
theorem Kept.recorded {events : List Event} (h : Kept events held) :
    ∀ event ∈ events, ∃ atom ∈ held, lineageOf atom = event.lineage := by
  intro event hevent
  have hmem : event ∈ ofLineage event.lineage events := by
    rw [ofLineage, List.mem_filter]
    exact ⟨hevent, by simp⟩
  have hlast := List.getLast?_eq_some_getLast (List.ne_nil_of_mem hmem)
  have hnewest := h.newest event.lineage
  rw [hlast, Option.map_some, eq_comm, Option.map_eq_some_iff] at hnewest
  obtain ⟨atom, hatom, _⟩ := hnewest
  obtain ⟨hheld, hlineage⟩ := List.mem_filter.mp (List.mem_of_getLast? hatom)
  exact ⟨atom, hheld, of_decide_eq_true hlineage⟩

omit [LawfulFormats] [Alphanumeric] in
theorem Kept.records {journal : JournalRead} (h : Kept (journal.records.map JournalEntry.event) held)
    {lineage : String} {i : ℕ} {record : JournalEntry}
    (hrecord : (journal.records.filter fun record => record.lineage = lineage)[i]? = some record) :
    record.version.toNat = i + 1 ∧ record.supersedes = superseded
      (((journal.records.filter fun record => record.lineage = lineage).take i).map
        JournalEntry.event) := by
  have hversions := h.versions lineage i record.event (by
    rw [ofLineage_map, List.getElem?_map, hrecord]
    rfl)
  rwa [ofLineage_map, ← List.map_take] at hversions

omit [LawfulFormats] [Alphanumeric] in
theorem Kept.newest_any {journal : JournalRead}
    (h : Kept (journal.records.map JournalEntry.event) held)
    (hdeclared : ∀ atom, lineageOf atom ≠ "UNKNOWN") (lineage : String) :
    journal.newestForLineage lineage =
      (journal.records.filter fun record => record.lineage = lineage).getLast? := by
  by_cases hlineage : lineage = "UNKNOWN"
  · rw [JournalRead.newestForLineage, if_pos hlineage, eq_comm, List.getLast?_eq_none_iff,
      List.filter_eq_nil_iff]
    intro record hrecord hsame
    obtain ⟨atom, _, hatom⟩ := h.recorded record.event (List.mem_map_of_mem hrecord)
    exact hdeclared atom (hatom.trans ((of_decide_eq_true hsame).trans hlineage))
  · exact h.newestForLineage hlineage

omit [LawfulFormats] [Alphanumeric] in
theorem filter_keyOf (hseparate : Separate held)
    (hdocument : ∀ atom ∈ held,
      atom.semantic.source.document = atom.band ++ '/' :: atom.semantic.source.path)
    {atom : StoredAtom} (hatom : atom ∈ held) :
    (held.filter fun other => keyOf other = keyOf atom) =
      held.filter fun other => lineageOf other = lineageOf atom := by
  apply List.filter_congr
  intro other hother
  rw [decide_eq_decide]
  constructor
  · intro hkey
    have hband : other.band = atom.band := congrArg Key.band hkey
    have hpath : other.semantic.source.document = atom.semantic.source.document :=
      congrArg Key.document hkey
    rw [hdocument other hother, hdocument atom hatom, hband] at hpath
    have hanchor : other.semantic.source.anchor = atom.semantic.source.anchor :=
      congrArg Key.anchor hkey
    have hkind : other.semantic.kind = atom.semantic.kind := congrArg Key.kind hkey
    rw [lineageOf, lineageOf, (List.cons.inj (List.append_cancel_left hpath)).2, hanchor, hkind]
  · exact hseparate other hother atom hatom

omit [LawfulFormats] in
theorem heldBy_document (attempts : List Attempt) : ∀ atom ∈ heldBy attempts,
    atom.semantic.source.document = atom.band ++ '/' :: atom.semantic.source.path := by
  intro atom hatom
  obtain ⟨attempt, _, hpushed⟩ := List.mem_flatMap.mp hatom
  split at hpushed
  · exact (pushed_spec attempt.source).2 atom hpushed
  · exact absurd hpushed List.not_mem_nil

omit [LawfulFormats] [Alphanumeric] in
theorem Sound.history (h : Sound disk held) (hdeclared : ∀ atom, lineageOf atom ≠ "UNKNOWN")
    (hseparate : Separate held) (hdocument : ∀ atom ∈ held,
      atom.semantic.source.document = atom.band ++ '/' :: atom.semantic.source.path) :
    History held (readJournal disk) where
  seq := by
    rw [List.pairwise_iff_getElem]
    intro i j hi hj hlt
    have hseq : ∀ k (hk : k < ((readJournal disk).records.map JournalEntry.seq).length),
        ((readJournal disk).records.map JournalEntry.seq)[k].toNat = k + 1 := by
      intro k hk
      rw [List.length_map] at hk
      have hevent := h.kept.seq k (readJournal disk).records[k].event (by
        rw [List.getElem?_map, List.getElem?_eq_getElem hk]
        rfl)
      rw [List.getElem_map]
      exact hevent
    rw [UInt64.lt_iff_toNat_lt, hseq i hi, hseq j hj]
    omega
  versions := by
    intro lineage i record hrecord
    obtain ⟨hversion, hsupersedes⟩ := h.kept.records hrecord
    refine ⟨hversion, ?_⟩
    cases i with
    | zero => exact hsupersedes
    | succ i =>
      have hlt := (List.getElem?_eq_some_iff.mp hrecord).1
      rw [hsupersedes, superseded, List.getLast?_map, Option.map_map, List.getLast?_take]
      simp [List.getElem?_eq_getElem (Nat.lt_of_succ_lt hlt), JournalEntry.event]
  newest := h.kept.newest_any hdeclared
  recorded := by
    intro record hrecord
    exact h.kept.recorded record.event (List.mem_map_of_mem hrecord)
  lastHeld := by
    intro key atom hatom
    obtain ⟨hheld, hkey⟩ := List.mem_filter.mp (List.mem_of_getLast? hatom)
    obtain rfl := of_decide_eq_true hkey
    rw [Db.lastHeld, filter_keyOf hseparate hdocument hheld] at hatom
    have hnewest := h.kept.newest (lineageOf atom)
    rw [hatom, ofLineage_map, List.getLast?_map, Option.map_map, Option.map_some,
      Option.map_eq_some_iff] at hnewest
    obtain ⟨record, hrecord, hid⟩ := hnewest
    exact ⟨record, (h.kept.newest_any hdeclared _).trans hrecord, hid⟩

omit [LawfulFormats] [Alphanumeric] in
theorem pushState_unchanged {journal : JournalRead} {stamp : String} {atoms : List StoredAtom}
    (h : ∀ item ∈ atoms, ∃ record, journal.newestForLineage (lineageOf item) = some record ∧
      record.atomId = idOf item) : (pushState journal stamp atoms).records = [] := by
  have hrun : ∀ state : PushState,
      (atoms.foldl (pushItem journal stamp) state).records = state.records := by
    induction atoms with
    | nil => exact fun _ => rfl
    | cons item atoms ih =>
      intro state
      obtain ⟨record, hrecord, hid⟩ := h item List.mem_cons_self
      rw [List.foldl_cons, ih fun other hother => h other (List.mem_cons_of_mem _ hother), pushItem,
        hrecord]
      dsimp only
      rw [if_pos hid]
  exact hrun _

omit [LawfulFormats] in
/-- The atoms of a source that was held last are the newest of their lineages. -/
theorem Sound.settled {source : Source} (h : Sound disk (held ++ source.pushed))
    (hdeclared : ∀ atom, lineageOf atom ≠ "UNKNOWN") (hseparate : Separate source.pushed) :
    Settled source disk := by
  have hlineages := hseparate.lineages (pushed_spec source).1
  have hunchanged : ∀ stamp,
      (pushState (readJournal disk) stamp source.pushed).records = [] := by
    intro stamp
    apply pushState_unchanged
    intro item hitem
    have hlast : ((held ++ source.pushed).filter fun atom =>
        lineageOf atom = lineageOf item).getLast? = some item := by
      obtain ⟨front, back, hcut⟩ := List.append_of_mem hitem
      have hback : (back.filter fun atom => lineageOf atom = lineageOf item) = [] := by
        rw [hcut, List.map_append, List.map_cons, List.nodup_append, List.nodup_cons] at hlineages
        rw [List.filter_eq_nil_iff]
        intro other hother hsame
        apply hlineages.2.1.1
        rw [← of_decide_eq_true hsame]
        exact List.mem_map_of_mem hother
      rw [hcut, ← List.append_assoc, List.filter_append, List.filter_cons_of_pos (by simp), hback,
        List.getLast?_concat]
    have hnewest := h.kept.newest (lineageOf item)
    rw [hlast, ofLineage_map, List.getLast?_map, Option.map_map, Option.map_some,
      Option.map_eq_some_iff] at hnewest
    obtain ⟨record, hrecord, hid⟩ := hnewest
    exact ⟨record, (h.kept.newest_any hdeclared _).trans hrecord, hid⟩
  intro weather stamp
  constructor
  · rw [push_disk h.readable, hunchanged, append_nil]
  · intro counts hcounts
    have hok := push_ok hcounts
    rw [hunchanged, append_nil] at hok
    exact (Except.ok.inj hok).symm

/-- From a journal in which nothing is recorded, the journal of a run of pushes is the history of the
atoms they held, and to push the last source again adds nothing, where no two keys of the run share a
lineage. -/
theorem pushes_record_history_once
    (hdigest : ∀ text, String.ofList (Formats.sha256Hex text) ≠ "UNKNOWN")
    (hunwritten : disk.Unwritten) (attempts : List Attempt) (hseparate : Separate (heldBy attempts))
    (hfew : (heldBy attempts).length < 2 ^ 64) :
    History (heldBy attempts) (readJournal (pushes disk attempts)) ∧
      ∀ attempt, attempts.getLast? = some attempt → attempt.weather.journalLands = true →
        Settled attempt.source (pushes disk attempts) := by
  have hdeclared : ∀ atom, lineageOf atom ≠ "UNKNOWN" := fun atom => hdigest _
  have hsound := hunwritten.sound.afterPushes attempts hdeclared hseparate
    (by rwa [List.nil_append])
  rw [List.nil_append] at hsound
  constructor
  · exact hsound.history hdeclared hseparate (heldBy_document attempts)
  · intro attempt hlast hlands
    obtain ⟨earlier, rfl⟩ := List.getLast?_eq_some_iff.mp hlast
    have hheld : heldBy (earlier ++ [attempt]) = heldBy earlier ++ attempt.source.pushed := by
      simp [heldBy, hlands]
    rw [hheld] at hsound hseparate
    apply hsound.settled hdeclared
    exact fun a ha b hb => hseparate a (List.mem_append_right _ ha) b (List.mem_append_right _ hb)

end Runs

section Sample

/-- A band with one document of one letter. -/
def oneLetter (band : Text) (letter : Char) : LoadedBand :=
  ⟨⟨band, none⟩, [(⟨['p'], "raw", none⟩, .text [letter])], List.nodup_singleton _⟩

def oneBand (letter : Char) : Source where
  bands := [(['a'], some (oneLetter ['a'] letter))]
  distinct := List.nodup_singleton _
  named := by
    intro id band hmem
    obtain ⟨rfl, hband⟩ := Prod.mk.inj (List.mem_singleton.mp hmem)
    rw [Option.some.inj hband]
    rfl

/-- Two bands with a document each, under one path. -/
def twoBands : Source where
  bands := [(['a'], some (oneLetter ['a'] 'x')), (['b'], some (oneLetter ['b'] 'y'))]
  distinct := by decide
  named := by
    intro id band hmem
    obtain hmem | hmem := List.mem_cons.mp hmem
    · obtain ⟨rfl, hband⟩ := Prod.mk.inj hmem
      rw [Option.some.inj hband]
      rfl
    · obtain ⟨rfl, hband⟩ := Prod.mk.inj (List.mem_singleton.mp hmem)
      rw [Option.some.inj hband]
      rfl

/-- An edit between two pushes. -/
def edits : List Attempt :=
  [⟨⟨true, true⟩, "epoch:0", oneBand 'x'⟩, ⟨⟨true, true⟩, "epoch:1", oneBand 'y'⟩]

section Letters

variable [Formats] [Alphanumeric]

/-- The one atom of such a document. -/
def letterAtom (band : Text) (letter : Char) : StoredAtom :=
  { semantic :=
      { id := atomId .para ['p'] ['~', '.', '1'] [letter]
        kind := .para
        content := [letter]
        layer := .l2
        parent := none
        order := 1
        tags := []
        source := ⟨band ++ ['/', 'p'], ['p'], ['~', '.', '1'], ⟨1, 1, 0, 1⟩⟩ }
    executor := "UNKNOWN"
    evidence := .unknown
    band := band }

theorem atomsOf_letter (band : Text) {letter : Char} (h : letter = 'x' ∨ letter = 'y') :
    atomsOf (⟨band, none⟩, ⟨['p'], "raw", none⟩, .text [letter]) = some [letterAtom band letter] := by
  have hlines : splitLines [letter] = [⟨0, 1, [letter]⟩] := by
    obtain rfl | rfl := h
    · decide
    · decide
  have hblock : blockAt [letter] [] = (.para, 0) := by
    obtain rfl | rfl := h
    · rfl
    · rfl
  have hblocks : buildBlocks (splitLines [letter]) = [⟨.para, 0, 0⟩] := by
    rw [buildBlocks, hlines, blocksFrom, hblock]
    change ⟨.para, 0, 0⟩ :: blocksFrom 1 [] = _
    rw [blocksFrom]
  rw [atomsOf, Content.readToString]
  dsimp only
  rw [extractDocument, hblocks]
  obtain rfl | rfl := h
  · rfl
  · rfl

theorem pushed_oneBand {letter : Char} (h : letter = 'x' ∨ letter = 'y') :
    (oneBand letter).pushed = [letterAtom ['a'] letter] := by
  have hdocuments : (oneBand letter).documents =
      [(⟨['a'], none⟩, ⟨['p'], "raw", none⟩, .text [letter])] := rfl
  rw [Source.pushed, loadCorpus, hdocuments, List.mapM_cons, atomsOf_letter _ h]
  rfl

theorem pushed_twoBands : twoBands.pushed = [letterAtom ['a'] 'x', letterAtom ['b'] 'y'] := by
  have hdocuments : twoBands.documents =
      [(⟨['a'], none⟩, ⟨['p'], "raw", none⟩, .text ['x']),
        (⟨['b'], none⟩, ⟨['p'], "raw", none⟩, .text ['y'])] := rfl
  rw [Source.pushed, loadCorpus, hdocuments, List.mapM_cons, atomsOf_letter _ (.inl rfl),
    List.mapM_cons, atomsOf_letter _ (.inr rfl)]
  rfl

theorem heldBy_edits : heldBy edits = [letterAtom ['a'] 'x', letterAtom ['a'] 'y'] := by
  rw [heldBy, edits, List.flatMap_cons, List.flatMap_cons, List.flatMap_nil, if_pos rfl,
    if_pos rfl, pushed_oneBand (.inl rfl), pushed_oneBand (.inr rfl)]
  rfl

end Letters

theorem spelled_declared (text : Text) :
    String.ofList (@Formats.sha256Hex formats text) ≠ "UNKNOWN" := by
  intro h
  have hmem : 'U' ∈ (@Formats.sha256Hex formats text) := by
    have hlist := congrArg String.toList h
    rw [String.toList_ofList] at hlist
    rw [hlist]
    decide
  obtain h | h := mem_spelled hmem
  · exact absurd h (by decide)
  · exact absurd h (by decide)

theorem pushes_record_history_once_edits :
    @History formats (@heldBy formats ⟨Char.isAlphanum⟩ edits)
        (@readJournal formats (@pushes formats ⟨Char.isAlphanum⟩ Disk.initialised edits)) ∧
      ∀ attempt, edits.getLast? = some attempt → attempt.weather.journalLands = true →
        @Settled formats ⟨Char.isAlphanum⟩ attempt.source
          (@pushes formats ⟨Char.isAlphanum⟩ Disk.initialised edits) := by
  have hheld := @heldBy_edits formats ⟨Char.isAlphanum⟩
  refine @pushes_record_history_once formats ⟨Char.isAlphanum⟩ _ lawfulFormats spelled_declared
    (by decide) edits ?_ ?_
  · rw [hheld]
    intro a ha b hb _
    have hkey : ∀ atom ∈ [@letterAtom formats ['a'] 'x', @letterAtom formats ['a'] 'y'],
        keyOf atom = ⟨['a'], ['a', '/', 'p'], ['~', '.', '1'], .para⟩ := by
      intro atom hatom
      obtain rfl | hatom := List.mem_cons.mp hatom
      · rfl
      · rw [List.mem_singleton.mp hatom]
        rfl
    rw [hkey a ha, hkey b hb]
  · rw [hheld]
    decide

section TwoBands

variable [Formats] [Alphanumeric]

theorem not_settled {disk : Disk} (h : Readable disk) [LawfulFormats] {source : Source}
    (hrecords : ∀ stamp, (pushState (readJournal disk) stamp source.pushed).records ≠ []) :
    ¬ Settled source disk := by
  intro hsettled
  obtain ⟨hsame, _⟩ := hsettled ⟨true, true⟩ "epoch:1"
  rw [push_disk h] at hsame
  have hlands : (⟨true, true⟩ : Weather).journalLands = true := rfl
  obtain ⟨_, hlonger⟩ := append_records
    (pushState (readJournal disk) "epoch:1" source.pushed).records h hlands
  rw [hsame, List.map_append, List.self_eq_append_right, List.map_eq_nil_iff] at hlonger
  exact hrecords _ hlonger

omit [Formats] [Alphanumeric] in
theorem newest_of_events {journal : JournalRead} {first second : Event}
    (h : journal.records.map JournalEntry.event = [first, second]) {lineage : String}
    (hdeclared : lineage ≠ "UNKNOWN") (hfirst : first.lineage = lineage)
    (hsecond : second.lineage = lineage) (hversions : first.version ≤ second.version) :
    ∃ record, journal.newestForLineage lineage = some record ∧
      record.atomId = second.atomId := by
  rw [JournalRead.newestForLineage, if_neg hdeclared]
  obtain ⟨a, rest, hrecords, rfl, htail⟩ := List.map_eq_cons_iff.mp h
  obtain ⟨b, more, rfl, rfl, hnil⟩ := List.map_eq_cons_iff.mp htail
  obtain rfl := List.map_eq_nil_iff.mp hnil
  refine ⟨b, ?_, rfl⟩
  have hle : ¬ b.version < a.version := by
    rw [UInt64.lt_iff_toNat_lt]
    exact hversions.not_gt
  change a.lineage = lineage at hfirst
  change b.lineage = lineage at hsecond
  rw [hrecords]
  simp [newer, hfirst, hsecond, hle]

theorem not_settled_twoBands [LawfulFormats]
    (hdigest : ∀ text, String.ofList (Formats.sha256Hex text) ≠ "UNKNOWN")
    (hne : idOf (letterAtom ['b'] 'y') ≠ idOf (letterAtom ['a'] 'x')) :
    ¬ Settled twoBands (pushes Disk.fresh [⟨⟨true, true⟩, "epoch:0", twoBands⟩]) := by
  have hfresh : Readable Disk.fresh := Disk.Unwritten.sound (by decide) |>.readable
  have hpush : pushes Disk.fresh [⟨⟨true, true⟩, "epoch:0", twoBands⟩] =
      (append ⟨true, true⟩ (pushState (readJournal Disk.fresh) "epoch:0"
        [letterAtom ['a'] 'x', letterAtom ['b'] 'y']).records Disk.fresh).2 := by
    rw [← pushed_twoBands]
    exact push_disk hfresh _ _ _
  have hnone : ∀ lineage, (readJournal Disk.fresh).newestForLineage lineage = none := by
    intro lineage
    rw [JournalRead.newestForLineage]
    split <;> rfl
  have hlands : (⟨true, true⟩ : Weather).journalLands = true := rfl
  obtain ⟨hreadable, hevents⟩ := append_records (pushState (readJournal Disk.fresh) "epoch:0"
    [letterAtom ['a'] 'x', letterAtom ['b'] 'y']).records hfresh hlands
  rw [← hpush] at hreadable hevents
  simp only [pushState, List.foldl_cons, List.foldl_nil, pushItem, hnone] at hevents
  have hdeclared : lineageOf (letterAtom ['a'] 'x') ≠ "UNKNOWN" := hdigest _
  obtain ⟨record, hnewest, hid⟩ := newest_of_events hevents hdeclared rfl rfl le_rfl
  apply not_settled hreadable
  intro stamp
  have hsame : lineageOf (letterAtom ['b'] 'y') = lineageOf (letterAtom ['a'] 'x') := rfl
  have hsecond : record.atomId = idOf (letterAtom ['b'] 'y') := hid
  rw [pushed_twoBands]
  simp [pushState, pushItem, hsame, hnewest, hsecond, hne, recordItem]

end TwoBands

theorem ids_twoBands : @idOf (@letterAtom formats ['b'] 'y') ≠ idOf (@letterAtom formats ['a'] 'x') := by
  intro h
  have hmaterial := spelled_injective (String.ofList_injective h)
  exact absurd hmaterial (by decide)

/-- Two bands with a document of the same path push its atom again and again. -/
theorem bands_share_a_lineage :
    (@Source.pushed formats ⟨Char.isAlphanum⟩ twoBands |>.map idOf).Nodup ∧
      ¬ @Settled formats ⟨Char.isAlphanum⟩ twoBands
        (@pushes formats ⟨Char.isAlphanum⟩ Disk.fresh [⟨⟨true, true⟩, "epoch:0", twoBands⟩]) := by
  constructor
  · rw [@pushed_twoBands formats ⟨Char.isAlphanum⟩, List.map_cons, List.map_cons, List.map_nil,
      List.nodup_cons, List.mem_singleton]
    exact ⟨ids_twoBands.symm, List.nodup_singleton _⟩
  · exact @not_settled_twoBands formats ⟨Char.isAlphanum⟩ lawfulFormats spelled_declared ids_twoBands

end Sample

end Tracefold.Db
