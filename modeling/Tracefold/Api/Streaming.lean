import Mathlib.Tactic.Common
import Tracefold.Api.Stream
import Tracefold.Ideal.Api

/-! A subscriber of the stream has every event once and in order, wherever it resumes and whatever
became of the rows: only a receipt is told when it is held, or not at all. -/

namespace Tracefold.Api

open GxGate (Digests)
open Library Library.Pages

section

variable [Canon] [Digests] [ErrorTexts]

section Places

/-- The events of records, each with its place. -/
def eventsAt (s : Serving) (records : List (Record × ℕ)) : List (Cursor × Event) :=
  records.flatMap fun (record, index) =>
    (eventsFor record s).zipIdx.map fun (event, ordinal) => (⟨index, ordinal⟩, event)

/-- All events there are, each with its place. -/
def published (s : Serving) : List (Cursor × Event) := eventsAt s s.records.zipIdx

/-- An event stands at a place. -/
def EventAt (s : Serving) (c : Cursor) (event : Event) : Prop :=
  ∃ record, s.records[c.record]? = some record ∧ (eventsFor record s)[c.ordinal]? = some event

theorem mem_eventsAt {s : Serving} {records : List (Record × ℕ)} {c : Cursor} {event : Event} :
    (c, event) ∈ eventsAt s records ↔
      ∃ record, (record, c.record) ∈ records ∧ (eventsFor record s)[c.ordinal]? = some event := by
  rw [eventsAt, List.mem_flatMap]
  constructor
  · rintro ⟨⟨record, index⟩, hrecord, hmem⟩
    obtain ⟨⟨_, ordinal⟩, hevent, heq⟩ := List.mem_map.mp hmem
    cases heq
    exact ⟨record, hrecord, List.mk_mem_zipIdx_iff_getElem?.mp hevent⟩
  · rintro ⟨record, hrecord, hevent⟩
    refine ⟨(record, c.record), hrecord, List.mem_map.mpr ?_⟩
    exact ⟨(event, c.ordinal), List.mk_mem_zipIdx_iff_getElem?.mpr hevent, rfl⟩

theorem mem_published {s : Serving} {c : Cursor} {event : Event} :
    (c, event) ∈ published s ↔ EventAt s c event := by
  rw [published, mem_eventsAt, EventAt]
  simp only [List.mk_mem_zipIdx_iff_getElem?]

omit [Canon] [Digests] [ErrorTexts] in
theorem pairwise_zipIdx {α : Type} (l : List α) : l.zipIdx.Pairwise fun a b => a.2 < b.2 := by
  have hrange : (l.zipIdx.map Prod.snd).Pairwise (· < ·) := by
    rw [List.zipIdx_map_snd]
    exact List.pairwise_lt_range'
  exact List.pairwise_map.mp hrange

theorem ascending_published (s : Serving) : Ascending (published s) := by
  apply List.pairwise_flatMap.mpr
  constructor
  · rintro ⟨record, index⟩ -
    apply List.pairwise_map.mpr
    apply List.Pairwise.imp _ (pairwise_zipIdx _)
    intro a b hlt
    exact (Cursor.lt_iff _ _).mpr (.inr ⟨rfl, hlt⟩)
  · apply List.Pairwise.imp _ (pairwise_zipIdx _)
    rintro ⟨record, index⟩ ⟨record', index'⟩ hlt a ha b hb
    obtain ⟨_, -, rfl⟩ := List.mem_map.mp ha
    obtain ⟨_, -, rfl⟩ := List.mem_map.mp hb
    exact (Cursor.lt_iff _ _).mpr (.inl hlt)

end Places

section Batches

/-- The cursor of the last row, or the one there was. -/
def lastCursor (last : Cursor) (rows : List (Cursor × Event)) : Cursor :=
  (rows.getLast?.map (·.1)).getD last

omit [Canon] [Digests] [ErrorTexts] in
theorem lastCursor_append (last : Cursor) (front back : List (Cursor × Event)) :
    lastCursor last (front ++ back) = lastCursor (lastCursor last front) back := by
  rw [lastCursor, lastCursor, lastCursor, List.getLast?_append]
  cases back.getLast? <;> rfl

omit [Canon] [Digests] [ErrorTexts] in
theorem lastCursor_cons (last : Cursor) (row : Cursor × Event) (rows : List (Cursor × Event)) :
    lastCursor last (row :: rows) = lastCursor row.1 rows := by
  rw [lastCursor, lastCursor, List.getLast?_cons]
  cases rows.getLast? <;> rfl

omit [Canon] [Digests] [ErrorTexts] in
theorem coe_lastCursor (last : Cursor) (rows : List (Cursor × Event)) :
    ((lastCursor last rows : Cursor) : WithBot Cursor) = lastOf last rows := by
  rw [lastCursor, lastOf]
  cases rows.getLast? <;> rfl

omit [Canon] [Digests] [ErrorTexts] in
theorem eventLoop_eq (after : Cursor) (index : ℕ) (events : List (Event × ℕ))
    (out : List (Cursor × Event)) (last : Cursor) (hroom : out.length < batch) :
    eventLoop after index events out last =
      let taken := page (batch - out.length) (after : WithBot Cursor)
        (events.map fun (event, ordinal) => ((⟨index, ordinal⟩ : Cursor), event))
      (out ++ taken, lastCursor last taken, decide ((out ++ taken).length = batch)) := by
  induction events generalizing out last with
  | nil => simp [eventLoop, page, past, lastCursor, hroom.ne]
  | cons entry rest ih =>
    obtain ⟨event, ordinal⟩ := entry
    rw [eventLoop, List.map_cons]
    dsimp only
    split
    next hbefore =>
      have hnot : ¬ (after : WithBot Cursor) < ((⟨index, ordinal⟩ : Cursor) : WithBot Cursor) := by
        simpa using hbefore
      rw [ih out last hroom, page, past, page, past, List.filter_cons_of_neg (by simpa using hnot)]
    next hbehind =>
      have hpast : (after : WithBot Cursor) < ((⟨index, ordinal⟩ : Cursor) : WithBot Cursor) := by
        simpa using hbehind
      obtain ⟨room, hrest⟩ : ∃ room, batch - out.length = room + 1 :=
        ⟨batch - out.length - 1, by omega⟩
      have htaken : page (batch - out.length) (after : WithBot Cursor)
          (((⟨index, ordinal⟩ : Cursor), event) ::
            rest.map fun (event, ordinal) => ((⟨index, ordinal⟩ : Cursor), event)) =
          ((⟨index, ordinal⟩ : Cursor), event) :: page room (after : WithBot Cursor)
            (rest.map fun (event, ordinal) => ((⟨index, ordinal⟩ : Cursor), event)) := by
        rw [page, past, List.filter_cons_of_pos (by simpa using hpast), hrest, List.take_succ_cons,
          page, past]
      have hlength : (out ++ [((⟨index, ordinal⟩ : Cursor), event)]).length = out.length + 1 :=
        List.length_append
      rw [htaken]
      split
      next hfull =>
        have hnone : room = 0 := by omega
        simp only [hnone, page, List.take_zero, hlength, lastCursor]
        simp
        omega
      next hfree =>
        have hless : batch - (out ++ [((⟨index, ordinal⟩ : Cursor), event)]).length = room := by
          omega
        rw [ih _ _ (by omega), hless]
        dsimp only
        rw [lastCursor_cons]
        simp only [List.append_assoc, List.cons_append, List.nil_append]

theorem recordLoop_eq (s : Serving) (after : Cursor) (records : List (Record × ℕ))
    (out : List (Cursor × Event)) (last : Cursor) (hroom : out.length < batch) :
    recordLoop s after records out last =
      let taken := page (batch - out.length) (after : WithBot Cursor) (eventsAt s records)
      (out ++ taken, lastCursor last taken) := by
  induction records generalizing out last with
  | nil => simp [recordLoop, eventsAt, page, past, lastCursor]
  | cons entry rest ih =>
    obtain ⟨record, index⟩ := entry
    have hcons : eventsAt s ((record, index) :: rest) =
        ((eventsFor record s).zipIdx.map fun (event, ordinal) => ((⟨index, ordinal⟩ : Cursor), event)) ++
          eventsAt s rest := List.flatMap_cons
    rw [recordLoop, eventLoop_eq after index _ out last hroom, hcons, page_append]
    dsimp only
    generalize hfirst : page (batch - out.length) (after : WithBot Cursor)
      ((eventsFor record s).zipIdx.map fun (event, ordinal) => ((⟨index, ordinal⟩ : Cursor), event)) =
        first
    have hle : first.length ≤ batch - out.length := by
      rw [← hfirst]
      exact List.length_take_le ..
    have hlength : (out ++ first).length = out.length + first.length := List.length_append
    by_cases hfull : (out ++ first).length = batch
    · have hnone : batch - out.length - first.length = 0 := by omega
      rw [decide_eq_true hfull, hnone]
      simp [page]
    · have hless : batch - out.length - first.length = batch - (out ++ first).length := by omega
      rw [decide_eq_false hfull, hless]
      dsimp only
      rw [ih _ _ (by omega)]
      dsimp only
      rw [lastCursor_append, List.append_assoc]

theorem eventsAfter_eq (s : Serving) (after : Cursor) :
    eventsAfter s after =
      (page batch (after : WithBot Cursor) (published s),
        lastCursor after (page batch (after : WithBot Cursor) (published s))) := by
  have hsplit : published s =
      eventsAt s (s.records.zipIdx.take after.record) ++
        eventsAt s (s.records.zipIdx.drop after.record) := by
    rw [published, eventsAt, eventsAt, eventsAt, ← List.flatMap_append, List.take_append_drop]
  have hskipped : ∀ row ∈ eventsAt s (s.records.zipIdx.take after.record),
      (row.1 : WithBot Cursor) ≤ (after : WithBot Cursor) := by
    rintro ⟨c, event⟩ hrow
    obtain ⟨record, hmem, -⟩ := mem_eventsAt.mp hrow
    obtain ⟨i, hi, heq⟩ := List.mem_iff_getElem.mp hmem
    rw [List.getElem_take, List.getElem_zipIdx] at heq
    obtain ⟨-, hc⟩ := Prod.mk.inj heq
    have hbefore : i < after.record := Nat.lt_of_lt_of_le hi (List.length_take_le ..)
    rw [WithBot.coe_le_coe, Cursor.le_iff]
    left
    dsimp only
    omega
  rw [hsplit, page_append_of_le hskipped, eventsAfter, recordLoop_eq s after _ [] after (by decide)]
  rfl

theorem eventsAfter_fst (s : Serving) (after : Cursor) :
    (eventsAfter s after).1 = page batch (after : WithBot Cursor) (published s) := by
  rw [eventsAfter_eq]

theorem coe_eventsAfter (s : Serving) (after : Cursor) :
    ((eventsAfter s after).2 : WithBot Cursor) =
      lastOf after (page batch (after : WithBot Cursor) (published s)) := by
  rw [eventsAfter_eq, coe_lastCursor]

/-- The batches of a subscriber. -/
def batches (ticks : List Serving) : List (ℕ × List (Cursor × Event)) :=
  ticks.map fun s => (batch, published s)

theorem stream_eq (cursor : Cursor) (ticks : List Serving) :
    (stream cursor ticks).1 = walk (cursor : WithBot Cursor) (batches ticks) ∧
      ((stream cursor ticks).2 : WithBot Cursor) = reached (cursor : WithBot Cursor) (batches ticks) := by
  induction ticks generalizing cursor with
  | nil => exact ⟨rfl, rfl⟩
  | cons s rest ih =>
    obtain ⟨hwalk, hreached⟩ := ih (eventsAfter s cursor).2
    rw [coe_eventsAfter] at hwalk hreached
    constructor
    · rw [batches, List.map_cons, walk, ← batches, ← hwalk, stream, ← eventsAfter_fst]
    · rw [batches, List.map_cons, reached, ← batches, ← hreached, stream]

end Batches

section Slots

/-- The kinds of the events that a record has of its own. -/
def slots : Record → List EventKind
  | .about _ (.planned _) _ => [.candidateCreated]
  | .about _ .verifyStarted _ => [.verifyStarted]
  | .about _ (.verdict kind _ _) _ =>
    if kind = .Escalate then [.verdictIssued, .escalated] else [.verdictIssued]
  | .about _ (.humanDecision _ _ _ _) _ => [.humanDecision]
  | .about _ (.canonicalized _ _) _ => [.canonicalized]
  | .about _ (.committed _) _ => [.committed]
  | .about _ (.aborted _ _) _ => [.aborted]
  | .about _ (.superseded _) _ => [.superseded]
  | _ => []

/-- The receipt a process has for a record. -/
def receiptOf (s : Serving) : Record → Option Receipt
  | .about id (.verdict _ _ _) _ => (s.verdictReceipts id).head?
  | .about id (.humanDecision _ _ _ _) _ => (s.verdictReceipts id).getLast?
  | .about id (.committed _) _ => s.receipt id
  | _ => none

/-- A receipt is told behind the events of a record, so it moves none of them. -/
theorem kinds_eventsFor (record : Record) (s : Serving) :
    (eventsFor record s).map (·.kind) =
      slots record ++ (receiptOf s record).toList.map fun _ => .receiptIssued := by
  cases record with
  | draftCreated => rfl
  | about id note stamp =>
    cases note with
    | verdict kind verdictDigest failPostureEngaged =>
      rw [eventsFor, eventsForNote, slots, receiptOf]
      by_cases hkind : kind = .Escalate
      · rw [if_pos hkind, if_pos hkind]
        cases (s.verdictReceipts id).head? <;> rfl
      · rw [if_neg hkind, if_neg hkind]
        cases (s.verdictReceipts id).head? <;> rfl
    | humanDecision kind reason actor verdictDigest =>
      rw [eventsFor, eventsForNote, slots, receiptOf]
      cases (s.verdictReceipts id).getLast? <;> rfl
    | committed ledgerSeq =>
      rw [eventsFor, eventsForNote, slots, receiptOf]
      cases s.receipt id <;> rfl
    | _ => rfl

omit [Canon] [Digests] [ErrorTexts] in
theorem forall_withReceipt {P : Event → Prop} {events : List Event} {held : Option Receipt}
    {tell : Receipt → Event} (hevents : ∀ event ∈ events, P event) (htell : ∀ receipt, P (tell receipt)) :
    ∀ event ∈ (match held with
      | some receipt => events ++ [tell receipt]
      | none => events), P event := by
  cases held with
  | none => exact hevents
  | some receipt =>
    intro event hevent
    rcases List.mem_append.mp hevent with hevent | hevent
    · exact hevents event hevent
    · rw [List.mem_singleton.mp hevent]
      exact htell receipt

theorem of_mem_eventsFor {record : Record} {s : Serving} {event : Event}
    (h : event ∈ eventsFor record s) :
    record.transformation = some event.transformation ∧ event.at_ = record.at_ := by
  cases record with
  | draftCreated => cases h
  | about id note stamp =>
    have hone : ∀ kind data, ∀ event ∈ [(⟨kind, id, stamp, data⟩ : Event)],
        event.transformation = id ∧ event.at_ = stamp := by
      intro kind data event hevent
      rw [List.mem_singleton.mp hevent]
      exact ⟨rfl, rfl⟩
    suffices hsubject : ∀ event ∈ eventsForNote id stamp s note,
        event.transformation = id ∧ event.at_ = stamp by
      obtain ⟨htransformation, hstamp⟩ := hsubject event h
      exact ⟨congrArg some htransformation.symm, hstamp⟩
    cases note with
    | planned body => exact hone _ _
    | verifyStarted => exact hone _ _
    | verdict kind verdictDigest failPostureEngaged =>
      have hown : ∀ ticket reasons, ∀ event ∈ (if kind = .Escalate then
          [(⟨.verdictIssued, id, stamp, .verdictIssued kind verdictDigest⟩ : Event)] ++
            [⟨.escalated, id, stamp, .escalated ticket reasons⟩]
        else [⟨.verdictIssued, id, stamp, .verdictIssued kind verdictDigest⟩]),
          event.transformation = id ∧ event.at_ = stamp := by
        intro ticket reasons event hevent
        split at hevent
        · rcases List.mem_append.mp hevent with hevent | hevent
          · exact hone _ _ event hevent
          · exact hone _ _ event hevent
        · exact hone _ _ event hevent
      exact forall_withReceipt (hown _ _) fun _ => ⟨rfl, rfl⟩
    | humanDecision kind reason actor verdictDigest =>
      exact forall_withReceipt (hone _ _) fun _ => ⟨rfl, rfl⟩
    | canonicalized => exact hone _ _
    | committed ledgerSeq => exact forall_withReceipt (hone _ _) fun _ => ⟨rfl, rfl⟩
    | aborted => exact hone _ _
    | superseded => exact hone _ _
    | committingStarted => exact fun _ h => nomatch h
    | provenanceDerived => exact fun _ h => nomatch h
    | inverseEscrowed => exact fun _ h => nomatch h
    | applyStarted => exact fun _ h => nomatch h
    | applyObserved => exact fun _ h => nomatch h
    | inverseCompleted => exact fun _ h => nomatch h

theorem eventsFor_slot {record : Record} {ordinal : ℕ} {kind : EventKind} (s : Serving)
    (h : (slots record)[ordinal]? = some kind) :
    ∃ event, (eventsFor record s)[ordinal]? = some event ∧ event.kind = kind := by
  obtain ⟨hlt, -⟩ := List.getElem?_eq_some_iff.mp h
  have hkind : ((eventsFor record s).map (·.kind))[ordinal]? = some kind := by
    rw [kinds_eventsFor, List.getElem?_append_left hlt, h]
  rw [List.getElem?_map] at hkind
  exact Option.map_eq_some_iff.mp hkind

theorem eventsFor_receipt {record : Record} (s : Serving) :
    (∃ event, (eventsFor record s)[(slots record).length]? = some event) ↔
      (receiptOf s record).isSome = true := by
  have hkind : ((eventsFor record s).map (·.kind))[(slots record).length]? =
      (receiptOf s record).map fun _ => .receiptIssued := by
    rw [kinds_eventsFor, List.getElem?_append_right (le_refl _), Nat.sub_self]
    cases receiptOf s record <;> rfl
  rw [List.getElem?_map] at hkind
  rw [← Option.isSome_iff_exists, ← Option.isSome_map, hkind, Option.isSome_map]

/-- An event of a record is one of its own, or its receipt. -/
theorem place_of_event {record : Record} {s : Serving} {ordinal : ℕ} {event : Event}
    (h : (eventsFor record s)[ordinal]? = some event) :
    ordinal < (slots record).length ∨
      ordinal = (slots record).length ∧ (receiptOf s record).isSome = true := by
  obtain ⟨hlt, -⟩ := List.getElem?_eq_some_iff.mp h
  rw [← List.length_map (·.kind), kinds_eventsFor, List.length_append, List.length_map] at hlt
  cases hheld : receiptOf s record with
  | none =>
    rw [hheld, Option.toList_none, List.length_nil, Nat.add_zero] at hlt
    exact .inl hlt
  | some receipt =>
    rw [hheld, Option.toList_some, List.length_singleton] at hlt
    exact (Nat.lt_succ_iff_lt_or_eq.mp hlt).imp_right fun heq => ⟨heq, rfl⟩

end Slots

/-- A record that is in the journal at one tick has no receipt at a later one unless it has one
then. -/
def NoLateReceipt (ticks : List Serving) : Prop :=
  ticks.Pairwise fun a b => ∀ record ∈ a.records,
    (receiptOf b record).isSome = true → (receiptOf a record).isSome = true

/-- What a subscriber may rely on who was at `start`, and what it was told and the cursor it has
after some ticks: the events come in the order of their places and none twice, and one told stood
there at a tick; the place of every event that it has passed was read at one tick, and told if
there was something to tell; and when it is level with the journal it has every event of every
record behind its start, but for receipts that were not held when their place was read. -/
structure Streamed (start : Cursor) (ticks : List Serving) (got : List (Cursor × Event) × Cursor) :
    Prop where
  ordered : got.1.Pairwise fun a b => a.1 < b.1
  told : ∀ c event, (c, event) ∈ got.1 → start < c ∧ c ≤ got.2 ∧ ∃ s ∈ ticks, EventAt s c event
  read : ∀ c, start < c → c ≤ got.2 →
    ∃ s ∈ ticks, c.record < s.records.length ∧ ∀ event, (c, event) ∈ got.1 ↔ EventAt s c event
  lossless : ∀ last ∈ ticks.getLast?, (eventsAfter last got.2).1 = [] →
    ∀ c record kind, last.records[c.record]? = some record → (slots record)[c.ordinal]? = some kind →
      start < c → ∃ event, (c, event) ∈ got.1 ∧ event.kind = kind ∧
        record.transformation = some event.transformation ∧ event.at_ = record.at_
  receipts : ∀ last ∈ ticks.getLast?, (eventsAfter last got.2).1 = [] →
    ∀ c record, last.records[c.record]? = some record → c.ordinal = (slots record).length →
      start < c → (∀ s ∈ ticks, s.records[c.record]? = some record → (receiptOf s record).isSome) →
        ∃ event, (c, event) ∈ got.1
  complete : NoLateReceipt ticks → ∀ last ∈ ticks.getLast?, (eventsAfter last got.2).1 = [] →
    ∀ c event, EventAt last c event → start < c → ∃ told, (c, told) ∈ got.1

section Subscriber

variable {ticks : List Serving} {start : Cursor}

theorem ascending_batches : ∀ request ∈ batches ticks, Ascending request.2 := by
  intro request hmem
  obtain ⟨s, -, rfl⟩ := List.mem_map.mp hmem
  exact ascending_published s

theorem le_of_level {s : Serving} {cursor c : Cursor} {event : Event}
    (hlevel : (eventsAfter s cursor).1 = []) (hevent : EventAt s c event) : c ≤ cursor := by
  by_contra hlt
  have hpast : (c, event) ∈ past (cursor : WithBot Cursor) (published s) :=
    mem_past.mpr ⟨mem_published.mpr hevent, WithBot.coe_lt_coe.mpr (not_le.mp hlt)⟩
  rw [eventsAfter_fst, page, List.take_eq_nil_iff] at hlevel
  rcases hlevel with hzero | hnil
  · cases hzero
  · rw [hnil] at hpast
    cases hpast

theorem read_of_le {c : Cursor} (hstart : start < c) (hle : c ≤ (stream start ticks).2) :
    ∃ s ∈ ticks, c.record < s.records.length ∧
      ∀ event, (c, event) ∈ (stream start ticks).1 ↔ EventAt s c event := by
  obtain ⟨hwalk, hreached⟩ := stream_eq start ticks
  rw [← WithBot.coe_le_coe, hreached] at hle
  obtain ⟨request, hrequest, ⟨⟨c', event⟩, hrow, hpast⟩, hiff⟩ :=
    walk_passes ascending_batches (WithBot.coe_lt_coe.mpr hstart) hle
  obtain ⟨s, hs, rfl⟩ := List.mem_map.mp hrequest
  refine ⟨s, hs, ?_, fun event => ?_⟩
  · obtain ⟨record, hrecord, -⟩ := mem_published.mp hrow
    obtain ⟨hlt, -⟩ := List.getElem?_eq_some_iff.mp hrecord
    rcases (Cursor.le_iff _ _).mp hpast with hless | ⟨heq, -⟩
    · exact hless.trans hlt
    · exact heq ▸ hlt
  · rw [hwalk, hiff event]
    exact mem_published

omit [Canon] [Digests] [ErrorTexts] in
theorem record_at_tick {last s : Serving} {index : ℕ} {record : Record}
    (hgrows : ticks.Pairwise fun a b => a.records <+: b.records) (hlast : last ∈ ticks.getLast?)
    (hs : s ∈ ticks) (hlt : index < s.records.length) (hrecord : last.records[index]? = some record) :
    s.records[index]? = some record := by
  obtain ⟨init, rfl⟩ := List.getLast?_eq_some_iff.mp hlast
  rcases List.mem_append.mp hs with hs | hs
  · obtain ⟨more, hmore⟩ := (List.pairwise_append.mp hgrows).2.2 s hs last List.mem_cons_self
    rw [← hrecord, ← hmore, List.getElem?_append_left hlt]
  · rwa [List.mem_singleton.mp hs]

section Level

variable {last : Serving} {c : Cursor} {record : Record}

/-- A subscriber level with the journal has been told every event that a record has of its own. -/
theorem told_of_slot (hgrows : ticks.Pairwise fun a b => a.records <+: b.records)
    (hlast : last ∈ ticks.getLast?) (hlevel : (eventsAfter last (stream start ticks).2).1 = [])
    {kind : EventKind} (hrecord : last.records[c.record]? = some record)
    (hkind : (slots record)[c.ordinal]? = some kind) (hstart : start < c) :
    ∃ event, (c, event) ∈ (stream start ticks).1 ∧ event.kind = kind ∧
      record.transformation = some event.transformation ∧ event.at_ = record.at_ := by
  obtain ⟨there, hthere, -⟩ := eventsFor_slot last hkind
  obtain ⟨s, hs, hlt, hiff⟩ := read_of_le hstart (le_of_level hlevel ⟨record, hrecord, hthere⟩)
  obtain ⟨event, hevent, hkind⟩ := eventsFor_slot s hkind
  have hsame := record_at_tick hgrows hlast hs hlt hrecord
  exact ⟨event, (hiff event).mpr ⟨record, hsame, hevent⟩, hkind,
    of_mem_eventsFor (List.mem_of_getElem? hevent)⟩

/-- And the receipt of every record that had one at each tick. -/
theorem told_of_receipt (hgrows : ticks.Pairwise fun a b => a.records <+: b.records)
    (hlast : last ∈ ticks.getLast?) (hlevel : (eventsAfter last (stream start ticks).2).1 = [])
    (hrecord : last.records[c.record]? = some record) (hordinal : c.ordinal = (slots record).length)
    (hstart : start < c)
    (hheld : ∀ s ∈ ticks, s.records[c.record]? = some record → (receiptOf s record).isSome) :
    ∃ event, (c, event) ∈ (stream start ticks).1 := by
  have hhere : ∀ s ∈ ticks, s.records[c.record]? = some record → ∃ event, EventAt s c event := by
    intro s hs hsame
    obtain ⟨event, hevent⟩ := (eventsFor_receipt s).mpr (hheld s hs hsame)
    exact ⟨event, record, hsame, hordinal ▸ hevent⟩
  obtain ⟨there, hthere⟩ := hhere last (List.mem_of_getLast? hlast) hrecord
  obtain ⟨s, hs, hlt, hiff⟩ := read_of_le hstart (le_of_level hlevel hthere)
  obtain ⟨event, hevent⟩ := hhere s hs (record_at_tick hgrows hlast hs hlt hrecord)
  exact ⟨event, (hiff event).mpr hevent⟩

omit [Canon] [Digests] [ErrorTexts] in
theorem held_at_tick (hlate : NoLateReceipt ticks) (hlast : last ∈ ticks.getLast?) {s : Serving}
    (hs : s ∈ ticks) (hrecord : record ∈ s.records)
    (hheld : (receiptOf last record).isSome = true) : (receiptOf s record).isSome = true := by
  obtain ⟨init, rfl⟩ := List.getLast?_eq_some_iff.mp hlast
  rcases List.mem_append.mp hs with hs | hs
  · exact (List.pairwise_append.mp hlate).2.2 s hs last List.mem_cons_self record hrecord hheld
  · rwa [List.mem_singleton.mp hs]

end Level

theorem streamed (hgrows : ticks.Pairwise fun a b => a.records <+: b.records) :
    Streamed start ticks (stream start ticks) := by
  obtain ⟨hwalk, hreached⟩ := stream_eq start ticks
  constructor
  case ordered =>
    rw [hwalk]
    exact ascending_walk ascending_batches
  case told =>
    intro c event hmem
    rw [hwalk] at hmem
    refine ⟨WithBot.coe_lt_coe.mp (lt_of_mem_walk hmem), ?_, ?_⟩
    · rw [← WithBot.coe_le_coe, hreached]
      exact le_reached_of_mem ascending_batches hmem
    · obtain ⟨request, hrequest, hin⟩ := mem_of_mem_walk hmem
      obtain ⟨s, hs, rfl⟩ := List.mem_map.mp hrequest
      exact ⟨s, hs, mem_published.mp hin⟩
  case read =>
    intro c hstart hle
    exact read_of_le hstart hle
  case lossless =>
    intro last hlast hlevel c record kind hrecord hkind hstart
    exact told_of_slot hgrows hlast hlevel hrecord hkind hstart
  case receipts =>
    intro last hlast hlevel c record hrecord hordinal hstart hheld
    exact told_of_receipt hgrows hlast hlevel hrecord hordinal hstart hheld
  case complete =>
    rintro hlate last hlast hlevel c event ⟨record, hrecord, hevent⟩ hstart
    rcases place_of_event hevent with hown | ⟨hplace, hheld⟩
    · obtain ⟨told, htold, -⟩ :=
        told_of_slot hgrows hlast hlevel hrecord (List.getElem?_eq_getElem hown) hstart
      exact ⟨told, htold⟩
    · refine told_of_receipt hgrows hlast hlevel hrecord hplace hstart fun s hs hsame => ?_
      exact held_at_tick hlate hlast hs (List.mem_of_getElem? hsame) hheld

theorem level_of_ticks (s : Serving) (cursor : Cursor) :
    ∃ n, (eventsAfter s (stream cursor (List.replicate n s)).2).1 = [] := by
  induction h : (past (cursor : WithBot Cursor) (published s)).length using Nat.strong_induction_on
    generalizing cursor with
  | _ size ih =>
    by_cases hnone : (eventsAfter s cursor).1 = []
    · exact ⟨0, hnone⟩
    · have hpage := hnone
      rw [eventsAfter_fst] at hpage
      have hless := length_past_lastOf hpage
      rw [← coe_eventsAfter, h] at hless
      obtain ⟨n, hn⟩ := ih _ hless (eventsAfter s cursor).2 rfl
      exact ⟨n + 1, hn⟩

theorem fits_of_eventAt {s : Serving} {c : Cursor} {event : Event} (h : EventAt s c event) :
    c.Fits := by
  obtain ⟨record, hrecord, hevent⟩ := h
  obtain ⟨hlt, -⟩ := List.getElem?_eq_some_iff.mp hrecord
  have hslots : (slots record).length ≤ 2 := by
    rw [slots.eq_def]
    split <;> first | decide | skip
    split <;> decide
  have hordinal : c.ordinal ≤ 2 := by
    rcases place_of_event hevent with hown | ⟨hplace, -⟩
    · exact hown.le.trans hslots
    · exact hplace.le.trans hslots
  exact ⟨hlt.le.trans s.inMemory, hordinal.trans (by decide)⟩

end Subscriber

omit [Canon] [Digests] [ErrorTexts] in
theorem resumeFrom_lastEventId (rfc3339 : String → Except ApiError Timestamp) (s : Serving)
    (value : String) (since : Option String) :
    resumeFrom rfc3339 s (some value) since = Cursor.parse value := by
  cases since <;> rw [resumeFrom]

/-- The stream loses nothing and repeats nothing, and a cursor it published resumes it. -/
theorem stream_lossless (rfc3339 : String → Except ApiError Timestamp) (before after : List Serving)
    (hfirst : ∀ s ∈ before, ∀ record ∈ s.records.head?, record.transformation = none)
    (hgrows : (before ++ after).Pairwise fun a b => a.records <+: b.records) :
    Streamed .default before (stream .default before) ∧
      (∀ s ∈ before, ∀ c event, EventAt s c event → Cursor.default < c) ∧
      (∀ row ∈ (stream .default before).1,
        (∀ s since, resumeFrom rfc3339 s (some row.1.toText) since = .ok row.1) ∧
          Streamed row.1 after (stream row.1 after)) ∧
      ∀ s cursor, ∃ n, (eventsAfter s (stream cursor (List.replicate n s)).2).1 = [] := by
  obtain ⟨hbefore, hafter, -⟩ := List.pairwise_append.mp hgrows
  refine ⟨streamed hbefore, ?_, ?_, level_of_ticks⟩
  · rintro s hs ⟨index, ordinal⟩ event ⟨record, hrecord, hevent⟩
    rw [Cursor.lt_iff]
    left
    rcases Nat.eq_zero_or_pos index with rfl | hpos
    · rw [← List.head?_eq_getElem?] at hrecord
      have hnamed := (of_mem_eventsFor (List.mem_of_getElem? hevent)).1
      rw [hfirst s hs record hrecord] at hnamed
      cases hnamed
    · exact hpos
  · rintro ⟨c, event⟩ hmem
    obtain ⟨-, -, s, -, hevent⟩ := (streamed hbefore).told c event hmem
    refine ⟨fun s since => ?_, streamed hafter⟩
    rw [resumeFrom_lastEventId]
    exact Cursor.parse_toText (fits_of_eventAt hevent)

end

section Ruled

open Tracefold.Ideal

theorem grown_ruled : (serving 1 raised []).records <+: (serving 1 ruled [rulingReceipt]).records := by
  have htake : (serving 1 ruled [rulingReceipt]).records.take 6 = (serving 1 raised []).records := by
    decide
  rw [← htake]
  exact List.take_prefix ..

theorem draft_first {s : Serving} (hs : s ∈ [serving 1 raised [], serving 1 ruled [rulingReceipt]])
    {record : Record} (hrecord : record ∈ s.records.head?) : record.transformation = none := by
  have hall : ∀ s ∈ [serving 1 raised [], serving 1 ruled [rulingReceipt]],
      s.records.head?.all (·.transformation = none) = true := by decide
  have hdraft := hall s hs
  rw [hrecord] at hdraft
  exact of_decide_eq_true hdraft

/-- A receipt that comes to be held after its place was passed is told at no tick. -/
theorem stream_without_receipt :
    ¬ ∀ ticks : List Serving,
      (∀ s ∈ ticks, ∀ record ∈ s.records.head?, record.transformation = none) →
        (ticks.Pairwise fun a b => a.records <+: b.records) →
          ∀ last ∈ ticks.getLast?, (eventsAfter last (stream .default ticks).2).1 = [] →
            ∀ c event, EventAt last c event → ∃ told, (c, told) ∈ (stream .default ticks).1 := by
  intro h
  have hlevel : (eventsAfter (serving 1 ruled [rulingReceipt])
      (stream .default [serving 1 raised [], serving 1 ruled [rulingReceipt]]).2).1 = [] := by
    decide
  have hheld : ((serving 1 ruled [rulingReceipt]).records[3]?.bind fun record =>
      (eventsFor record (serving 1 ruled [rulingReceipt]))[2]?).isSome = true := by
    decide
  have hmissed : ∀ row ∈ (stream .default [serving 1 raised [], serving 1 ruled [rulingReceipt]]).1,
      row.1 ≠ ⟨3, 2⟩ := by
    decide
  obtain ⟨event, hevent⟩ := Option.isSome_iff_exists.mp hheld
  obtain ⟨record, hrecord, hevent⟩ := Option.bind_eq_some_iff.mp hevent
  obtain ⟨told, htold⟩ := h [serving 1 raised [], serving 1 ruled [rulingReceipt]]
    (fun _ hs _ => draft_first hs) (List.pairwise_pair.mpr grown_ruled) _ rfl hlevel ⟨3, 2⟩ event
    ⟨record, hrecord, hevent⟩
  exact hmissed _ htold rfl

/-- The ticks of a process that lives on while a human rules. -/
def attended : List Serving :=
  [serving 0 asked [escalationReceipt], serving 0 answered [escalationReceipt, rulingReceipt]]

/-- Its subscriber is told everything, both receipts included. -/
theorem stream_lossless_ruled :
    NoLateReceipt attended ∧ (stream .default attended).1.length = 8 ∧
      ∀ last ∈ attended.getLast?, ∀ c event, EventAt last c event →
        ∃ told, (c, told) ∈ (stream .default attended).1 := by
  have hlate : NoLateReceipt attended := by
    refine List.pairwise_pair.mpr ?_
    decide
  have hfirst : ∀ s ∈ attended, s.records.head?.all (·.transformation = none) = true := by
    decide
  have hgrows : attended.Pairwise fun a b => a.records <+: b.records := by
    refine List.pairwise_pair.mpr ?_
    decide
  have hlevel : ∀ last ∈ attended.getLast?,
      (eventsAfter last (stream .default attended).2).1 = [] := by decide
  obtain ⟨hstreamed, hbehind, -, -⟩ := stream_lossless (fun text => .error (.validation text)) attended
    [] (fun s hs record hrecord => by
      have hdraft := hfirst s hs
      rw [hrecord] at hdraft
      exact of_decide_eq_true hdraft) (by rwa [List.append_nil])
  refine ⟨hlate, by decide, fun last hlast c event hevent => ?_⟩
  exact hstreamed.complete hlate last hlast (hlevel last hlast) c event hevent
    (hbehind last (List.mem_of_getLast? hlast) c event hevent)

end Ruled

end Tracefold.Api
