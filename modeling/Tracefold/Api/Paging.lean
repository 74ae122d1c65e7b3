import Mathlib.Data.List.Induction
import Mathlib.Tactic.Common
import Tracefold.Api.List
import Tracefold.Ideal.Api

/-! A client of a list loses no row and meets none twice, however the journal grows and the rows
change between its requests. -/

namespace Tracefold.Api

open GxGate (Digests)
open Library Library.Pages

section Order

def mentions (id : TransformationId) (record : Record) : Bool := record.transformation = some id

/-- Where a journal first mentions a transformation. -/
def place (records : List Record) (id : TransformationId) : Option ℕ :=
  records.findIdx? (mentions id)

theorem place_concat (records : List Record) (record : Record) (id : TransformationId) :
    place (records ++ [record]) id =
      (place records id).or (if mentions id record then some records.length else none) := by
  rw [place, List.findIdx?_append, List.findIdx?_singleton, place]
  split <;> simp

theorem place_lt {records : List Record} {id : TransformationId} {i : ℕ}
    (h : place records id = some i) : i < records.length := by
  obtain ⟨hlt, -⟩ := List.findIdx?_eq_some_iff_getElem.mp h
  exact hlt

theorem place_of_isPrefix {records later : List Record} {id : TransformationId} {i : ℕ}
    (hgrown : records <+: later) (h : place records id = some i) : place later id = some i := by
  obtain ⟨more, rfl⟩ := hgrown
  rw [place] at h ⊢
  rw [List.findIdx?_append, h]
  rfl

theorem place_of_mem {records : List Record} {id : TransformationId} {record : Record}
    (hmem : record ∈ records) (h : record.transformation = some id) : ∃ i, place records id = some i := by
  rw [← Option.isSome_iff_exists, place, List.findIdx?_isSome, List.any_eq_true]
  exact ⟨record, hmem, decide_eq_true h⟩

theorem eq_of_place {records : List Record} {a b : TransformationId} {i : ℕ}
    (ha : place records a = some i) (hb : place records b = some i) : a = b := by
  obtain ⟨_, hia, -⟩ := List.findIdx?_eq_some_iff_getElem.mp ha
  obtain ⟨_, hib, -⟩ := List.findIdx?_eq_some_iff_getElem.mp hb
  have heq := (of_decide_eq_true hia).symm.trans (of_decide_eq_true hib)
  exact Option.some.inj heq

theorem journalOrder_concat (records : List Record) (record : Record) :
    journalOrder (records ++ [record]) =
      journalOrderStep (journalOrder records) (record, records.length) := by
  rw [journalOrder, List.zipIdx_append, List.foldl_append]
  simp [journalOrder]

theorem mem_journalOrder {records : List Record} {c : Cursor} {id : TransformationId} :
    (c, id) ∈ journalOrder records ↔ ∃ i, place records id = some i ∧ c = ⟨i, 0⟩ := by
  induction records using List.reverseRecOn generalizing c id with
  | nil => simp [journalOrder, place]
  | append_singleton records record ih =>
    rw [journalOrder_concat, journalOrderStep, place_concat]
    cases hnamed : record.transformation with
    | none =>
      have hsilent : mentions id record = false := by simp [mentions, hnamed]
      simp only [ih, hsilent, Bool.false_eq_true, if_false, Option.or_none]
    | some named =>
      have hmentions : mentions id record = decide (named = id) := by simp [mentions, hnamed]
      have hseen : (journalOrder records).any (·.2 = named) = true ↔
          ∃ i, place records named = some i := by
        rw [List.any_eq_true]
        constructor
        · rintro ⟨⟨c, known⟩, hmem, hknown⟩
          obtain rfl : known = named := by simpa using hknown
          obtain ⟨i, hi, -⟩ := ih.mp hmem
          exact ⟨i, hi⟩
        · rintro ⟨i, hi⟩
          exact ⟨(⟨i, 0⟩, named), ih.mpr ⟨i, hi, rfl⟩, decide_eq_true rfl⟩
      rw [hmentions]
      dsimp only
      split
      next h =>
        obtain ⟨j, hj⟩ := hseen.mp h
        rw [ih]
        by_cases hid : named = id
        · rw [← hid, hj, Option.some_or]
        · rw [decide_eq_false hid, if_neg Bool.false_ne_true, Option.or_none]
      next h =>
        have hfresh : place records named = none := by
          rw [Option.eq_none_iff_forall_ne_some]
          intro i hi
          exact h (hseen.mpr ⟨i, hi⟩)
        rw [List.mem_append, List.mem_singleton, ih]
        by_cases hid : named = id
        · rw [← hid, hfresh, decide_eq_true rfl]
          simp
        · rw [decide_eq_false hid, if_neg Bool.false_ne_true, Option.or_none]
          simp [Ne.symm hid]

theorem ascending_journalOrder (records : List Record) : Ascending (journalOrder records) := by
  induction records using List.reverseRecOn with
  | nil => exact .nil
  | append_singleton records record ih =>
    rw [journalOrder_concat, journalOrderStep]
    cases record.transformation with
    | none => exact ih
    | some named =>
      dsimp only
      split
      next => exact ih
      next =>
        apply List.pairwise_append.mpr
        refine ⟨ih, List.pairwise_singleton .., ?_⟩
        rintro ⟨c, id⟩ hmem last hlast
        obtain ⟨i, hi, rfl⟩ := mem_journalOrder.mp hmem
        rw [List.mem_singleton.mp hlast, Cursor.lt_iff]
        exact .inl (place_lt hi)

end Order

section Rows

variable {ρ : Type}

/-- Where a page begins, as a key of the rows. -/
def keyOf : Option Cursor → WithBot Cursor
  | none => ⊥
  | some c => c

theorem any_le_iff (after : Option Cursor) (c : Cursor) :
    after.any (c ≤ ·) = true ↔ ¬ keyOf after < (c : WithBot Cursor) := by
  cases after with
  | none => simp [keyOf]
  | some a => simp [keyOf]

/-- The loop leaves the rows before the cursor out and takes those behind it while there is room. -/
theorem pageLoop_eq (after : Option Cursor) (limit : ℕ) (rows : List (Cursor × ρ)) (items : List ρ)
    (next : Option Cursor) (hroom : items.length ≤ limit) :
    pageLoop after limit rows items next =
      let taken := page (limit - items.length) (keyOf after) rows
      (items ++ taken.map (·.2), (taken.getLast?.map (·.1)).or next) := by
  induction rows generalizing items next with
  | nil => simp [pageLoop, page, past]
  | cons row rest ih =>
    obtain ⟨cursor, row⟩ := row
    rw [pageLoop]
    split
    next hbefore =>
      rw [any_le_iff] at hbefore
      rw [ih items next hroom, page, page, past, past, List.filter_cons_of_neg (by simpa using hbefore)]
    next hbehind =>
      rw [any_le_iff, not_not] at hbehind
      have hpast : past (keyOf after) ((cursor, row) :: rest) =
          (cursor, row) :: past (keyOf after) rest := by
        rw [past, List.filter_cons_of_pos (by simpa using hbehind), past]
      split
      next hfull => simp [page, hfull]
      next hfree =>
        have hlt : items.length < limit := Nat.lt_of_le_of_ne hroom hfree
        have hlength : (items ++ [row]).length = items.length + 1 := List.length_append
        rw [ih (items ++ [row]) (some cursor) (hlength ▸ hlt), hlength]
        obtain ⟨room, hroom⟩ : ∃ room, limit - items.length = room + 1 :=
          ⟨limit - items.length - 1, by omega⟩
        have hless : limit - (items.length + 1) = room := by omega
        simp only [page, hpast, hroom, hless, List.take_succ_cons, List.map_cons, List.append_assoc,
          List.singleton_append, List.getLast?_cons, Prod.mk.injEq, true_and]
        cases (List.take room (past (keyOf after) rest)).getLast? <;> rfl

theorem pageOf_eq (after : Option Cursor) (limit : ℕ) (rows : List (Cursor × ρ)) :
    pageOf rows after limit =
      let taken := page limit (keyOf after) rows
      ⟨taken.map (·.2),
        if taken.length = limit then taken.getLast?.map fun row => row.1.toText else none⟩ := by
  rw [pageOf, pageLoop_eq after limit rows [] none (Nat.zero_le _)]
  dsimp only
  rw [List.nil_append, List.length_map, List.length_nil, Nat.sub_zero, Option.or_none]
  congr 1
  split
  next h => cases (page limit (keyOf after) rows).getLast? <;> simp [h]
  next h => cases (page limit (keyOf after) rows).getLast? <;> simp [h]

/-- The keys of a list that a text can carry. -/
def FitRows (rows : List (Cursor × ρ)) : Prop := ∀ row ∈ rows, row.1.Fits

/-- A handler that answers with a page of a list of rows. -/
def Lists (handler : Page → Serving → Except ApiError (Answer ρ))
    (rowsOf : Serving → List (Cursor × ρ)) : Prop :=
  ∀ limit cursor s, 1 ≤ limit → limit ≤ maxLimit → (∀ c ∈ cursor, Cursor.Fits c) →
    handler ⟨some limit, cursor.map Cursor.toText⟩ s = .ok (pageOf (rowsOf s) cursor limit)

theorem follow_eq {handler : Page → Serving → Except ApiError (Answer ρ)}
    {rowsOf : Serving → List (Cursor × ρ)} (hlists : Lists handler rowsOf)
    (hfits : ∀ s, FitRows (rowsOf s)) {cursor : Option Cursor} (hcursor : ∀ c ∈ cursor, Cursor.Fits c)
    {requests : List (ℕ × Serving)}
    (hlimits : ∀ request ∈ requests, 1 ≤ request.1 ∧ request.1 ≤ maxLimit) :
    follow handler (cursor.map Cursor.toText) requests =
      let read := Pages.follow (keyOf cursor) (requests.map fun request => (request.1, rowsOf request.2))
      ⟨read.1.map (·.2), read.2, none⟩ := by
  induction requests generalizing cursor with
  | nil => rfl
  | cons request rest ih =>
    obtain ⟨limit, s⟩ := request
    obtain ⟨hpos, hmax⟩ := hlimits _ List.mem_cons_self
    have hrest := fun other hother => hlimits other (List.mem_cons_of_mem (limit, s) hother)
    rw [follow, hlists limit cursor s hpos hmax hcursor, pageOf_eq, List.map_cons, Pages.follow]
    dsimp only
    have hle : (page limit (keyOf cursor) (rowsOf s)).length ≤ limit := List.length_take_le ..
    by_cases hshort : (page limit (keyOf cursor) (rowsOf s)).length < limit
    · rw [if_neg hshort.ne, if_pos hshort]
    · rw [if_pos (hle.antisymm (not_lt.mp hshort)), if_neg hshort]
      have hne : page limit (keyOf cursor) (rowsOf s) ≠ [] := by
        intro hnil
        rw [hnil] at hshort
        exact hshort hpos
      obtain ⟨init, last, hpage⟩ := List.eq_nil_or_concat _ |>.resolve_left hne
      rw [List.concat_eq_append] at hpage
      have hmem : last ∈ page limit (keyOf cursor) (rowsOf s) := by rw [hpage]; simp
      have hlast : ∀ c ∈ some last.1, Cursor.Fits c := by
        intro c hc
        cases hc
        exact hfits s last (mem_of_mem_page hmem).1
      have hnext := ih hlast hrest
      rw [Option.map_some] at hnext
      rw [hpage, List.getLast?_concat, Option.map_some, lastOf_concat, ← hpage]
      dsimp only
      rw [hnext]
      simp only [keyOf, List.map_append]

end Rows

/-- The rows of a list that shows some of the transformations. -/
def listed {ρ : Type} (row : Serving → TransformationId → Option ρ) (s : Serving) :
    List (Cursor × ρ) :=
  (journalOrder s.records).filterMap fun (cursor, id) => (row s id).map fun shown => (cursor, shown)

section Listed

variable {ρ : Type} {row : Serving → TransformationId → Option ρ}

theorem mem_listed {s : Serving} {c : Cursor} {shown : ρ} :
    (c, shown) ∈ listed row s ↔
      ∃ id i, place s.records id = some i ∧ c = ⟨i, 0⟩ ∧ row s id = some shown := by
  rw [listed, List.mem_filterMap]
  constructor
  · rintro ⟨⟨cursor, id⟩, hmem, heq⟩
    obtain ⟨_, hrow, hpair⟩ := Option.map_eq_some_iff.mp heq
    cases hpair
    obtain ⟨i, hi, hc⟩ := mem_journalOrder.mp hmem
    exact ⟨id, i, hi, hc, hrow⟩
  · rintro ⟨id, i, hi, hc, hrow⟩
    refine ⟨(c, id), mem_journalOrder.mpr ⟨i, hi, hc⟩, ?_⟩
    exact congrArg (Option.map fun shown => (c, shown)) hrow

theorem ascending_listed (s : Serving) : Ascending (listed row s) := by
  apply List.Pairwise.filterMap _ _ (ascending_journalOrder s.records)
  intro a b hlt shown hshown other hother
  obtain ⟨_, _, rfl⟩ := Option.map_eq_some_iff.mp hshown
  obtain ⟨_, _, rfl⟩ := Option.map_eq_some_iff.mp hother
  exact hlt

theorem fitRows_listed (s : Serving) : FitRows (listed row s) := by
  rintro ⟨c, shown⟩ hmem
  obtain ⟨id, i, hi, rfl, -⟩ := mem_listed.mp hmem
  exact ⟨(place_lt hi).le.trans s.inMemory, Nat.zero_le _⟩

end Listed

/-- A journal mentions one transformation before it mentions the other. -/
def Precedes (records : List Record) (a b : TransformationId) : Prop :=
  ∃ i j, place records a = some i ∧ place records b = some j ∧ i < j

/-- What a client may rely on who follows a list: no request of it is refused, its rows come in the
order of the journal and none twice, and at the end it has every transformation that was in the
journal at the first request and belonged on the list at every one. -/
structure FollowedWell {ρ : Type} (handler : Page → Serving → Except ApiError (Answer ρ))
    (idOf : ρ → TransformationId) (shows : Serving → TransformationId → Prop)
    (requests : List (ℕ × Serving)) : Prop where
  answered : (follow handler none requests).refused = none
  ordered : ∀ records, (∀ request ∈ requests, request.2.records <+: records) →
    ((follow handler none requests).rows.map idOf).Pairwise (Precedes records)
  complete : (follow handler none requests).done = true →
    ∀ id, (∀ first ∈ requests.head?, ∃ record ∈ first.2.records, record.transformation = some id) →
      (∀ request ∈ requests, shows request.2 id) →
        id ∈ (follow handler none requests).rows.map idOf

section Followed

variable {ρ : Type} {handler : Page → Serving → Except ApiError (Answer ρ)}
  {row : Serving → TransformationId → Option ρ} {idOf : ρ → TransformationId}
  {requests : List (ℕ × Serving)}

/-- The rows of the requests, as a reader of them has them. -/
def rowsAt (row : Serving → TransformationId → Option ρ) (requests : List (ℕ × Serving)) :
    List (ℕ × List (Cursor × ρ)) :=
  requests.map fun request => (request.1, listed row request.2)

theorem ascending_rowsAt : ∀ request ∈ rowsAt row requests, Ascending request.2 := by
  intro request hmem
  obtain ⟨⟨limit, s⟩, -, rfl⟩ := List.mem_map.mp hmem
  exact ascending_listed s

theorem mem_follow_rowsAt {key : WithBot Cursor} {c : Cursor} {shown : ρ}
    (h : (c, shown) ∈ (Pages.follow key (rowsAt row requests)).1) :
    ∃ request ∈ requests, (c, shown) ∈ listed row request.2 := by
  obtain ⟨_, hrequest, hmem⟩ := mem_of_mem_follow h
  obtain ⟨request, hin, rfl⟩ := List.mem_map.mp hrequest
  exact ⟨request, hin, hmem⟩

/-- A row that was read stands where the journal has its transformation. -/
theorem place_of_mem_follow {key : WithBot Cursor} {c : Cursor} {shown : ρ} {records : List Record}
    (hidOf : ∀ s id shown, row s id = some shown → idOf shown = id)
    (hgrown : ∀ request ∈ requests, request.2.records <+: records)
    (h : (c, shown) ∈ (Pages.follow key (rowsAt row requests)).1) :
    ∃ i, place records (idOf shown) = some i ∧ c = ⟨i, 0⟩ := by
  obtain ⟨request, hin, hmem⟩ := mem_follow_rowsAt h
  obtain ⟨id, i, hi, hc, hrow⟩ := mem_listed.mp hmem
  rw [hidOf request.2 id shown hrow]
  exact ⟨i, place_of_isPrefix (hgrown request hin) hi, hc⟩

theorem followedWell {shows : Serving → TransformationId → Prop} (hlists : Lists handler (listed row))
    (hidOf : ∀ s id shown, row s id = some shown → idOf shown = id)
    (hshows : ∀ s id, shows s id → ∃ shown, row s id = some shown)
    (hlimits : ∀ request ∈ requests, 1 ≤ request.1 ∧ request.1 ≤ maxLimit)
    (hgrows : requests.Pairwise fun a b => a.2.records <+: b.2.records) :
    FollowedWell handler idOf shows requests := by
  have hread : follow handler none requests =
      ⟨(Pages.follow ⊥ (rowsAt row requests)).1.map (·.2), (Pages.follow ⊥ (rowsAt row requests)).2, none⟩ :=
    @follow_eq _ _ _ hlists fitRows_listed none (fun _ h => nomatch h) _ hlimits
  constructor
  case answered => rw [hread]
  case ordered =>
    intro records hgrown
    rw [hread, List.map_map, List.pairwise_map]
    apply List.Pairwise.imp_of_mem _ (ascending_follow ascending_rowsAt)
    intro a b ha hb hlt
    obtain ⟨i, hi, hai⟩ := place_of_mem_follow hidOf hgrown ha
    obtain ⟨j, hj, hbj⟩ := place_of_mem_follow hidOf hgrown hb
    refine ⟨i, j, hi, hj, ?_⟩
    rw [hai, hbj, Cursor.lt_iff] at hlt
    simpa using hlt
  case complete =>
    rw [hread]
    intro hdone id hfirst hstood
    cases requests with
    | nil => cases hdone
    | cons first rest =>
      obtain ⟨record, hrecord, hnamed⟩ := hfirst first rfl
      obtain ⟨i, hi⟩ := place_of_mem hrecord hnamed
      have hlater : ∀ request ∈ first :: rest, place request.2.records id = some i := by
        intro request hrequest
        rcases List.mem_cons.mp hrequest with rfl | hrequest
        · exact hi
        · exact place_of_isPrefix ((List.pairwise_cons.mp hgrows).1 request hrequest) hi
      obtain ⟨shown, hshown⟩ := follow_complete (k := ⟨i, 0⟩) (@ascending_rowsAt _ row _) (WithBot.bot_lt_coe _)
        (by
          intro request hrequest
          obtain ⟨request, hin, rfl⟩ := List.mem_map.mp hrequest
          obtain ⟨shown, hshown⟩ := hshows request.2 id (hstood request hin)
          exact ⟨shown, mem_listed.mpr ⟨id, i, hlater request hin, rfl, hshown⟩⟩) hdone
      obtain ⟨request, hin, hmem⟩ := mem_follow_rowsAt hshown
      obtain ⟨other, j, hj, hij, hrow⟩ := mem_listed.mp hmem
      cases hij
      rw [List.map_map, List.mem_map]
      refine ⟨_, hshown, ?_⟩
      rw [Function.comp_apply, hidOf request.2 other shown hrow]
      exact eq_of_place hj (hlater request hin)

end Followed

section Handlers

theorem limitOf_of_le {limit : ℕ} {cursor : Option String} (hpos : 1 ≤ limit) (hmax : limit ≤ maxLimit) :
    Page.limitOf ⟨some limit, cursor⟩ = .ok limit := if_pos ⟨hpos, hmax⟩

theorem after_toText {limit : Option ℕ} {cursor : Option Cursor} (h : ∀ c ∈ cursor, Cursor.Fits c) :
    Page.after ⟨limit, cursor.map Cursor.toText⟩ = .ok cursor := by
  cases cursor with
  | none => rfl
  | some c =>
    simp only [Page.after, Option.map_some]
    rw [Cursor.parse_toText (h c rfl)]
    rfl

def candidateRow (s : Serving) (id : TransformationId) : Option Row :=
  if settled (s.engine.state id) then none else some (rowJson s id)

theorem lists_candidates : Lists candidates (listed candidateRow) := by
  intro limit cursor s hpos hmax hcursor
  have hrows : (((journalOrder s.records).filter fun (_, id) => !settled (s.engine.state id)).map
      fun (cursor, id) => (cursor, rowJson s id)) = listed candidateRow s := by
    rw [← List.filterMap_eq_map, List.filterMap_filter, listed]
    apply List.filterMap_congr
    rintro ⟨c, id⟩ -
    simp only [candidateRow]
    cases settled (s.engine.state id) <;> rfl
  rw [candidates, limitOf_of_le hpos hmax, after_toText hcursor]
  exact congrArg (fun rows => Except.ok (pageOf rows cursor limit)) hrows

def transformationRow [Canon] (s : Serving) (id : TransformationId) : Option TransformationRow :=
  some {
    row := rowJson s id
    supersededBy := s.engine.supersededBy id
    inverseStatus := s.engine.inverseStatus s.disk id
    rollback := s.engine.rollback id }

theorem lists_transformations [Canon] : Lists transformations (listed transformationRow) := by
  intro limit cursor s hpos hmax hcursor
  rw [transformations, limitOf_of_le hpos hmax, after_toText hcursor, listed]
  simp only [transformationRow, Option.map_some, List.filterMap_eq_map']
  rfl

variable [Digests] [ErrorTexts]

def escalationRow (s : Serving) (id : TransformationId) : Option EscalationRow :=
  if s.engine.state id ≠ some .escalated then none
  else
    match s.ticketAsRaised id with
    | .ok (some ticket) => some {
        transformation := id
        ticketId := ticket.id
        state := s.engine.state id
        reasons := ticket.reasons
        requiredApproval := ticket.requiredApproval
        createdAt := ticket.createdAt
        deadline := s.engine.deadline id }
    | _ => none

theorem escalationRows_eq (s : Serving) (order : List (Cursor × TransformationId)) :
    escalationRows s order =
      .ok (order.filterMap fun (cursor, id) => (escalationRow s id).map fun shown => (cursor, shown)) := by
  induction order with
  | nil => rfl
  | cons entry rest ih =>
    obtain ⟨cursor, id⟩ := entry
    obtain ⟨ticket, hticket⟩ := s.ticketAsRaised_isOk id
    have hcons : ∀ shown, escalationRow s id = shown →
        ((cursor, id) :: rest).filterMap
            (fun (cursor, id) => (escalationRow s id).map fun shown => (cursor, shown)) =
          shown.toList.map (fun shown => (cursor, shown)) ++ rest.filterMap
            (fun (cursor, id) => (escalationRow s id).map fun shown => (cursor, shown)) := by
      rintro _ rfl
      rw [List.filterMap_cons]
      dsimp only
      cases escalationRow s id <;> rfl
    rw [escalationRows, ih]
    by_cases hstate : s.engine.state id ≠ some .escalated
    · rw [hcons none (if_pos hstate), if_pos hstate]
      rfl
    · have hrow : escalationRow s id = _ := if_neg hstate
      rw [hticket] at hrow
      rw [hcons _ hrow, if_neg hstate, hticket]
      cases ticket <;> rfl

theorem lists_escalations : Lists escalations (listed escalationRow) := by
  intro limit cursor s hpos hmax hcursor
  rw [escalations, limitOf_of_le hpos hmax, after_toText hcursor, escalationRows_eq]
  rfl

end Handlers

/-- Paging is complete and stable. -/
theorem paging_complete [Canon] [Digests] [ErrorTexts] (requests : List (ℕ × Serving))
    (hlimits : ∀ request ∈ requests, 1 ≤ request.1 ∧ request.1 ≤ maxLimit)
    (hgrows : requests.Pairwise fun a b => a.2.records <+: b.2.records) :
    FollowedWell candidates (·.transformation) (fun s id => settled (s.engine.state id) = false)
        requests ∧
      FollowedWell escalations (·.transformation) (fun s id =>
        s.engine.state id = some .escalated ∧ ∃ ticket, s.ticketAsRaised id = .ok (some ticket)) requests ∧
      FollowedWell transformations (·.row.transformation) (fun _ _ => True) requests := by
  refine ⟨?_, ?_, ?_⟩
  · apply followedWell lists_candidates _ _ hlimits hgrows
    · intro s id shown h
      rw [candidateRow] at h
      split at h <;> cases h
      rfl
    · intro s id h
      exact ⟨rowJson s id, if_neg (by simp [h])⟩
  · apply followedWell lists_escalations _ _ hlimits hgrows
    · intro s id shown h
      rw [escalationRow] at h
      split at h
      · cases h
      · split at h <;> cases h
        rfl
    · rintro s id ⟨hstate, ticket, hticket⟩
      rw [escalationRow, if_neg (not_not_intro hstate), hticket]
      exact ⟨_, rfl⟩
  · apply followedWell lists_transformations _ _ hlimits hgrows
    · intro s id shown h
      cases h
      rfl
    · intro s id _
      exact ⟨_, rfl⟩

section Two

open Tracefold.Ideal

/-- Another transformation comes to the journal, and the first is cancelled, between two requests:
the walks come to their end, and those that show both have shown both. -/
theorem paging_complete_two :
    let requests := [(1, served (plannedAt 2) (by decide)),
      (200, served (plannedAt 2 ++ plannedAt 3 ++
        [.about (idAt 2) (.aborted .ownerCancelled none) 1]) (by decide))]
    (FollowedWell candidates (·.transformation) (fun s id => settled (s.engine.state id) = false)
          requests ∧
        FollowedWell escalations (·.transformation) (fun s id =>
          s.engine.state id = some .escalated ∧ ∃ ticket, s.ticketAsRaised id = .ok (some ticket))
          requests ∧
        FollowedWell transformations (·.row.transformation) (fun _ _ => True) requests) ∧
      ((follow candidates none requests).done = true ∧
        (follow candidates none requests).rows.map (·.transformation) = [idAt 2, idAt 3]) ∧
      (follow escalations none requests).done = true ∧
      (follow transformations none requests).done = true ∧
        (follow transformations none requests).rows.map (·.row.transformation) =
          [idAt 2, idAt 3] := by
  refine ⟨paging_complete _ ?_ ?_, ⟨by decide, by decide⟩, by decide,
    by decide, by decide⟩
  · intro request hrequest
    rcases List.mem_pair.mp hrequest with rfl | rfl
    · exact ⟨by decide, by decide⟩
    · exact ⟨by decide, by decide⟩
  · apply List.pairwise_pair.mpr
    exact ⟨_, (List.append_assoc ..).symm⟩

end Two

end Tracefold.Api
