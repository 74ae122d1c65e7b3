import Mathlib.Tactic.Common
import Tracefold.Api.Idempotency

/-! Requests under keys, in any order of their steps: what a key file holds of the answers that were
given, as long as each is written into the file its request read. -/

namespace Tracefold.Api.Idempotency

open Library Engine
open Std (ExtTreeMap)

/-- A reading of the clock within one time to live. -/
def Within (start now : Int) : Prop := start ≤ now ∧ now ≤ start + ttlNanos

section Store

variable {store store' : Store} {id : TransformationId} {key : String} {entry : Entry}
  {start now : Timestamp} {wire : Wire}

/-- Every entry of a file was made within the time. -/
def Wire.Fresh (start : Timestamp) (wire : Wire) : Prop :=
  ∀ (key : String) (entry : Entry), wire[key]? = some entry → Within start entry.atUnixNanos

def Store.Fresh (start : Timestamp) (store : Store) : Prop := ∀ id, (store.read id).Fresh start

theorem not_expired {at_ : Timestamp} (hat : Within start at_) (hnow : Within start now) :
    ¬ ttlNanos < saturatingSub now at_ := by
  obtain ⟨hat, _⟩ := hat
  obtain ⟨_, hnow⟩ := hnow
  rw [ttlNanos] at hnow
  rw [saturatingSub, ttlNanos]
  omega

theorem Store.get_eq_some_iff :
    store.get id key now = some entry ↔
      (store.read id)[key]? = some entry ∧ ¬ ttlNanos < saturatingSub now entry.atUnixNanos := by
  rw [get, read]
  cases store id with
  | none => simp
  | some wire =>
    simp only [Option.bind_eq_bind, Option.bind_some, Option.getD_some]
    cases wire[key]? with
    | none => simp
    | some held =>
      simp only [Option.bind_some, Option.some.injEq]
      constructor
      · intro h
        split_ifs at h with hexpired
        obtain rfl := Option.some.inj h
        exact ⟨rfl, hexpired⟩
      · rintro ⟨rfl, hfresh⟩
        rw [if_neg hfresh]

theorem Store.get_of_fresh (hfresh : store.Fresh start) (hnow : Within start now)
    (h : (store.read id)[key]? = some entry) : store.get id key now = some entry :=
  get_eq_some_iff.mpr ⟨h, not_expired (hfresh id key entry h) hnow⟩

theorem Store.read_write {other : TransformationId} :
    (store.write id wire).read other = if other = id then wire else store.read other := by
  rw [read, write]
  split_ifs
  · rfl
  · rfl

/-- The answer of an entry stays with its key. -/
def Entry.Says (entry : Entry) (request : RequestBody) (status : ℕ) (response : Response) : Prop :=
  entry.request = request ∧ entry.status = status ∧ entry.response = response

/-- A file holds all that another one does, by what it says. -/
def Wire.Keeps (before after : Wire) : Prop :=
  ∀ (key : String) (entry : Entry), before[key]? = some entry →
    ∃ entry', after[key]? = some entry' ∧ entry'.Says entry.request entry.status entry.response

theorem Wire.keeps_insert (h : key ∉ wire) : wire.Keeps (wire.insert key entry) := by
  intro other held hheld
  refine ⟨held, ?_, rfl, rfl, rfl⟩
  rw [ExtTreeMap.getElem?_insert, if_neg, hheld]
  intro heq
  obtain rfl := Std.LawfulEqCmp.eq_of_compare heq
  exact h (ExtTreeMap.mem_iff_isSome_getElem?.mpr (by rw [hheld]; rfl))

/-- A file holds the answer of a request under its key. -/
def Store.Holds (store : Store) (request : Request) (status : ℕ) (response : Response) : Prop :=
  ∀ key, request.key = some key →
    ∃ entry, (store.read request.id)[key]? = some entry ∧ entry.Says request.body status response

/-- A file holds something else under the key of a request. -/
def Store.Bars (store : Store) (request : Request) : Prop :=
  ∃ key entry, request.key = some key ∧ (store.read request.id)[key]? = some entry ∧
    entry.request ≠ request.body

/-- Every file holds all that it did. -/
def Store.Keeps (store store' : Store) : Prop := ∀ id, (store.read id).Keeps (store'.read id)

theorem Store.Keeps.refl : store.Keeps store :=
  fun _ _ entry h => ⟨entry, h, rfl, rfl, rfl⟩

theorem Store.Keeps.holds (h : store.Keeps store') {request : Request} {status : ℕ}
    {response : Response} (hholds : store.Holds request status response) :
    store'.Holds request status response := by
  intro key hkey
  obtain ⟨entry, hentry, hrequest, hstatus, hresponse⟩ := hholds key hkey
  obtain ⟨entry', hentry', hrequest', hstatus', hresponse'⟩ := h request.id key entry hentry
  exact ⟨entry', hentry', hrequest'.trans hrequest, hstatus'.trans hstatus,
    hresponse'.trans hresponse⟩

theorem Store.Keeps.bars (h : store.Keeps store') {request : Request} (hbars : store.Bars request) :
    store'.Bars request := by
  obtain ⟨key, entry, hkey, hentry, hother⟩ := hbars
  obtain ⟨entry', hentry', hrequest', _, _⟩ := h request.id key entry hentry
  exact ⟨key, entry', hkey, hentry', hrequest' ▸ hother⟩

theorem Store.keeps_write (h : (store.read id).Keeps wire) : store.Keeps (store.write id wire) := by
  intro other
  rw [read_write]
  split_ifs with heq
  · rwa [heq]
  · exact Store.Keeps.refl other

theorem Wire.Fresh.insert (h : wire.Fresh start) (hentry : Within start entry.atUnixNanos) :
    Wire.Fresh start (wire.insert key entry) := by
  intro other entry' hentry'
  rw [ExtTreeMap.getElem?_insert] at hentry'
  split_ifs at hentry'
  · obtain rfl := Option.some.inj hentry'
    exact hentry
  · exact h other entry' hentry'

theorem Store.Fresh.write (h : store.Fresh start) (hwire : wire.Fresh start) :
    (store.write id wire).Fresh start := by
  intro other
  rw [read_write]
  split_ifs
  · exact hwire
  · exact h other

end Store

section Step

variable [Canon] {setup : Setup} {w : World} {request : Request} {sys : Sys} {store : Store}
  {start now at_ : Timestamp} {seed : ℕ} {phase : Phase}

/-- The readings that a phase has of the clock. -/
def Phase.Fresh (start : Timestamp) : Phase → Prop
  | .arrived => True
  | .missed at_ => Within start at_
  | .decided at_ _ => Within start at_
  | .filed at_ _ => Within start at_
  | .received at_ _ => Within start at_
  | .composed at_ _ => Within start at_
  | .opened at_ _ wire => Within start at_ ∧ wire.Fresh start
  | .answered _ => True
  | .lost => True

/-- Where the request is about to write its key file, the file is what it read, and that had nothing
under its key. -/
def Phase.Undisturbed (store : Store) (request : Request) : Phase → Prop
  | .opened _ _ wire => ∀ key ∈ request.key, store.read request.id = wire ∧ key ∉ wire
  | _ => True

instance Phase.decUndisturbed (store : Store) (request : Request) :
    (phase : Phase) → Decidable (phase.Undisturbed store request)
  | .arrived => inferInstanceAs (Decidable True)
  | .missed _ => inferInstanceAs (Decidable True)
  | .decided _ _ => inferInstanceAs (Decidable True)
  | .filed _ _ => inferInstanceAs (Decidable True)
  | .received _ _ => inferInstanceAs (Decidable True)
  | .composed _ _ => inferInstanceAs (Decidable True)
  | .opened _ _ wire =>
    inferInstanceAs (Decidable (∀ key ∈ request.key, store.read request.id = wire ∧ key ∉ wire))
  | .answered _ => inferInstanceAs (Decidable True)
  | .lost => inferInstanceAs (Decidable True)

/-- How far a phase is. -/
def Phase.number : Phase → ℕ
  | .arrived => 0
  | .missed _ => 1
  | .decided _ _ => 2
  | .filed _ _ => 3
  | .received _ _ => 4
  | .composed _ _ => 5
  | .opened _ _ _ => 6
  | .answered _ => 7
  | .lost => 8

omit [Canon] in
theorem Phase.number_eq_zero {phase : Phase} : phase.number = 0 ↔ phase = .arrived := by
  constructor
  · intro h
    cases phase with
    | arrived => rfl
    | _ => cases h
  · rintro rfl
    rfl

instance Phase.decArrived (phase : Phase) : Decidable (phase = .arrived) :=
  decidable_of_iff (phase.number = 0) number_eq_zero

/-- The request is between its lookup and its write. -/
def Phase.Underway : Phase → Prop
  | .arrived => False
  | .answered _ => False
  | .lost => False
  | _ => True

instance Phase.decUnderway : (phase : Phase) → Decidable phase.Underway
  | .arrived => inferInstanceAs (Decidable False)
  | .missed _ => inferInstanceAs (Decidable True)
  | .decided _ _ => inferInstanceAs (Decidable True)
  | .filed _ _ => inferInstanceAs (Decidable True)
  | .received _ _ => inferInstanceAs (Decidable True)
  | .composed _ _ => inferInstanceAs (Decidable True)
  | .opened _ _ _ => inferInstanceAs (Decidable True)
  | .answered _ => inferInstanceAs (Decidable False)
  | .lost => inferInstanceAs (Decidable False)

/-- The phase of a request that is turned away, before it is and after. -/
def Phase.TurnedAway (request : Request) (phase : Phase) : Prop :=
  phase = .arrived ∨
    ∃ recorded, phase = .answered (.error (.idempotencyConflict recorded request.body))

theorem advance_store :
    (advance setup w now seed request sys store phase).2.2 = store ∨
      ∃ at_ response wire key, phase = .opened at_ response wire ∧ request.key = some key ∧
        (advance setup w now seed request sys store phase).2.2 =
          store.write request.id (wire.insert key (remembered request at_ response)) := by
  cases phase with
  | arrived =>
    rw [advance]
    split
    next => exact .inl rfl
    next => exact .inl rfl
  | missed at_ => exact .inl rfl
  | decided at_ road => exact .inl rfl
  | filed at_ road =>
    cases road with
    | alreadyCommitted => exact .inl rfl
    | committed => exact .inl rfl
    | undone undoing witness => exact .inl rfl
  | received at_ receipt => exact .inl rfl
  | composed at_ response =>
    rw [advance]
    split
    next => exact .inl rfl
    next => exact .inl rfl
  | opened at_ response wire =>
    rw [advance]
    split
    next key hkey => exact .inr ⟨at_, response, wire, key, rfl, hkey, rfl⟩
    next => exact .inl rfl
  | answered answer => exact .inl rfl
  | lost => exact .inl rfl

theorem advance_keeps (h : phase.Undisturbed store request) :
    store.Keeps (advance setup w now seed request sys store phase).2.2 := by
  obtain heq | ⟨at_, response, wire, key, rfl, hkey, heq⟩ :=
    @advance_store _ setup w request sys store now seed phase
  · rw [heq]
    exact .refl
  · obtain ⟨hread, hnew⟩ := h key hkey
    rw [heq]
    apply Store.keeps_write
    rw [hread]
    exact Wire.keeps_insert hnew

theorem advance_underway (h : (advance setup w now seed request sys store phase).1.Underway) :
    (advance setup w now seed request sys store phase).2.2 = store ∧
      (phase.Underway ∨
        phase = .arrived ∧ ∀ key ∈ request.key, store.get request.id key now = none) ∧
      ∀ at_ response wire, (advance setup w now seed request sys store phase).1 =
        .opened at_ response wire → wire = store.read request.id := by
  cases phase with
  | arrived =>
    rw [advance] at h ⊢
    split at h
    next => exact h.elim
    next hnone =>
      refine ⟨rfl, .inr ⟨rfl, fun key hkey => ?_⟩, fun _ _ _ hopened => by cases hopened⟩
      rwa [show request.key = some key from hkey] at hnone
  | missed at_ =>
    refine ⟨rfl, .inl trivial, fun _ _ _ hopened => ?_⟩
    rw [advance] at hopened
    rcases hsection : engineSection setup request at_ seed w sys with ⟨answer, sys'⟩
    rw [hsection] at hopened
    rcases answer with (_ | _) | _ | _
    · cases hopened
    · cases hopened
    · cases hopened
    · cases hopened
  | decided at_ road => exact ⟨rfl, .inl trivial, fun _ _ _ hopened => by cases hopened⟩
  | filed at_ road =>
    cases road with
    | alreadyCommitted => exact ⟨rfl, .inl trivial, fun _ _ _ hopened => by cases hopened⟩
    | committed => exact ⟨rfl, .inl trivial, fun _ _ _ hopened => by cases hopened⟩
    | undone undoing witness => exact ⟨rfl, .inl trivial, fun _ _ _ hopened => by cases hopened⟩
  | received at_ receipt => exact ⟨rfl, .inl trivial, fun _ _ _ hopened => by cases hopened⟩
  | composed at_ response =>
    rw [advance] at h ⊢
    split at h
    next =>
      refine ⟨rfl, .inl trivial, fun _ _ _ hopened => ?_⟩
      cases hopened
      rfl
    next => exact h.elim
  | opened at_ response wire =>
    rw [advance] at h
    split at h
    next => exact h.elim
    next => exact h.elim
  | answered answer => exact h.elim
  | lost => exact h.elim

theorem advance_store_fresh (hstore : store.Fresh start) (hphase : phase.Fresh start) :
    (advance setup w now seed request sys store phase).2.2.Fresh start := by
  obtain heq | ⟨at_, response, wire, key, rfl, hkey, heq⟩ :=
    @advance_store _ setup w request sys store now seed phase
  · rwa [heq]
  · rw [heq]
    obtain ⟨hat, hwire⟩ := hphase
    exact hstore.write (hwire.insert hat)

theorem advance_phase_fresh (hstore : store.Fresh start) (hnow : Within start now)
    (hphase : phase.Fresh start) :
    (advance setup w now seed request sys store phase).1.Fresh start := by
  cases phase with
  | arrived =>
    rw [advance]
    split
    next => trivial
    next => exact hnow
  | missed at_ =>
    rw [advance]
    rcases engineSection setup request at_ seed w sys with ⟨answer, sys'⟩
    rcases answer with (_ | _) | _ | _
    · trivial
    · trivial
    · trivial
    · exact hphase
  | decided at_ road => exact hphase
  | filed at_ road =>
    cases road with
    | alreadyCommitted => exact hphase
    | committed => exact hphase
    | undone undoing witness => exact hphase
  | received at_ receipt => exact hphase
  | composed at_ response =>
    rw [advance]
    split
    next => exact ⟨hphase, hstore request.id⟩
    next => trivial
  | opened at_ response wire =>
    rw [advance]
    split
    next => trivial
    next => trivial
  | answered answer => trivial
  | lost => trivial

omit [Canon] in
theorem found_eq_some_iff {entry : Entry} :
    (request.key.bind fun key => store.get request.id key now) = some entry ↔
      ∃ key, request.key = some key ∧ store.get request.id key now = some entry :=
  Option.bind_eq_some_iff

theorem advance_holds {status : ℕ} {response : Response}
    (hheld : ∀ status response, phase = .answered (.ok (status, response)) →
      store.Holds request status response)
    (h : (advance setup w now seed request sys store phase).1 = .answered (.ok (status, response))) :
    (advance setup w now seed request sys store phase).2.2.Holds request status response := by
  have hnokey : ∀ {store : Store}, request.key = none → store.Holds request status response := by
    intro store hnone key hkey
    rw [hnone] at hkey
    cases hkey
  cases phase with
  | arrived =>
    rw [advance] at h
    split at h
    next entry hfound =>
      obtain ⟨key, hkey, hget⟩ := found_eq_some_iff.mp hfound
      have hreplay := Phase.answered.inj h
      rw [replayOrConflict] at hreplay
      split_ifs at hreplay with hother
      obtain ⟨hstatus, hresponse⟩ := Prod.mk.inj (Except.ok.inj hreplay)
      have hstore : (advance setup w now seed request sys store .arrived).2.2 = store := by
        rw [advance, hfound]
      rw [hstore]
      intro key' hkey'
      obtain rfl := Option.some.inj (hkey.symm.trans hkey')
      exact ⟨entry, (Store.get_eq_some_iff.mp hget).1, not_not.mp hother, hstatus, hresponse⟩
    next => cases h
  | missed at_ =>
    rw [advance] at h
    rcases hsection : engineSection setup request at_ seed w sys with ⟨answer, sys'⟩
    rw [hsection] at h
    rcases answer with (_ | _) | _ | _
    · cases h
    · cases h
    · cases h
    · cases h
  | decided at_ road => cases h
  | filed at_ road =>
    cases road with
    | alreadyCommitted => cases h
    | committed => cases h
    | undone undoing witness => cases h
  | received at_ receipt => cases h
  | composed at_ response' =>
    rw [advance] at h
    split at h
    next => cases h
    next hnone => exact hnokey hnone
  | opened at_ response' wire =>
    rw [advance] at h
    split at h
    next key hkey =>
      have hstore : (advance setup w now seed request sys store (.opened at_ response' wire)).2.2 =
          store.write request.id (wire.insert key (remembered request at_ response')) := by
        rw [advance, hkey]
      rw [hstore]
      cases h
      intro key' hkey'
      obtain rfl := Option.some.inj (hkey.symm.trans hkey')
      refine ⟨remembered request at_ response, ?_, rfl, rfl, rfl⟩
      rw [Store.read_write, if_pos rfl]
      exact ExtTreeMap.getElem?_insert_self
    next hnone => exact hnokey hnone
  | answered answer =>
    cases h
    exact hheld status response rfl
  | lost => cases h

theorem advance_turnedAway (hstore : store.Fresh start) (hnow : Within start now)
    (hbars : store.Bars request) (h : phase.TurnedAway request) :
    (advance setup w now seed request sys store phase).1.TurnedAway request := by
  rcases h with rfl | ⟨recorded, rfl⟩
  · obtain ⟨key, entry, hkey, hentry, hother⟩ := hbars
    have hfound := found_eq_some_iff.mpr ⟨key, hkey, store.get_of_fresh hstore hnow hentry⟩
    rw [advance, hfound]
    dsimp only
    rw [replayOrConflict, if_pos hother]
    exact .inr ⟨entry.request, rfl⟩
  · exact .inr ⟨recorded, rfl⟩

end Step

section Run

variable [Canon] {setup : Setup} {w : World} {start : Timestamp} {s : Server} {moves : List Move}

/-- A move reads the clock within the time. -/
def Move.Fresh (start : Timestamp) : Move → Prop
  | .arrive _ => True
  | .turn _ now _ => Within start now

/-- A write that this move makes is into the file its request read. -/
def Server.Undisturbed (s : Server) : Move → Prop
  | .arrive _ => True
  | .turn i _ _ => ∀ call ∈ s.calls[i]?, call.phase.Undisturbed s.store call.request

instance Server.decUndisturbed (s : Server) : (move : Move) → Decidable (s.Undisturbed move)
  | .arrive _ => inferInstanceAs (Decidable True)
  | .turn i _ _ =>
    inferInstanceAs (Decidable (∀ call ∈ s.calls[i]?, call.phase.Undisturbed s.store call.request))

instance Move.decFresh (start : Timestamp) : (move : Move) → Decidable (move.Fresh start)
  | .arrive _ => inferInstanceAs (Decidable True)
  | .turn _ now _ => inferInstanceAs (Decidable (start ≤ now ∧ now ≤ start + ttlNanos))

/-- Every write of a run is into the file its request read. -/
def Undisturbed (setup : Setup) (w : World) : Server → List Move → Prop
  | _, [] => True
  | s, move :: rest => s.Undisturbed move ∧ Undisturbed setup w (s.move setup w move) rest

instance decUndisturbed : (s : Server) → (moves : List Move) → Decidable (Undisturbed setup w s moves)
  | _, [] => inferInstanceAs (Decidable True)
  | s, move :: rest =>
    have := decUndisturbed (s.move setup w move) rest
    inferInstanceAs (Decidable (_ ∧ _))

/-- Another request with a key for the transformation of a call is between its lookup and its
write. -/
def Server.Crowds (s : Server) (i : ℕ) (call : Call) : Prop :=
  ∃ j other, j ≠ i ∧ s.calls[j]? = some other ∧ other.request.id = call.request.id ∧
    other.request.key.isSome ∧ other.phase.Underway

omit [Canon] in
theorem Server.crowds_iff {i : ℕ} {call : Call} : s.Crowds i call ↔
    ∃ other ∈ s.calls.zipIdx, other.2 ≠ i ∧ other.1.request.id = call.request.id ∧
      other.1.request.key.isSome ∧ other.1.phase.Underway := by
  constructor
  · rintro ⟨j, other, hne, hother, hcrowds⟩
    exact ⟨(other, j), List.mk_mem_zipIdx_iff_getElem?.mpr hother, hne, hcrowds⟩
  · rintro ⟨⟨other, j⟩, hmem, hne, hcrowds⟩
    exact ⟨j, other, hne, List.mk_mem_zipIdx_iff_getElem?.mp hmem, hcrowds⟩

instance Server.decCrowds (s : Server) (i : ℕ) (call : Call) : Decidable (s.Crowds i call) :=
  decidable_of_iff _ crowds_iff.symm

/-- A request with a key begins its lookup when no other for its transformation is underway. -/
def Server.Apart (s : Server) : Move → Prop
  | .arrive _ => True
  | .turn i _ _ => ∀ call ∈ s.calls[i]?, call.phase = .arrived → call.request.key.isSome →
      ¬ s.Crowds i call

instance Server.decApart (s : Server) : (move : Move) → Decidable (s.Apart move)
  | .arrive _ => inferInstanceAs (Decidable True)
  | .turn i _ _ =>
    inferInstanceAs (Decidable (∀ call ∈ s.calls[i]?, call.phase = .arrived →
      call.request.key.isSome → ¬ s.Crowds i call))

/-- No two requests with keys for one transformation overlap between lookup and write. -/
def Apart (setup : Setup) (w : World) : Server → List Move → Prop
  | _, [] => True
  | s, move :: rest => s.Apart move ∧ Apart setup w (s.move setup w move) rest

instance decApart : (s : Server) → (moves : List Move) → Decidable (Apart setup w s moves)
  | _, [] => inferInstanceAs (Decidable True)
  | s, move :: rest =>
    have := decApart (s.move setup w move) rest
    inferInstanceAs (Decidable (_ ∧ _))

/-- What every key file and every request of a server has read of the clock, and what the files hold
of the answers. -/
structure Sound (start : Timestamp) (s : Server) : Prop where
  store_fresh : s.store.Fresh start
  phase_fresh : ∀ call ∈ s.calls, call.phase.Fresh start
  holds : ∀ call ∈ s.calls, ∀ status response, call.phase = .answered (.ok (status, response)) →
    s.store.Holds call.request status response

theorem Server.run_cons {move : Move} :
    s.run setup w (move :: moves) = (s.move setup w move).run setup w moves := rfl

theorem Server.move_none {i : ℕ} {now : Timestamp} {seed : ℕ} (h : s.calls[i]? = none) :
    s.move setup w (.turn i now seed) = s := by
  rw [move, h]

theorem Server.move_some {i : ℕ} {now : Timestamp} {seed : ℕ} {call : Call}
    (h : s.calls[i]? = some call) :
    s.move setup w (.turn i now seed) =
      { sys := (advance setup w now seed call.request s.sys s.store call.phase).2.1
        store := (advance setup w now seed call.request s.sys s.store call.phase).2.2
        calls := s.calls.set i
          { call with
            phase := (advance setup w now seed call.request s.sys s.store call.phase).1 } } := by
  rw [move, h]

theorem Server.move_keeps {move : Move} (h : s.Undisturbed move) :
    s.store.Keeps (s.move setup w move).store := by
  cases move with
  | arrive request => exact .refl
  | turn i now seed =>
    cases hcall : s.calls[i]? with
    | none =>
      rw [move_none hcall]
      exact .refl
    | some call =>
      rw [move_some hcall]
      exact advance_keeps (h call hcall)

theorem Sound.move {move : Move} (h : Sound start s) (hmove : move.Fresh start)
    (hwrite : s.Undisturbed move) : Sound start (s.move setup w move) := by
  have hkeeps := @Server.move_keeps _ setup w s move hwrite
  cases move with
  | arrive request =>
    constructor
    · exact h.store_fresh
    · intro call hcall
      rcases List.mem_append.mp hcall with hold | hnew
      · exact h.phase_fresh call hold
      · obtain rfl := List.mem_singleton.mp hnew
        trivial
    · intro call hcall status response hanswer
      rcases List.mem_append.mp hcall with hold | hnew
      · exact h.holds call hold status response hanswer
      · obtain rfl := List.mem_singleton.mp hnew
        cases hanswer
  | turn i now seed =>
    cases hcall : s.calls[i]? with
    | none => rwa [Server.move_none hcall]
    | some call =>
      have hmem := List.mem_of_getElem? hcall
      rw [Server.move_some hcall] at hkeeps ⊢
      constructor
      · exact advance_store_fresh h.store_fresh (h.phase_fresh call hmem)
      · intro other hother
        rcases List.mem_or_eq_of_mem_set hother with hold | rfl
        · exact h.phase_fresh other hold
        · exact advance_phase_fresh h.store_fresh hmove (h.phase_fresh call hmem)
      · intro other hother status response hanswer
        rcases List.mem_or_eq_of_mem_set hother with hold | rfl
        · exact hkeeps.holds (h.holds other hold status response hanswer)
        · exact advance_holds (h.holds call hmem) hanswer

theorem Sound.run (h : Sound start s) (hmoves : ∀ move ∈ moves, move.Fresh start)
    (hwhole : Undisturbed setup w s moves) : Sound start (s.run setup w moves) := by
  induction moves generalizing s with
  | nil => exact h
  | cons move rest ih =>
    obtain ⟨hmove, hrest⟩ := List.forall_mem_cons.mp hmoves
    obtain ⟨hwrite, hwhole⟩ := hwhole
    rw [Server.run_cons]
    exact ih (h.move hmove hwrite) hrest hwhole

/-- A request that is to be turned away. -/
def ToldApart (s : Server) (i : ℕ) (request : Request) : Prop :=
  (∃ call, s.calls[i]? = some call ∧ call.request = request ∧ call.phase.TurnedAway request) ∧
    s.store.Bars request

theorem ToldApart.move {move : Move} {i : ℕ} {request : Request} (h : ToldApart s i request)
    (hsound : Sound start s) (hmove : move.Fresh start) (hwrite : s.Undisturbed move) :
    ToldApart (s.move setup w move) i request := by
  have hkeeps := @Server.move_keeps _ setup w s move hwrite
  obtain ⟨⟨call, hcall, rfl, hphase⟩, hbars⟩ := h
  refine ⟨?_, hkeeps.bars hbars⟩
  cases move with
  | arrive other =>
    refine ⟨call, ?_, rfl, hphase⟩
    exact (List.getElem?_append_left (List.getElem?_eq_some_iff.mp hcall).1).trans hcall
  | turn j now seed =>
    cases hother : s.calls[j]? with
    | none =>
      rw [Server.move_none hother]
      exact ⟨call, hcall, rfl, hphase⟩
    | some other =>
      rw [Server.move_some hother]
      by_cases heq : j = i
      · subst heq
        obtain rfl := Option.some.inj (hcall.symm.trans hother)
        refine ⟨_, List.getElem?_set_self (List.getElem?_eq_some_iff.mp hcall).1, rfl, ?_⟩
        exact advance_turnedAway hsound.store_fresh hmove hbars hphase
      · exact ⟨call, (List.getElem?_set_ne heq).trans hcall, rfl, hphase⟩

theorem ToldApart.run {i : ℕ} {request : Request} (h : ToldApart s i request)
    (hsound : Sound start s) (hmoves : ∀ move ∈ moves, move.Fresh start)
    (hwhole : Undisturbed setup w s moves) : ToldApart (s.run setup w moves) i request := by
  induction moves generalizing s with
  | nil => exact h
  | cons move rest ih =>
    obtain ⟨hmove, hrest⟩ := List.forall_mem_cons.mp hmoves
    obtain ⟨hwrite, hwhole⟩ := hwhole
    rw [Server.run_cons]
    exact ih (h.move hsound hmove hwrite) (hsound.move hmove hwrite) hrest hwhole

theorem Server.run_append {before after : List Move} :
    s.run setup w (before ++ after) = (s.run setup w before).run setup w after :=
  List.foldl_append

theorem undisturbed_append {before after : List Move} :
    Undisturbed setup w s (before ++ after) ↔
      Undisturbed setup w s before ∧ Undisturbed setup w (s.run setup w before) after := by
  induction before generalizing s with
  | nil => exact (and_iff_right trivial).symm
  | cons move rest ih =>
    rw [List.cons_append, Undisturbed, Undisturbed, ih, and_assoc, Server.run_cons]

/-- A request is answered with 200 and a body. -/
def Call.Answers (call : Call) (response : Response) : Prop :=
  call.phase = .answered (.ok (200, response))

/-- Two requests that ask the same under one key have one answer. -/
def AnswersAgree (s : Server) : Prop :=
  ∀ first ∈ s.calls, ∀ second ∈ s.calls, ∀ response response' : Response,
    first.request = second.request → first.request.key.isSome →
      first.Answers response → second.Answers response' → response = response'

/-- The file has every key that was answered. -/
def KeysKept (s : Server) : Prop :=
  ∀ call ∈ s.calls, ∀ response key, call.Answers response → call.request.key = some key →
    key ∈ s.store.read call.request.id

/-- From whatever moment a request has been answered under a key, one under it that asks something
else, and has not looked it up, is turned away, whatever is done next. -/
def OthersTurnedAway (setup : Setup) (w : World) (s : Server) (moves : List Move) : Prop :=
  ∀ before after, moves = before ++ after → ∀ first ∈ (s.run setup w before).calls, ∀ response,
    first.Answers response → first.request.key.isSome → ∀ (i : ℕ) (late : Call),
      (s.run setup w before).calls[i]? = some late → late.phase = .arrived →
        late.request.id = first.request.id → late.request.key = first.request.key →
          late.request.body ≠ first.request.body →
            ∃ call : Call, (s.run setup w moves).calls[i]? = some call ∧ call.request = late.request ∧
              call.phase.TurnedAway call.request

omit [Canon] in
theorem Sound.answersAgree (h : Sound start s) : AnswersAgree s := by
  intro first hfirst second hsecond response response' hsame hkey hanswer hanswer'
  obtain ⟨key, hkey⟩ := Option.isSome_iff_exists.mp hkey
  obtain ⟨entry, hentry, _, _, rfl⟩ := h.holds first hfirst 200 response hanswer key hkey
  obtain ⟨entry', hentry', _, _, rfl⟩ :=
    h.holds second hsecond 200 response' hanswer' key (hsame ▸ hkey)
  rw [hsame] at hentry
  rw [Option.some.inj (hentry.symm.trans hentry')]

omit [Canon] in
theorem Sound.keysKept (h : Sound start s) : KeysKept s := by
  intro call hcall response key hanswer hkey
  obtain ⟨entry, hentry, _⟩ := h.holds call hcall 200 response hanswer key hkey
  apply ExtTreeMap.mem_iff_isSome_getElem?.mpr
  rw [hentry]
  rfl

theorem Sound.othersTurnedAway (h : Sound start s) (hmoves : ∀ move ∈ moves, move.Fresh start)
    (hwhole : Undisturbed setup w s moves) : OthersTurnedAway setup w s moves := by
  rintro before after rfl first hfirst response hanswer hkey i late hlate harrived hid hsame hother
  obtain ⟨hbefore, hafter⟩ := List.forall_mem_append.mp hmoves
  obtain ⟨hwhole, hwhole'⟩ := undisturbed_append.mp hwhole
  have hsound := h.run hbefore hwhole
  obtain ⟨key, hkey⟩ := Option.isSome_iff_exists.mp hkey
  obtain ⟨entry, hentry, hrequest, _⟩ := hsound.holds first hfirst 200 response hanswer key hkey
  have hbars : (s.run setup w before).store.Bars late.request := by
    refine ⟨key, entry, hsame.trans hkey, ?_, ?_⟩
    · rwa [hid]
    · rw [hrequest]
      exact hother.symm
  have htold : ToldApart (s.run setup w before) i late.request :=
    ⟨⟨late, hlate, rfl, .inl harrived⟩, hbars⟩
  rw [Server.run_append]
  obtain ⟨⟨call, hcall, hcalled, hphase⟩, _⟩ := htold.run hsound hafter hwhole'
  exact ⟨call, hcall, hcalled, hcalled ▸ hphase⟩

theorem OthersTurnedAway.after {before : List Move}
    (h : OthersTurnedAway setup w s (before ++ moves)) :
    OthersTurnedAway setup w (s.run setup w before) moves := by
  rintro between after rfl first hfirst
  have hmore := h (before ++ between) after (List.append_assoc ..).symm first
  rw [Server.run_append, Server.run_append] at hmore
  exact hmore hfirst

section Schedule

/-- A request with a key that is underway is alone with its file: the file has nothing under the key,
and is what the request read once it has read it. -/
def Exclusive (s : Server) : Prop :=
  ∀ i call key, s.calls[i]? = some call → call.request.key = some key → call.phase.Underway →
    ¬ s.Crowds i call ∧ key ∉ s.store.read call.request.id ∧
      ∀ at_ response wire, call.phase = .opened at_ response wire →
        s.store.read call.request.id = wire

omit [Canon] in
theorem Exclusive.undisturbed (h : Exclusive s) (move : Move) : s.Undisturbed move := by
  cases move with
  | arrive request => trivial
  | turn i now seed =>
    intro call hcall
    cases hphase : call.phase with
    | opened at_ response wire =>
      intro key hkey
      obtain ⟨_, hnew, hread⟩ := h i call key hcall hkey (by rw [hphase]; trivial)
      have hfile := hread at_ response wire hphase
      exact ⟨hfile, hfile ▸ hnew⟩
    | _ => trivial

theorem Exclusive.arrive (h : Exclusive s) (request : Request) :
    Exclusive (s.move setup w (.arrive request)) := by
  have hold : ∀ {i : ℕ} {call : Call}, (s.calls ++ [⟨request, .arrived⟩])[i]? = some call →
      call.phase.Underway → s.calls[i]? = some call := by
    intro i call hcall hunder
    rw [List.getElem?_append] at hcall
    split at hcall
    next => exact hcall
    next =>
      obtain rfl := List.mem_singleton.mp (List.mem_of_getElem? hcall)
      exact hunder.elim
  intro i call key hcall hkey hunder
  obtain ⟨halone, hfile⟩ := h i call key (hold hcall hunder) hkey hunder
  refine ⟨?_, hfile⟩
  rintro ⟨j, other, hne, hother, hid, hkeyed, hunder'⟩
  exact halone ⟨j, other, hne, hold hother hunder', hid, hkeyed, hunder'⟩

theorem Exclusive.turn {i : ℕ} {now : Timestamp} {seed : ℕ} {mover : Call} (h : Exclusive s)
    (hmover : s.calls[i]? = some mover) (hfresh : s.store.Fresh start) (hnow : Within start now)
    (hapart : s.Apart (.turn i now seed)) : Exclusive (s.move setup w (.turn i now seed)) := by
  rw [Server.move_some hmover]
  have hlength := (List.getElem?_eq_some_iff.mp hmover).1
  have halone : ∀ key, mover.request.key = some key →
      (advance setup w now seed mover.request s.sys s.store mover.phase).1.Underway →
      ¬ s.Crowds i mover ∧ key ∉ s.store.read mover.request.id := by
    intro key hkey hunder
    obtain ⟨_, hbefore | ⟨harrived, hmissed⟩, _⟩ := advance_underway hunder
    · obtain ⟨halone, hnew, _⟩ := h i mover key hmover hkey hbefore
      exact ⟨halone, hnew⟩
    · refine ⟨hapart mover hmover harrived (by rw [hkey]; rfl), fun hmem => ?_⟩
      obtain ⟨entry, hentry⟩ := Option.isSome_iff_exists.mp
        (ExtTreeMap.mem_iff_isSome_getElem?.mp hmem)
      have hfound := s.store.get_of_fresh hfresh hnow hentry
      rw [hmissed key hkey] at hfound
      cases hfound
  intro j call key hcall hkey hunder
  by_cases hij : i = j
  · subst hij
    rw [List.getElem?_set_self hlength] at hcall
    obtain rfl := Option.some.inj hcall
    obtain ⟨hcrowds, hnew⟩ := halone key hkey hunder
    obtain ⟨hstore, _, hread⟩ := advance_underway hunder
    rw [hstore]
    refine ⟨?_, hnew, fun at_ response wire hopened => (hread at_ response wire hopened).symm⟩
    rintro ⟨k, other, hne, hother, hrest⟩
    rw [List.getElem?_set_ne hne.symm] at hother
    exact hcrowds ⟨k, other, hne, hother, hrest⟩
  · rw [List.getElem?_set_ne hij] at hcall
    obtain ⟨hcrowds, hnew, hread⟩ := h j call key hcall hkey hunder
    have hsame : (advance setup w now seed mover.request s.sys s.store mover.phase).2.2.read
        call.request.id = s.store.read call.request.id := by
      obtain heq | ⟨at_, response, wire, key', hopened, hkey', heq⟩ :=
        @advance_store _ setup w mover.request s.sys s.store now seed mover.phase
      · rw [heq]
      · rw [heq, Store.read_write, if_neg]
        intro hid
        refine hcrowds ⟨i, mover, hij, hmover, hid.symm, by rw [hkey']; rfl, ?_⟩
        rw [hopened]
        trivial
    rw [hsame]
    refine ⟨?_, hnew, hread⟩
    rintro ⟨k, other, hne, hother, hid, hkeyed, hunder'⟩
    by_cases hik : i = k
    · subst hik
      rw [List.getElem?_set_self hlength] at hother
      obtain rfl := Option.some.inj hother
      obtain ⟨key', hkey'⟩ := Option.isSome_iff_exists.mp hkeyed
      exact (halone key' hkey' hunder').1
        ⟨j, call, hne.symm, hcall, hid.symm, by rw [hkey]; rfl, hunder⟩
    · rw [List.getElem?_set_ne hik] at hother
      exact hcrowds ⟨k, other, hne, hother, hid, hkeyed, hunder'⟩

theorem Exclusive.move {move : Move} (h : Exclusive s) (hsound : Sound start s)
    (hmove : move.Fresh start) (hapart : s.Apart move) : Exclusive (s.move setup w move) := by
  cases move with
  | arrive request => exact h.arrive request
  | turn i now seed =>
    cases hcall : s.calls[i]? with
    | none => rwa [Server.move_none hcall]
    | some call => exact h.turn hcall hsound.store_fresh hmove hapart

/-- Requests that do not overlap between lookup and write each write the file they read. -/
theorem Apart.undisturbed (hapart : Apart setup w s moves) (h : Exclusive s)
    (hsound : Sound start s) (hmoves : ∀ move ∈ moves, move.Fresh start) :
    Undisturbed setup w s moves := by
  induction moves generalizing s with
  | nil => trivial
  | cons move rest ih =>
    obtain ⟨hmove, hrest⟩ := List.forall_mem_cons.mp hmoves
    obtain ⟨hfirst, hapart⟩ := hapart
    have hwrite := h.undisturbed move
    exact ⟨hwrite, ih hapart (h.move hsound hmove hfirst) (hsound.move hmove hwrite) hrest⟩

end Schedule

omit [Canon] in
theorem Sound.of_new (hcalls : s.calls = []) (hstore : s.store.Fresh start) : Sound start s := by
  have hnone : ∀ call, call ∉ s.calls := by
    intro call hcall
    rw [hcalls] at hcall
    exact absurd hcall List.not_mem_nil
  exact ⟨hstore, fun call hcall => absurd hcall (hnone call),
    fun call hcall => absurd hcall (hnone call)⟩

/-- In a run that reads the clock within one time to live, requests with keys that do not overlap
between lookup and write each write the file they read; and where each does, keys survive: what is
asked again is answered again, what is asked otherwise is turned away before it comes to the engine,
and no key is lost. -/
theorem keys_survive (setup : Setup) (w : World) (start : Timestamp) (s : Server) (moves : List Move)
    (hcalls : s.calls = []) (hstore : s.store.Fresh start)
    (hmoves : ∀ move ∈ moves, move.Fresh start) :
    (Apart setup w s moves → Undisturbed setup w s moves) ∧
      (Undisturbed setup w s moves →
        AnswersAgree (s.run setup w moves) ∧ OthersTurnedAway setup w s moves ∧
          KeysKept (s.run setup w moves)) := by
  have hsound := Sound.of_new hcalls hstore
  constructor
  · intro hapart
    refine hapart.undisturbed (fun i call key hcall => ?_) hsound hmoves
    rw [hcalls] at hcall
    cases hcall
  · intro hwhole
    have hrun := hsound.run hmoves hwhole
    exact ⟨hrun.answersAgree, hsound.othersTurnedAway hmoves hwhole, hrun.keysKept⟩

end Run

section Ideal

open Tracefold.Ideal

/-- A transformation that the gate has admitted, in the one process of a project. -/
def admitted : Project :=
  Project.empty.run (objectFrom 1 fun _ env => env)
    [.start 0 config, .call 0 (.submit intent 0 0), .call 0 (.plan intent 0),
      .call 0 (.verify (idAt 1) 1 "k" none)]

def setup : Setup where
  drafts _ := some intent
  signer := "k"
  keepsReceipts := true
  verifies _ := true

/-- A server over it that no request has come to. -/
def server : Server where
  sys := ⟨admitted.history, admitted.disk,
    (admitted.process 0).getD (Engine.openThrough config .empty)⟩
  store _ := none
  calls := []

/-- A request to commit it, under a key. -/
def commitUnder (key : String) (recordOnly : Option Bool) : Request :=
  ⟨.commit recordOnly, idAt 1, some key⟩

/-- Some steps of a request, the first of which reads the clock. -/
def turns (i n : ℕ) (now : Timestamp) : List Move := List.replicate n (.turn i now 0)

/-- Two commits, one behind the other, and the first again. -/
def inTurn : List Move :=
  [.arrive (commitUnder "a" none), .arrive (commitUnder "b" none)] ++ turns 0 7 10 ++ turns 1 7 11 ++
    [.arrive (commitUnder "a" none)] ++ turns 2 1 20

/-- Two commits that look up their keys before either is written, one of which is written before the
other reads the file; and the first again. -/
def retried : List Move :=
  [.arrive (commitUnder "a" none), .arrive (commitUnder "b" none)] ++ turns 0 1 10 ++ turns 1 1 11 ++
    turns 0 6 10 ++ turns 1 6 11 ++ [.arrive (commitUnder "a" none)] ++ turns 2 1 20

/-- Two requests under one key and one under another, all of which look up their keys before any of
them writes; and when they have ended, one that asks something else under the first key. -/
def overlapping : List Move :=
  [.arrive (commitUnder "a" none), .arrive (commitUnder "b" none), .arrive (commitUnder "a" none)] ++
    turns 0 1 10 ++ turns 1 1 20 ++ turns 2 1 30 ++ turns 0 4 10 ++ turns 1 5 20 ++ turns 2 6 30 ++
    turns 0 2 10 ++ turns 1 1 20

def answerOf (s : Server) (i : ℕ) : Option (ℕ × Response) :=
  match s.calls[i]? with
  | some ⟨_, .answered (.ok answer)⟩ => some answer
  | _ => none

theorem answerOf_eq_some {s : Server} {i : ℕ} {answer : ℕ × Response}
    (h : answerOf s i = some answer) :
    ∃ call, s.calls[i]? = some call ∧ call.phase = .answered (.ok answer) := by
  rw [answerOf] at h
  split at h
  next request answer' hcall =>
    obtain rfl := Option.some.inj h
    exact ⟨_, hcall, rfl⟩
  next => cases h

theorem Phase.TurnedAway.number {request : Request} {phase : Phase} (h : phase.TurnedAway request) :
    phase.number = 0 ∨ phase.number = 7 := by
  rcases h with rfl | ⟨recorded, rfl⟩
  · exact .inl rfl
  · exact .inr rfl

/-- An object that answers every question. -/
def object : World := objectFrom 1 fun _ env => env

/-- The server after the overlapping requests, and with one that asks something else. -/
def overlapped : Server := server.run setup object overlapping

def asked : Server := overlapped.run setup object [.arrive (commitUnder "a" (some true))]

theorem keys_survive_retry :
    Apart setup object server inTurn ∧ Undisturbed setup object server retried ∧
      ∀ moves ∈ [inTurn, retried], (answerOf (server.run setup object moves) 2).map Prod.fst = some 200 ∧
        AnswersAgree (server.run setup object moves) ∧ OthersTurnedAway setup object server moves ∧
          KeysKept (server.run setup object moves) := by
  have hapart : Apart setup object server inTurn := by decide +kernel
  have hwhole : Undisturbed setup object server retried := by decide +kernel
  have hanswered : ∀ moves ∈ [inTurn, retried],
      (answerOf (server.run setup object moves) 2).map Prod.fst = some 200 := by decide +kernel
  have hfresh : ∀ moves ∈ [inTurn, retried], ∀ move ∈ moves, move.Fresh 0 := by decide
  have hstore : server.store.Fresh 0 := by
    intro id key entry hentry
    cases ExtTreeMap.getElem?_empty.symm.trans hentry
  refine ⟨hapart, hwhole, fun moves hmoves => ⟨hanswered moves hmoves, ?_⟩⟩
  obtain ⟨hschedule, hsurvive⟩ :=
    keys_survive setup object 0 server moves rfl hstore (hfresh moves hmoves)
  rcases List.mem_pair.mp hmoves with rfl | rfl
  · exact hsurvive (hschedule hapart)
  · exact hsurvive hwhole

theorem calls_of_answers {s : Server} {i : ℕ} {request : Request} {response : Response}
    (hrequest : s.calls[i]?.map (·.request) = some request)
    (h : answerOf s i = some (200, response)) :
    ∃ call ∈ s.calls, call.request = request ∧ call.Answers response := by
  obtain ⟨call, hcall, hanswer⟩ := answerOf_eq_some h
  rw [hcall] at hrequest
  exact ⟨call, List.mem_of_getElem? hcall, Option.some.inj hrequest, hanswer⟩

/-- What the requests that overlap are answered, and what the file then holds. -/
theorem overlapped_seen :
    (∀ i < 3, (answerOf overlapped i).map Prod.fst = some 200) ∧
      answerOf overlapped 0 ≠ answerOf overlapped 2 ∧
      overlapped.calls.map (·.request) =
        [commitUnder "a" none, commitUnder "b" none, commitUnder "a" none] ∧
      "a" ∉ overlapped.store.read (idAt 1) := by
  decide +kernel

theorem answered_ok {i : ℕ} (hi : i < 3) :
    ∃ response, answerOf overlapped i = some (200, response) := by
  obtain ⟨⟨status, response⟩, hanswer, rfl⟩ :=
    Option.map_eq_some_iff.mp (overlapped_seen.1 i hi)
  exact ⟨response, hanswer⟩

theorem asked_of_overlapped {i : ℕ} {request : Request}
    (h : [commitUnder "a" none, commitUnder "b" none, commitUnder "a" none][i]? = some request) :
    overlapped.calls[i]?.map (·.request) = some request := by
  rw [← List.getElem?_map, overlapped_seen.2.2.1, h]

theorem answers_differ : ¬ AnswersAgree overlapped := by
  obtain ⟨response, hfirst⟩ := answered_ok (i := 0) (by decide)
  obtain ⟨response', hsecond⟩ := answered_ok (i := 2) (by decide)
  have hne : response ≠ response' := by
    rintro rfl
    exact overlapped_seen.2.1 (hfirst.trans hsecond.symm)
  obtain ⟨first, hin, hrequest, hanswer⟩ := calls_of_answers (asked_of_overlapped rfl) hfirst
  obtain ⟨second, hin', hrequest', hanswer'⟩ := calls_of_answers (asked_of_overlapped rfl) hsecond
  intro h
  refine hne (h first hin second hin' response response' (hrequest.trans hrequest'.symm) ?_ hanswer
    hanswer')
  rw [hrequest]
  rfl

theorem key_is_lost : ¬ KeysKept overlapped := by
  obtain ⟨response, hfirst⟩ := answered_ok (i := 0) (by decide)
  obtain ⟨first, hin, hrequest, hanswer⟩ := calls_of_answers (asked_of_overlapped rfl) hfirst
  intro h
  have hkey := h first hin response "a" hanswer (by rw [hrequest]; rfl)
  rw [hrequest] at hkey
  exact overlapped_seen.2.2.2 hkey

theorem other_is_let_in :
    ¬ OthersTurnedAway setup object overlapped
      [.arrive (commitUnder "a" (some true)), .turn 3 40 0] := by
  intro h
  obtain ⟨response, hfirst⟩ := answered_ok (i := 0) (by decide)
  obtain ⟨first, hin, hrequest, hanswer⟩ := calls_of_answers (asked_of_overlapped rfl) hfirst
  have hthree : overlapped.calls.length = 3 := by
    rw [← List.length_map (·.request), overlapped_seen.2.2.1]
    rfl
  have hlate : asked.calls[3]? = some ⟨commitUnder "a" (some true), .arrived⟩ := by
    rw [← hthree]
    exact List.getElem?_concat_length
  obtain ⟨call, hcall, _, hphase⟩ := h [.arrive (commitUnder "a" (some true))] [.turn 3 40 0] rfl first
    (List.mem_append_left _ hin) response hanswer (by rw [hrequest]; rfl) 3 _ hlate rfl
    (by rw [hrequest]; rfl) (by rw [hrequest]; rfl) (by rw [hrequest]; decide)
  have hmissed : ((overlapped.run setup object
      [.arrive (commitUnder "a" (some true)), .turn 3 40 0]).calls[3]?.map (·.phase.number)) =
        some 1 := by
    decide +kernel
  rw [hcall, Option.map_some] at hmissed
  rcases hphase.number with hzero | hseven
  · rw [hzero] at hmissed
    cases hmissed
  · rw [hseven] at hmissed
    cases hmissed

/-- Three requests that overlap have ended, all with 200: the two under one key with two answers, and
the file without that key, so that a request that asks something else under it comes to the engine. -/
theorem keys_do_not_survive :
    (∀ move ∈ overlapping ++ [.arrive (commitUnder "a" (some true)), .turn 3 40 0], move.Fresh 0) ∧
      (List.range 3).map (fun i => (answerOf overlapped i).map Prod.fst) =
        [some 200, some 200, some 200] ∧
      ¬ AnswersAgree overlapped ∧ ¬ KeysKept overlapped ∧
      ¬ OthersTurnedAway setup object server
        (overlapping ++ [.arrive (commitUnder "a" (some true)), .turn 3 40 0]) := by
  refine ⟨by decide, ?_, answers_differ, key_is_lost, ?_⟩
  · exact List.map_congr_left fun i hi => overlapped_seen.1 i (List.mem_range.mp hi)
  · exact fun h => other_is_let_in h.after

end Ideal

end Tracefold.Api.Idempotency
