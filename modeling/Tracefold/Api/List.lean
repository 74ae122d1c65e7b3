import Mathlib.Tactic.Common
import Tracefold.Api.Serving
import Tracefold.Library.Pages

/-! The lists of a server: transformations in the order the journal first mentions them, a page at a
time, and a client who follows the cursors of one to its end. -/

namespace Tracefold.Api

open GxGate (Digests ApprovalRequirement Reason)
open Library

def defaultLimit : ℕ := 50

def maxLimit : ℕ := 200

/-- The query of a list. -/
structure Page where
  limit : Option ℕ
  cursor : Option String
  deriving DecidableEq, Repr

/-- `Page::limit`. -/
def Page.limitOf (page : Page) : Except ApiError ℕ :=
  match page.limit with
  | none => .ok defaultLimit
  | some n =>
    if 1 ≤ n ∧ n ≤ maxLimit then .ok n
    else .error (.validation ("`limit=" ++ toString n ++ "` is outside 44 §2.7's range (1..=" ++
      toString maxLimit ++ ", default " ++ toString defaultLimit ++
      "). A clamped limit would be a page that looks complete and is not"))

/-- `Page::after`. -/
def Page.after (page : Page) : Except ApiError (Option Cursor) :=
  match page.cursor with
  | none => .ok none
  | some text => (Cursor.parse text).map some

/-- The envelope of a page of rows. -/
structure Answer (ρ : Type) where
  items : List ρ
  nextCursor : Option String
  deriving DecidableEq, Repr

/-- One record of the journal: a transformation that it is the first to mention gets a place. -/
def journalOrderStep (seen : List (Cursor × TransformationId)) :
    Record × ℕ → List (Cursor × TransformationId)
  | (record, index) =>
    match record.transformation with
    | none => seen
    | some id => if seen.any (·.2 = id) then seen else seen ++ [(⟨index, 0⟩, id)]

/-- `journal_order`. -/
def journalOrder (records : List Record) : List (Cursor × TransformationId) :=
  records.zipIdx.foldl journalOrderStep []

/-- The loop of `page_of` over the rows. -/
def pageLoop {ρ : Type} (after : Option Cursor) (limit : ℕ) :
    List (Cursor × ρ) → List ρ → Option Cursor → List ρ × Option Cursor
  | [], items, next => (items, next)
  | (cursor, row) :: rest, items, next =>
    if after.any (cursor ≤ ·) then pageLoop after limit rest items next
    else if items.length = limit then (items, next)
    else pageLoop after limit rest (items ++ [row]) (some cursor)

/-- `page_of`. -/
def pageOf {ρ : Type} (rows : List (Cursor × ρ)) (after : Option Cursor) (limit : ℕ) : Answer ρ :=
  let (items, next) := pageLoop after limit rows [] none
  ⟨items, (next.filter fun _ => items.length = limit).map Cursor.toText⟩

/-- The object `row_json` makes of a transformation. -/
structure Row where
  transformation : TransformationId
  state : Option Lifecycle
  verdict : Option VerdictKind
  enforced : Option Bool
  createdAt : Option Timestamp
  actor : Option Actor
  scope : Option String
  deriving DecidableEq, Repr

/-- `row_json`. -/
def rowJson (s : Serving) (id : TransformationId) : Row where
  transformation := id
  state := s.engine.state id
  verdict := s.engine.verdict id
  enforced := s.engine.enforced id
  createdAt := (s.transformation id).map (·.createdAt)
  actor := (s.transformation id).map (·.actor)
  scope := (s.preconditionFingerprint id).map (·.scope)

/-- A state a transformation does not leave, or none. -/
def settled : Option Lifecycle → Bool
  | some .committed => true
  | some (.aborted _) => true
  | some .superseded => true
  | none => true
  | _ => false

/-- `GET /candidates`. -/
def candidates (page : Page) (s : Serving) : Except ApiError (Answer Row) := do
  let limit ← page.limitOf
  let after ← page.after
  let rows := ((journalOrder s.records).filter fun (_, id) => !settled (s.engine.state id)).map
    fun (cursor, id) => (cursor, rowJson s id)
  return pageOf rows after limit

structure EscalationRow where
  transformation : TransformationId
  ticketId : Cid
  state : Option Lifecycle
  reasons : List Reason
  requiredApproval : ApprovalRequirement
  createdAt : Timestamp
  deadline : Option Timestamp
  deriving DecidableEq, Repr

/-- The loop of `escalations` over the transformations. -/
def escalationRows [Digests] [ErrorTexts] (s : Serving) :
    List (Cursor × TransformationId) → Except ApiError (List (Cursor × EscalationRow))
  | [] => .ok []
  | (cursor, id) :: rest =>
    if s.engine.state id ≠ some .escalated then escalationRows s rest
    else
      match s.ticketAsRaised id with
      | .ok (some ticket) => do
        let rows ← escalationRows s rest
        return (cursor, {
          transformation := id
          ticketId := ticket.id
          state := s.engine.state id
          reasons := ticket.reasons
          requiredApproval := ticket.requiredApproval
          createdAt := ticket.createdAt
          deadline := s.engine.deadline id }) :: rows
      | .ok none => escalationRows s rest
      | .error e => .error (.fromEngine e)

/-- `GET /escalations`. -/
def escalations [Digests] [ErrorTexts] (page : Page) (s : Serving) :
    Except ApiError (Answer EscalationRow) := do
  let limit ← page.limitOf
  let after ← page.after
  let rows ← escalationRows s (journalOrder s.records)
  return pageOf rows after limit

structure TransformationRow where
  row : Row
  supersededBy : Option TransformationId
  inverseStatus : Option InverseStatus
  rollback : Option Rollback
  deriving DecidableEq, Repr

/-- `GET /transformations`. -/
def transformations [Canon] (page : Page) (s : Serving) : Except ApiError (Answer TransformationRow) := do
  let limit ← page.limitOf
  let after ← page.after
  let rows := (journalOrder s.records).map fun (cursor, id) =>
    (cursor, {
      row := rowJson s id
      supersededBy := s.engine.supersededBy id
      inverseStatus := s.engine.inverseStatus s.disk id
      rollback := s.engine.rollback id })
  return pageOf rows after limit

/-- What a client has at the end: the rows, whether a page told it that there are no more, and the
refusal that ended it. -/
structure Received (ρ : Type) where
  rows : List ρ
  done : Bool
  refused : Option ApiError

/-- A client who asks for page after page, each with the cursor that the one before gave it, until
there is none. Every request meets the server as it is then. -/
def follow {ρ : Type} (handler : Page → Serving → Except ApiError (Answer ρ)) :
    Option String → List (ℕ × Serving) → Received ρ
  | _, [] => ⟨[], false, none⟩
  | cursor, (limit, s) :: rest =>
    match handler ⟨some limit, cursor⟩ s with
    | .error e => ⟨[], false, some e⟩
    | .ok answer =>
      match answer.nextCursor with
      | none => ⟨answer.items, true, none⟩
      | some next =>
        let more := follow handler (some next) rest
        ⟨answer.items ++ more.rows, more.done, more.refused⟩

end Tracefold.Api
