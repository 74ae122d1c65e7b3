import Mathlib.Tactic.Common
import Tracefold.Api.Cursor
import Tracefold.Gate.Meet
import Tracefold.Process

/-! What a handler has of the engine behind the server, and what it asks of it. -/

namespace Tracefold

/-- `EngineJournalRecord::transformation`. -/
def Record.transformation : Record → Option TransformationId
  | .draftCreated _ _ _ => none
  | .about id _ _ => some id

/-- `EngineJournalRecord::at`. -/
def Record.at_ : Record → Timestamp
  | .draftCreated _ _ stamp => stamp
  | .about _ _ stamp => stamp

namespace Api

open GxGate (Digests EscalationTicket escalationTicket escalationTicket_eq ticketOf)

/-- The text `Display` writes of a refusal of the gate, and `Debug` of an id. -/
class ErrorTexts where
  gate : GxGate.Error → String
  debug : TransformationId → String

/-- `ApiError::mapped`, of a kind that has a code. -/
def ApiError.mapped (code detail : String) : ApiError := ⟨code, "the operation was refused", detail⟩

/-- Why an engine does not rebuild a ticket. -/
inductive TicketError where
  | malformed (detail : String)
  | inconsistentTicket (detail : String)
  deriving DecidableEq, Repr

/-- `ApiError::from_engine`. -/
def ApiError.fromEngine : TicketError → ApiError
  | .malformed detail => .mapped "VALIDATION_ERROR" ("malformed: " ++ detail)
  | .inconsistentTicket detail =>
    .mapped "INTERNAL" ("the escalation ticket is inconsistent: " ++ detail)

/-- An engine with the files of its project, and what the rows of its table have besides: the ticket
of a row that waits, and the verdict receipts this process issued. The journal is in memory, so its
length is a `usize`. -/
structure Serving where
  engine : Engine
  disk : Disk
  ticket : TransformationId → Option EscalationTicket
  verdictReceipts : TransformationId → List Receipt
  inMemory : engine.records.length ≤ usizeMax

namespace Serving

def records (s : Serving) : List Record := s.engine.records

/-- `Engine::precondition_fingerprint`. -/
def preconditionFingerprint (s : Serving) (id : TransformationId) : Option Fingerprint :=
  s.engine.table[id]?.map (·.fp0)

/-- `Engine::transformation`. -/
def transformation (s : Serving) (id : TransformationId) : Option Transformation :=
  s.engine.table[id]?.map (·.transformation)

/-- `Engine::receipt`. -/
def receipt (s : Serving) (id : TransformationId) : Option Receipt :=
  s.engine.table[id]?.bind (·.receipt)

/-- `Engine::journalled_verdict_at`. -/
def journalledVerdictAt (s : Serving) (id : TransformationId) : Option Timestamp :=
  s.records.reverse.findSome? fun
    | .about about (.verdict _ _ _) stamp => if about = id then some stamp else none
    | _ => none

/-- A record says that the gate escalated. -/
def raises (id : TransformationId) : Record → Bool
  | .about about (.verdict .Escalate _ _) _ => about = id
  | _ => false

variable [Digests] [ErrorTexts]

/-- `Engine::checked_ticket`. -/
def checkedTicket (ticket : EscalationTicket) (stamp : Timestamp) :
    Except TicketError EscalationTicket :=
  let minted := Digests.ticket ticket.view
  if minted ≠ ticket.id then
    .error (.inconsistentTicket ("the ticket is filed as " ++ Digests.toText ticket.id ++
      " and its contents hash to " ++ Digests.toText minted))
  else .ok { ticket with createdAt := stamp }

/-- `Engine::rebuilt_ticket`. -/
def rebuiltTicket (s : Serving) (id : TransformationId) : Except TicketError EscalationTicket :=
  match escalationTicket id with
  | .error e =>
    .error (.malformed ("the escalation ticket for " ++ ErrorTexts.debug id ++
      " has no canonical form: " ++ ErrorTexts.gate e))
  | .ok ticket => checkedTicket ticket ((s.journalledVerdictAt id).getD 0)

/-- `Engine::ticket_as_raised`. -/
def ticketAsRaised (s : Serving) (id : TransformationId) :
    Except TicketError (Option EscalationTicket) :=
  match s.ticket id with
  | some live => .ok (some live)
  | none => if s.records.any (raises id) then (s.rebuiltTicket id).map some else .ok none

/-- A ticket is a function of the transformation, so it can always be raised again. -/
theorem rebuiltTicket_isOk (s : Serving) (id : TransformationId) :
    ∃ ticket, s.rebuiltTicket id = .ok ticket := by
  have hid : Digests.ticket (ticketOf id).view = (ticketOf id).id := rfl
  refine ⟨{ ticketOf id with createdAt := (s.journalledVerdictAt id).getD 0 }, ?_⟩
  rw [rebuiltTicket, escalationTicket_eq]
  simp only [checkedTicket, hid, ne_eq, not_true_eq_false, if_false]

theorem ticketAsRaised_isOk (s : Serving) (id : TransformationId) :
    ∃ ticket, s.ticketAsRaised id = .ok ticket := by
  rw [ticketAsRaised]
  split
  next live _ => exact ⟨some live, rfl⟩
  next =>
    split
    · obtain ⟨ticket, hticket⟩ := s.rebuiltTicket_isOk id
      exact ⟨some ticket, by rw [hticket]; rfl⟩
    · exact ⟨none, rfl⟩

end Serving

end Api

end Tracefold
