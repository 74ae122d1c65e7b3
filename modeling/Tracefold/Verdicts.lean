import Mathlib.Tactic.Common
import Tracefold.Runs

/-! The chain of signed verdict counts: the checkpoint a process publishes over the rulings it has
counted, the two audits of a chain, and deployments whose processes publish into one verdict log. -/

namespace Tracefold

open Library Engine

namespace VerdictTally

def total (t : VerdictTally) : ℕ := t.denies + t.admits + t.escalates + t.unverdicted

def add (t u : VerdictTally) : VerdictTally :=
  ⟨t.denies + u.denies, t.admits + u.admits, t.escalates + u.escalates,
    t.unverdicted + u.unverdicted⟩

/-- `u64::saturating_sub`, kind by kind. -/
def sub (t u : VerdictTally) : VerdictTally :=
  ⟨t.denies - u.denies, t.admits - u.admits, t.escalates - u.escalates,
    t.unverdicted - u.unverdicted⟩

/-- No kind is counted more often. -/
def le (t u : VerdictTally) : Bool :=
  t.denies ≤ u.denies ∧ t.admits ≤ u.admits ∧ t.escalates ≤ u.escalates ∧
    t.unverdicted ≤ u.unverdicted

end VerdictTally

structure VerdictCheckpoint where
  origin : String
  tally : VerdictTally
  windowStart : ℕ
  windowEnd : ℕ
  ledgerRootHash : Option Cid
  ledgerTreeSize : ℕ
  timestamp : Timestamp
  keyId : KeyId
  deriving DecidableEq, Repr

/-- The counts a chain has spoken for. -/
def publishedBy (log : List VerdictCheckpoint) : VerdictTally :=
  log.foldl (fun t c => t.add c.tally) .empty

inductive ChainBreak where
  | gap (closedAt reopenedAt : ℕ)
  | windowDoesNotMatchTally (windowWidth tallyTotal : ℕ)
  | underreported (kind : VerdictKind) (claimed observed : ℕ)
  | behindTheLedger (admitsClaimed ledgerTreeSize : ℕ)
  | ledgerWentBackwards (before after : ℕ)
  deriving DecidableEq, Repr

/-- What the audit of a chain carries from one checkpoint to the next. -/
structure ChainAudit where
  found : List ChainBreak
  folded : VerdictTally
  previousEnd : Option ℕ
  previousLedger : Option ℕ

def ChainAudit.start : ChainAudit := ⟨[], .empty, none, none⟩

def ChainAudit.next (a : ChainAudit) (c : VerdictCheckpoint) : ChainAudit :=
  let width := c.windowEnd - c.windowStart
  let mismatch := if width ≠ c.tally.total
    then [ChainBreak.windowDoesNotMatchTally width c.tally.total] else []
  let gap := match a.previousEnd with
    | some before => if before ≠ c.windowStart then [ChainBreak.gap before c.windowStart] else []
    | none => []
  let backwards := match a.previousLedger with
    | some before =>
      if c.ledgerTreeSize < before then [ChainBreak.ledgerWentBackwards before c.ledgerTreeSize]
      else []
    | none => []
  { found := a.found ++ mismatch ++ gap ++ backwards
    folded := a.folded.add c.tally
    previousEnd := some c.windowEnd
    previousLedger := some c.ledgerTreeSize }

/-- A kind the auditor has seen more often than the chain claims. -/
def underreported (kind : VerdictKind) (claimed seen : ℕ) : List ChainBreak :=
  if claimed < seen then [.underreported kind claimed seen] else []

/-- `audit_verdict_chain`. -/
def auditVerdictChain (log : List VerdictCheckpoint) (observed : VerdictTally)
    (ledgerTreeSize : ℕ) : List ChainBreak :=
  let a := log.foldl ChainAudit.next .start
  let admitted := a.folded.admits + a.folded.unverdicted
  a.found ++ underreported .Deny a.folded.denies observed.denies ++
    underreported .Admit a.folded.admits observed.admits ++
    underreported .Escalate a.folded.escalates observed.escalates ++
    if admitted < ledgerTreeSize then [.behindTheLedger admitted ledgerTreeSize] else []

inductive VerdictContradiction where
  | equivocation (origin : String) (windowStart windowEnd : ℕ) (tallyA tallyB : VerdictTally)
  | overlappingWindows (origin : String) (aWindow bWindow : ℕ × ℕ)
  | ledgerHeadEquivocation (origin : String) (ledgerTreeSize : ℕ) (rootA rootB : Cid)
  deriving DecidableEq, Repr

def forkedLedgerHead (a b : VerdictCheckpoint) : Option VerdictContradiction :=
  if a.ledgerTreeSize ≠ b.ledgerTreeSize then none
  else do
    let rootA ← a.ledgerRootHash
    let rootB ← b.ledgerRootHash
    if rootA = rootB then none
    else some (.ledgerHeadEquivocation a.origin a.ledgerTreeSize rootA rootB)

/-- What two checkpoints say that no key reconciles. -/
def contradictions (a b : VerdictCheckpoint) : List VerdictContradiction :=
  if a.origin ≠ b.origin then []
  else
    let windows :=
      if a.windowStart = b.windowStart ∧ a.windowEnd = b.windowEnd then
        if a.tally ≠ b.tally then
          [VerdictContradiction.equivocation a.origin a.windowStart a.windowEnd a.tally b.tally]
        else []
      else if a.windowStart < b.windowEnd ∧ b.windowStart < a.windowEnd then
        [.overlappingWindows a.origin (a.windowStart, a.windowEnd) (b.windowStart, b.windowEnd)]
      else []
    windows ++ (forkedLedgerHead a b).toList

/-- `detect_verdict_equivocation`. -/
def detectVerdictEquivocation : List VerdictCheckpoint → List VerdictContradiction
  | [] => []
  | a :: rest => rest.flatMap (contradictions a) ++ detectVerdictEquivocation rest

variable [Canon]

/-- `Engine::verdict_checkpoint` up to the append: refused where the chain has counted further
than the process. -/
def Engine.verdictCheckpoint (e : Engine) (published : VerdictTally) (origin : String)
    (at_ : Timestamp) (key : KeyId) : Except Error VerdictCheckpoint :=
  if published.le e.verdicts then
    .ok
      { origin := origin
        tally := e.verdicts.sub published
        windowStart := published.total
        windowEnd := e.verdicts.total
        ledgerRootHash := mth (e.ledger.map (·.leafCid))
        ledgerTreeSize := e.ledger.length
        timestamp := at_
        keyId := key }
  else .error .malformed

/-- A project with its verdict log, and the counts each process takes as published. -/
structure Deployment where
  project : Project
  verdictLog : List VerdictCheckpoint
  published : ℕ → VerdictTally

def Deployment.empty : Deployment := ⟨.empty, [], fun _ => .empty⟩

/-- An action of the project, or a checkpoint of one process, with what befalls its append; the
process has caught up with the files first, under the lock, or has not. -/
inductive Turn where
  | act (a : Action)
  | checkpoint (pid : ℕ) (origin : String) (at_ : Timestamp) (key : KeyId) (fault : Fault)
  | lockedCheckpoint (pid : ℕ) (origin : String) (at_ : Timestamp) (key : KeyId) (fault : Fault)

namespace Deployment

/-- A checkpoint of a process: the log and the process's counts move only when the append lands. -/
def publish (d : Deployment) (pid : ℕ) (e : Engine) (origin : String) (at_ : Timestamp)
    (key : KeyId) (fault : Fault) : Deployment :=
  match e.verdictCheckpoint (d.published pid) origin at_ key, fault with
  | .error _, _ => { d with project := d.project.set pid (some e) }
  | .ok _, .fail => { d with project := d.project.set pid (some e) }
  | .ok _, .crash => { d with project := d.project.set pid none }
  | .ok c, .none =>
    { project := d.project.set pid (some e)
      verdictLog := d.verdictLog ++ [c]
      published := fun q => if q = pid then e.verdicts else d.published q }

/-- What a process that is started takes as published is what the log speaks for. -/
def opened (d : Deployment) : Action → ℕ → VerdictTally
  | .start pid _ => fun q => if q = pid then publishedBy d.verdictLog else d.published q
  | _ => d.published

/-- The process that publishes, and the engine it publishes from. -/
def publishes (d : Deployment) : Turn → Option (ℕ × Engine)
  | .act _ => none
  | .checkpoint pid _ _ _ _ => (d.project.process pid).map fun e => (pid, e)
  | .lockedCheckpoint pid _ _ _ _ =>
    (d.project.process pid).map fun e => (pid, e.catchUp d.project.disk)

def step (w : World) (d : Deployment) : Turn → Deployment
  | .act a => { d with project := d.project.step w a, published := d.opened a }
  | .checkpoint pid origin at_ key fault =>
    match d.project.process pid with
    | some e => d.publish pid e origin at_ key fault
    | none => d
  | .lockedCheckpoint pid origin at_ key fault =>
    match d.project.process pid with
    | some e => d.publish pid (e.catchUp d.project.disk) origin at_ key fault
    | none => d

def run (w : World) (d : Deployment) (turns : List Turn) : Deployment := turns.foldl (step w) d

/-- The deployments a run comes to whose turns are all as `ok` asks. -/
inductive Reaches (w : World) (ok : Deployment → Turn → Prop) : Deployment → Prop where
  | empty : Reaches w ok .empty
  | step {d : Deployment} {t : Turn} (h : Reaches w ok d) (ht : ok d t) : Reaches w ok (d.step w t)

/-- Every turn of a list is as `ok` asks, where the run has come to by then. -/
def Along (w : World) (ok : Deployment → Turn → Prop) (d : Deployment) : List Turn → Prop
  | [] => True
  | t :: rest => ok d t ∧ Along w ok (d.step w t) rest

instance decidableAlong {w : World} {ok : Deployment → Turn → Prop} [∀ d t, Decidable (ok d t)] :
    ∀ (d : Deployment) (turns : List Turn), Decidable (Along w ok d turns)
  | _, [] => isTrue trivial
  | d, t :: rest =>
    have : Decidable (Along w ok (d.step w t) rest) := decidableAlong (d.step w t) rest
    inferInstanceAs (Decidable (ok d t ∧ Along w ok (d.step w t) rest))

theorem Reaches.run {w : World} {ok : Deployment → Turn → Prop} {d : Deployment}
    {turns : List Turn} (h : Reaches w ok d) (ha : Along w ok d turns) :
    Reaches w ok (d.run w turns) := by
  induction turns generalizing d with
  | nil => exact h
  | cons t rest ih => exact ih (.step h ha.1) ha.2

end Deployment

end Tracefold
