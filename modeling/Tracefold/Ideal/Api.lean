import Mathlib.Tactic.Common
import Tracefold.Api.Serving
import Tracefold.Ideal.Gate

/-! Servers over the object with versions. -/

namespace Tracefold.Ideal

open Api Engine

/-- The texts of an error are of no interest. -/
scoped instance errorTexts : ErrorTexts where
  gate _ := ""
  debug id := toString id.digest

/-- A process started over a journal. -/
def served (records : List Record) (h : records.length ≤ usizeMax) : Serving where
  engine := Engine.openThrough config { Disk.empty with journal := records }
  disk := { Disk.empty with journal := records }
  ticket _ := none
  verdictReceipts _ := []
  inMemory := h

/-- The records of a transformation that waits for its verification. -/
def plannedAt (n : ℕ) : List Record :=
  [.draftCreated (Canon.intent intent) n 0, .about (idAt n) (.planned (bodyAt n)) 0]

/-- An escalation in one process; another is started over the journal, and plans something else. -/
def raised : List Action :=
  [.start 0 config, .call 0 (.submit intent 0 0), .call 0 (.plan intent 0),
    .call 0 (.verify (idAt 2) 1 "k" none), .start 1 config,
    .call 1 (.submit (intentFor 5) 0 2), .call 1 (.plan (intentFor 5) 2)]

/-- A human rules on it there. -/
def ruled : List Action :=
  raised ++ [.call 1 (.plan intent 3), .call 1 (.escalation (idAt 2) ⟨.Admit, "fine", .human "k"⟩ 3 "k")]

/-- An escalation in one process, which plans something else. -/
def asked : List Action :=
  [.start 0 config, .call 0 (.submit intent 0 0), .call 0 (.plan intent 0),
    .call 0 (.verify (idAt 2) 1 "k" none), .call 0 (.submit (intentFor 5) 0 2),
    .call 0 (.plan (intentFor 5) 2)]

/-- A human rules on it there. -/
def answered : List Action :=
  asked ++ [.call 0 (.escalation (idAt 2) ⟨.Admit, "fine", .human "k"⟩ 3 "k")]

def verdictReceipt (verdict : VerdictSummary) (stamp : Timestamp) : Receipt where
  payload := {
    keyId := "k"
    verdict := some verdict
    enforced := true
    confinement := some ⟨false, none⟩
    catalogueHash := none
    readSet := none
    reversibility := none
    undo := none
    determinismBoundary := attestedBoundary .unknown true
    receiptKind := .verdictReceipt
    canonicalCid := idAt 2
    inverseDelta := none
    transformation := idAt 2
    inclusionProof := none
    fingerprintScope := ""
    failPostureEngaged := false
    preconditionFingerprint := ⟨[2]⟩
    postconditionFingerprint := none
    payloadVersion := some 1
    engineVersion := some "0" }
  issuedAt := stamp
  signedBy := "k"

def escalationReceipt : Receipt := verdictReceipt ⟨.Escalate, ⟨[7]⟩⟩ 1

/-- The receipt of the ruling, the first verdict receipt of a process started in between. -/
def rulingReceipt : Receipt :=
  verdictReceipt ⟨.Admit, Canon.ruling ⟨.Admit, "fine", .human "k"⟩⟩ 3

/-- The engine of a process, if it is one whose journal is in memory. -/
def engineOf (process : Option Engine) : Engine :=
  match process.filter (·.records.length ≤ usizeMax) with
  | some e => e
  | none => openThrough config .empty

theorem engineOf_inMemory (process : Option Engine) :
    (engineOf process).records.length ≤ usizeMax := by
  rw [engineOf]
  split
  next e he =>
    have hlength := (Option.filter_eq_some_iff.mp he).2
    simpa using hlength
  next => exact Nat.zero_le _

/-- A process as the server of a stream, with the receipts it has of the escalation. -/
def serving (pid : ℕ) (actions : List Action) (receipts : List Receipt) : Serving where
  engine := engineOf ((Project.empty.run escalating actions).process pid)
  disk := (Project.empty.run escalating actions).disk
  ticket _ := none
  verdictReceipts id := if id = idAt 2 then receipts else []
  inMemory := engineOf_inMemory _

end Tracefold.Ideal
