import Mathlib.Tactic.Common
import Tracefold.Witness.Dsse

/-! What a key holder says of a key and of a claim, read back from an envelope. -/

namespace Tracefold.Witness

structure RevocationEntry where
  keyId : KeyId
  reason : String
  revokedAt : Timestamp
  supersededBy : Option KeyId
  deriving DecidableEq, Repr

structure StandingEntry where
  claimId : String
  reason : String
  closedAt : Timestamp
  supersededBy : Option String
  deriving DecidableEq, Repr

variable [Curve]

/-- `RevocationEntry::from_signed`: a revocation is signed by the key it revokes. -/
def RevocationEntry.fromSigned [Cbor RevocationEntry] (envelope : DsseEnvelope)
    (key : VerifyingKeyRef) : Except Error RevocationEntry :=
  if envelope.payloadType ≠ revocationPayloadType then
    .error (.schema "the envelope carries another type")
  else
    match Cbor.decode (α := RevocationEntry) envelope.payload with
    | none => .error .canon
    | some entry =>
      if entry.keyId ≠ key.keyId then .error (.schema "the entry revokes another key")
      else
        match envelope.verify key with
        | .error error => .error error
        | .ok () => .ok entry

/-- `StandingEntry::from_signed`. -/
def StandingEntry.fromSigned [Cbor StandingEntry] (envelope : DsseEnvelope)
    (authority : VerifyingKeyRef) : Except Error StandingEntry :=
  if envelope.payloadType ≠ standingPayloadType then
    .error (.schema "the envelope carries another type")
  else
    match Cbor.decode (α := StandingEntry) envelope.payload with
    | none => .error .canon
    | some entry =>
      match envelope.verify authority with
      | .error error => .error error
      | .ok () => .ok entry

structure RevocationLedger where
  entries : List RevocationEntry
  deriving DecidableEq, Repr

/-- `RevocationLedger::revocation_of`: the earliest, and of several the first. -/
def RevocationLedger.revocationOf (ledger : RevocationLedger) (keyId : KeyId) :
    Option RevocationEntry :=
  (ledger.entries.filter fun entry => entry.keyId = keyId).foldl
    (fun
      | none, entry => some entry
      | some earliest, entry =>
        if entry.revokedAt < earliest.revokedAt then some entry else some earliest)
    none

inductive Retroaction where
  | fromRevocation
  | all
  deriving DecidableEq, Repr

inductive RevocationCheck where
  | notConsulted
  | notRevoked
  | notYetInForce
  | validAtIssue
  | revoked
  deriving DecidableEq, Repr

structure RevocationPolicy where
  ledger : RevocationLedger
  retroaction : Retroaction
  verifiedAt : Timestamp
  deriving DecidableEq, Repr

/-- `revocation_status`. -/
def revocationStatus (entry : Option RevocationEntry) (issuedAt : Timestamp)
    (retroaction : Retroaction) (verifiedAt : Timestamp) : RevocationCheck :=
  match entry with
  | none => .notRevoked
  | some entry =>
    if verifiedAt < entry.revokedAt then .notYetInForce
    else
      match retroaction with
      | .all => .revoked
      | .fromRevocation => if issuedAt < entry.revokedAt then .validAtIssue else .revoked

end Tracefold.Witness
