import Mathlib.Tactic.Common
import Tracefold.Cbor
import Tracefold.Cbor.Value
import Tracefold.Ledger.Proof
import Tracefold.Verdicts

/-! The envelope a document travels in, the bytes a signature of it is over, and the tree heads
that are signed without an envelope. -/

namespace Tracefold.Witness

open DagCbor (utf8)

/-- `gx_log::Error`, as far as the functions called from here return it. -/
inductive LogError where
  | canon
  | proof (error : Ledger.ProofError)
  deriving DecidableEq, Repr

inductive Error where
  | signatureInvalid (keyId : KeyId)
  | schema (detail : String)
  | canon
  | log (error : LogError)
  deriving DecidableEq, Repr

def receiptPayloadType : String := "application/vnd.glovrex.receipt+dagcbor"

def checkpointPayloadType : String := "application/vnd.glovrex.checkpoint+dagcbor"

def revocationPayloadType : String := "application/vnd.glovrex.revocation+dagcbor"

def standingPayloadType : String := "application/vnd.glovrex.standing+dagcbor"

def verdictCheckpointPayloadType : String := "application/vnd.glovrex.verdict-checkpoint+dagcbor"

def paePrefix : Bytes := utf8 "DSSEv1"

def space : UInt8 := 32

/-- The pre-authentication encoding: a type and a payload, each behind its length. -/
def pae (payloadType : String) (payload : Bytes) : Bytes :=
  paePrefix ++ [space] ++ utf8 (toString (utf8 payloadType).length) ++ [space] ++
    utf8 payloadType ++ [space] ++ utf8 (toString payload.length) ++ [space] ++ payload

structure DsseSignature where
  keyid : KeyId
  sig : Bytes
  deriving DecidableEq, Repr

structure DsseEnvelope where
  payloadType : String
  payload : Bytes
  signatures : List DsseSignature
  deriving DecidableEq, Repr

structure VerifyingKeyRef where
  keyId : KeyId
  key : Bytes
  deriving DecidableEq, Repr

/-- `ed25519_dalek`: signing with a secret, and `verify_strict` under a public key. -/
class Curve where
  sign : Bytes → Bytes → Bytes
  verifyStrict : Bytes → Bytes → Bytes → Bool

def signatureLength : ℕ := 64

section Signing

variable [Curve]

/-- `verify_raw`. -/
def verifyRaw (key : VerifyingKeyRef) (message : Bytes) (offered : DsseSignature) :
    Except Error Unit :=
  if offered.sig.length ≠ signatureLength then .error (.signatureInvalid key.keyId)
  else if Curve.verifyStrict key.key message offered.sig then .ok ()
  else .error (.signatureInvalid key.keyId)

namespace DsseEnvelope

def signingBytes (envelope : DsseEnvelope) : Bytes := pae envelope.payloadType envelope.payload

/-- `DsseEnvelope::signature_for`. -/
def signatureFor (envelope : DsseEnvelope) (keyId : KeyId) : Option DsseSignature :=
  envelope.signatures.find? fun signature => signature.keyid = keyId

/-- `DsseEnvelope::sign`. -/
def sign (envelope : DsseEnvelope) (secret : Bytes) (keyId : KeyId) : DsseEnvelope :=
  { envelope with
    signatures := envelope.signatures ++ [⟨keyId, Curve.sign secret envelope.signingBytes⟩] }

/-- `DsseEnvelope::verify`. -/
def verify (envelope : DsseEnvelope) (key : VerifyingKeyRef) : Except Error Unit :=
  match envelope.signatureFor key.keyId with
  | none => .error (.signatureInvalid key.keyId)
  | some offered => verifyRaw key envelope.signingBytes offered

end DsseEnvelope

theorem verifyRaw_eq_ok {key : VerifyingKeyRef} {message : Bytes} {offered : DsseSignature} :
    verifyRaw key message offered = .ok () ↔
      offered.sig.length = signatureLength ∧
        Curve.verifyStrict key.key message offered.sig = true := by
  rw [verifyRaw]
  split_ifs with hlength hvalid
  · simp [hlength]
  · simpa [hvalid] using hlength
  · simp [hvalid]

theorem verify_eq_ok {envelope : DsseEnvelope} {key : VerifyingKeyRef} :
    envelope.verify key = .ok () ↔
      ∃ offered, envelope.signatureFor key.keyId = some offered ∧
        offered.sig.length = signatureLength ∧
        Curve.verifyStrict key.key envelope.signingBytes offered.sig = true := by
  rw [DsseEnvelope.verify]
  cases envelope.signatureFor key.keyId with
  | none => simp
  | some offered => simp [verifyRaw_eq_ok]

end Signing

structure Checkpoint where
  origin : String
  treeSize : ℕ
  rootHash : Cid
  timestamp : Timestamp
  signature : DsseSignature
  deriving DecidableEq, Repr

/-- What the signature of a tree head covers. -/
structure CheckpointCore where
  origin : String
  rootHash : Cid
  treeSize : ℕ
  deriving DecidableEq, Repr

/-- What the signature of a count of verdicts covers. -/
structure VerdictCheckpointCore where
  tally : VerdictTally
  origin : String
  windowEnd : ℕ
  windowStart : ℕ
  ledgerRootHash : Option Cid
  ledgerTreeSize : ℕ
  deriving DecidableEq, Repr

section Heads

variable [Cbor CheckpointCore] [Cbor VerdictCheckpointCore]

def checkpointSigningBytes (checkpoint : Checkpoint) : Option Bytes :=
  Cbor.encode (⟨checkpoint.origin, checkpoint.rootHash, checkpoint.treeSize⟩ : CheckpointCore)

def checkpointSigningMessage (checkpoint : Checkpoint) : Option Bytes :=
  (checkpointSigningBytes checkpoint).map (pae checkpointPayloadType)

def verdictCheckpointSigningBytes (checkpoint : VerdictCheckpoint) : Option Bytes :=
  Cbor.encode (⟨checkpoint.tally, checkpoint.origin, checkpoint.windowEnd, checkpoint.windowStart,
    checkpoint.ledgerRootHash, checkpoint.ledgerTreeSize⟩ : VerdictCheckpointCore)

def verdictCheckpointSigningMessage (checkpoint : VerdictCheckpoint) : Option Bytes :=
  (verdictCheckpointSigningBytes checkpoint).map (pae verdictCheckpointPayloadType)

variable [Curve]

/-- `verify_checkpoint`. -/
def verifyCheckpoint (checkpoint : Checkpoint) (key : VerifyingKeyRef) : Except Error Unit :=
  if checkpoint.signature.keyid ≠ key.keyId then .error (.signatureInvalid key.keyId)
  else
    match checkpointSigningMessage checkpoint with
    | none => .error (.log .canon)
    | some message => verifyRaw key message checkpoint.signature

end Heads

end Tracefold.Witness
