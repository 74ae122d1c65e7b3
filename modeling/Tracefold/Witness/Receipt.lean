import Mathlib.Tactic.Common
import Tracefold.Canon
import Tracefold.Witness.Keys

/-! A receipt as the bytes that were signed, and what a reader of it finds out offline. -/

namespace Tracefold.Witness

open Ledger

structure Receipt where
  envelope : DsseEnvelope
  issuedAt : Timestamp
  deriving DecidableEq, Repr

def inclusionProofKey : String := "inclusion_proof"

def cborNull : UInt8 := 0xf6

/-- `ledger_digest_of_signed_payload`: the inclusion proof is replaced by a null, not removed. -/
def ledgerDigestOfSignedPayload [CanonicalBytes] (bytes : Bytes) : Option Cid :=
  match CanonicalBytes.valueSpan bytes inclusionProofKey with
  | none => none
  | some none => CanonicalBytes.cid bytes
  | some (some (start, stop)) =>
    CanonicalBytes.cid (bytes.take start ++ [cborNull] ++ bytes.drop stop)

inductive InclusionCheck where
  | notApplicable
  | verified
  | refuted
  | unanchored
  | unbridged
  deriving DecidableEq, Repr

structure Checks where
  canonicalCid : Bool
  inclusion : InclusionCheck
  revocation : RevocationCheck
  keyId : KeyId
  deriving DecidableEq, Repr

/-- A tree head, and the way to it from an earlier one. -/
structure Anchorage where
  checkpoint : Checkpoint
  bridge : Option ConsistencyProof
  deriving DecidableEq, Repr

def Anchorage.at (checkpoint : Checkpoint) : Anchorage := ⟨checkpoint, none⟩

section Reading

variable [Canon] [CanonicalBytes]

/-- `verify_inclusion_from`. -/
def verifyInclusionFrom (payload : ReceiptPayload) (signedBytes : Bytes) (proof : InclusionProof)
    (anchorage : Anchorage) : Except Error InclusionCheck :=
  let anchor := anchorage.checkpoint
  match ledgerDigestOfSignedPayload signedBytes with
  | none => .error .canon
  | some digest =>
    let leaf : LedgerLeaf := ⟨proof.leafIndex, digest, payload.transformation⟩
    if anchor.treeSize = proof.treeSize then
      .ok (if verifyInclusionOf proof anchor.rootHash leaf then .verified else .refuted)
    else if anchor.treeSize < proof.treeSize then .ok .unbridged
    else
      match rootOfInclusion proof leaf with
      | none => .ok .refuted
      | some rootAtProofSize =>
        match anchorage.bridge with
        | none => .ok .unbridged
        | some bridge =>
          if bridge.oldSize ≠ proof.treeSize ∨ bridge.newSize ≠ anchor.treeSize then .ok .unbridged
          else
            match verifyConsistency bridge rootAtProofSize anchor.rootHash with
            | .error error => .error (.log (.proof error))
            | .ok holds => .ok (if holds then .verified else .refuted)

variable [Curve] [Cbor ReceiptPayload]

/-- The payload of a receipt, past everything that is checked before the inclusion. -/
def Receipt.checkedPayload (receipt : Receipt) (key : VerifyingKeyRef) :
    Except Error ReceiptPayload := do
  receipt.envelope.verify key
  match Cbor.decode (α := ReceiptPayload) receipt.envelope.payload with
  | none => .error .canon
  | some payload =>
    match payload.checkSchema with
    | .error detail => .error (.schema detail)
    | .ok () =>
      if payload.keyId ≠ key.keyId then .error (.schema "the receipt names another key")
      else .ok payload

/-- The inclusion half of `checks_of`. -/
def inclusionOf (receipt : Receipt) (payload : ReceiptPayload) (anchor : Option Anchorage) :
    Except Error InclusionCheck :=
  match payload.receiptKind, payload.inclusionProof, anchor with
  | .verdictReceipt, _, _ => .ok .notApplicable
  | .commitReceipt, some proof, some anchorage =>
    verifyInclusionFrom payload receipt.envelope.payload proof anchorage
  | .commitReceipt, _, none => .ok .unanchored
  | .commitReceipt, none, some _ =>
    .error (.schema "a CommitReceipt reached the inclusion check with no proof")

/-- `checks_of`. -/
def checksOf (receipt : Receipt) (key : VerifyingKeyRef) (anchor : Option Anchorage)
    (revocation : Option RevocationPolicy) : Except Error Checks := do
  let payload ← receipt.checkedPayload key
  let inclusion ← inclusionOf receipt payload anchor
  return {
    canonicalCid := payload.canonicalCid = payload.transformation
    inclusion := inclusion
    revocation := revocation.elim .notConsulted fun policy =>
      revocationStatus (policy.ledger.revocationOf key.keyId) receipt.issuedAt policy.retroaction
        policy.verifiedAt
    keyId := key.keyId }

/-- `verify_offline_against`. -/
def verifyOfflineAgainst (receipt : Receipt) (key : VerifyingKeyRef) (anchorage : Option Anchorage)
    (revocation : Option RevocationPolicy) : Except Error Checks :=
  checksOf receipt key anchorage revocation

/-- `verify_offline`. -/
def verifyOffline (receipt : Receipt) (key : VerifyingKeyRef) (anchor : Option Checkpoint) :
    Except Error Checks :=
  checksOf receipt key (anchor.map .at) none

end Reading

end Tracefold.Witness
