import Mathlib.Tactic.Common
import Tracefold.Library.Text
import Tracefold.Witness.Offline

/-! The type inside the signed bytes keeps the documents a key signs apart, for the readers that
ask for it. -/

namespace Tracefold.Witness

open Library.Text
open DagCbor (utf8 utf8_injective)

theorem utf8_ofList (text : List Char) :
    utf8 (String.ofList text) = text.flatMap String.utf8EncodeChar := by
  rw [utf8, String.toByteArray_ofList, List.utf8Encode, List.toList_data_toByteArray]

theorem space_not_mem_decimal (n : ℕ) : space ∉ utf8 (toString n) := by
  rw [Nat.toString_eq_ofList_toDigits, utf8_ofList, List.mem_flatMap]
  rintro ⟨c, hc, hspace⟩
  have hdigit : c.isDigit := Nat.isDigit_of_mem_toDigits (by decide) (by decide) hc
  rw [Char.isDigit, Bool.and_eq_true, decide_eq_true_eq, decide_eq_true_eq] at hdigit
  have hle : c.val ≤ 127 := UInt32.le_trans hdigit.2 (by decide)
  rw [String.utf8EncodeChar_eq_singleton (Char.utf8Size_eq_one_iff.mpr hle),
    List.mem_singleton] at hspace
  have hval : 32 = c.val.toNat % 256 := congrArg UInt8.toNat hspace
  have hlow : 48 ≤ c.val.toNat := UInt32.le_iff_toNat_le.mp hdigit.1
  have hhigh : c.val.toNat ≤ 57 := UInt32.le_iff_toNat_le.mp hdigit.2
  omega

theorem decimal_injective {n m : ℕ} (h : utf8 (toString n) = utf8 (toString m)) : n = m := by
  have htext := utf8_injective h
  rw [Nat.toString_eq_ofList_toDigits, Nat.toString_eq_ofList_toDigits] at htext
  have hdigits := String.ofList_injective htext
  rw [← @Nat.ofDigitChars_ten_toDigits n, hdigits, Nat.ofDigitChars_ten_toDigits]

theorem cut_inj {a a' b b' : Bytes} (ha : space ∉ a) (ha' : space ∉ a')
    (h : a ++ space :: b = a' ++ space :: b') : a = a' ∧ b = b' := by
  have hcut := splitOnce_append (b := b) ha
  rw [h, splitOnce_append ha', Option.some.injEq, Prod.mk.injEq] at hcut
  exact ⟨hcut.1.symm, hcut.2.symm⟩

/-- The signed bytes determine the type and the payload, whatever either of them holds. -/
theorem pae_injective {t t' : String} {p p' : Bytes} (h : pae t p = pae t' p') :
    t = t' ∧ p = p' := by
  simp only [pae, List.append_assoc, List.append_cancel_left_eq, List.cons_append, List.nil_append,
    List.cons.injEq, true_and] at h
  obtain ⟨hlength, h⟩ := cut_inj (space_not_mem_decimal _) (space_not_mem_decimal _) h
  obtain ⟨htype, h⟩ := List.append_inj h (decimal_injective hlength)
  rw [List.cons.injEq] at h
  obtain ⟨_, hpayload⟩ := cut_inj (space_not_mem_decimal _) (space_not_mem_decimal _) h.2
  exact ⟨utf8_injective htype, hpayload⟩

section Readers

variable [Cbor CheckpointCore] [Cbor VerdictCheckpointCore]

/-- What a key holder signs, each by the function that signs it. -/
inductive Statement where
  | envelope (payloadType : String) (payload : Bytes)
  | checkpoint (checkpoint : Checkpoint)
  | verdictCheckpoint (checkpoint : VerdictCheckpoint)

namespace Statement

/-- The message that goes to the curve. -/
def message : Statement → Option Bytes
  | envelope payloadType payload => some (DsseEnvelope.signingBytes ⟨payloadType, payload, []⟩)
  | checkpoint head => checkpointSigningMessage head
  | verdictCheckpoint count => verdictCheckpointSigningMessage count

/-- The type and the payload that are signed. -/
def pair : Statement → Option (String × Bytes)
  | envelope payloadType payload => some (payloadType, payload)
  | checkpoint head => (checkpointSigningBytes head).map (checkpointPayloadType, ·)
  | verdictCheckpoint count =>
    (verdictCheckpointSigningBytes count).map (verdictCheckpointPayloadType, ·)

theorem message_eq (statement : Statement) :
    statement.message = statement.pair.map fun (payloadType, payload) => pae payloadType payload := by
  cases statement with
  | envelope payloadType payload => rfl
  | checkpoint head =>
    rw [message, pair, checkpointSigningMessage, Option.map_map]
    rfl
  | verdictCheckpoint count =>
    rw [message, pair, verdictCheckpointSigningMessage, Option.map_map]
    rfl

end Statement

/-- The holder signed a payload under a type. -/
def Signed (statements : Set Statement) (payloadType : String) (payload : Bytes) : Prop :=
  ∃ statement ∈ statements, statement.pair = some (payloadType, payload)

variable [Curve]

/-- Signatures under the key are valid exactly for the messages its holder signed. -/
def SignsExactly (key : VerifyingKeyRef) (statements : Set Statement) : Prop :=
  ∀ message : Bytes,
    (∃ sig : Bytes, sig.length = signatureLength ∧
      Curve.verifyStrict key.key message sig = true) ↔
      ∃ statement ∈ statements, statement.message = some message

variable {key : VerifyingKeyRef} {statements : Set Statement}

theorem SignsExactly.pae (h : SignsExactly key statements) {payloadType : String} {payload : Bytes} :
    (∃ sig : Bytes, sig.length = signatureLength ∧
      Curve.verifyStrict key.key (pae payloadType payload) sig = true) ↔
      Signed statements payloadType payload := by
  rw [h]
  constructor
  · rintro ⟨statement, hmem, hmessage⟩
    rw [statement.message_eq, Option.map_eq_some_iff] at hmessage
    obtain ⟨⟨payloadType', payload'⟩, hpair, hpae⟩ := hmessage
    obtain ⟨rfl, rfl⟩ := pae_injective hpae
    exact ⟨statement, hmem, hpair⟩
  · rintro ⟨statement, hmem, hpair⟩
    refine ⟨statement, hmem, ?_⟩
    rw [statement.message_eq, hpair]
    rfl

theorem signed_of_verify (h : SignsExactly key statements) {envelope : DsseEnvelope}
    (hverify : envelope.verify key = .ok ()) :
    Signed statements envelope.payloadType envelope.payload := by
  obtain ⟨offered, _, hlength, hvalid⟩ := verify_eq_ok.mp hverify
  exact h.pae.mp ⟨offered.sig, hlength, hvalid⟩

theorem signed_of_revocation [Cbor RevocationEntry] (h : SignsExactly key statements)
    {envelope : DsseEnvelope} {entry : RevocationEntry}
    (haccepted : RevocationEntry.fromSigned envelope key = .ok entry) :
    Signed statements revocationPayloadType envelope.payload := by
  rw [RevocationEntry.fromSigned] at haccepted
  split_ifs at haccepted with htype
  split at haccepted
  next => cases haccepted
  next =>
    split_ifs at haccepted
    split at haccepted
    next => cases haccepted
    next hverify =>
      rw [← not_not.mp htype]
      exact signed_of_verify h hverify

theorem signed_of_standing [Cbor StandingEntry] (h : SignsExactly key statements)
    {envelope : DsseEnvelope} {entry : StandingEntry}
    (haccepted : StandingEntry.fromSigned envelope key = .ok entry) :
    Signed statements standingPayloadType envelope.payload := by
  rw [StandingEntry.fromSigned] at haccepted
  split_ifs at haccepted with htype
  split at haccepted
  next => cases haccepted
  next =>
    split at haccepted
    next => cases haccepted
    next hverify =>
      rw [← not_not.mp htype]
      exact signed_of_verify h hverify

theorem signed_of_checkpoint (h : SignsExactly key statements) {checkpoint : Checkpoint}
    (haccepted : verifyCheckpoint checkpoint key = .ok ()) :
    ∃ core, checkpointSigningBytes checkpoint = some core ∧
      Signed statements checkpointPayloadType core := by
  rw [verifyCheckpoint] at haccepted
  split_ifs at haccepted
  split at haccepted
  next => cases haccepted
  next message hmessage =>
    rw [checkpointSigningMessage, Option.map_eq_some_iff] at hmessage
    obtain ⟨core, hcore, rfl⟩ := hmessage
    obtain ⟨hlength, hvalid⟩ := verifyRaw_eq_ok.mp haccepted
    exact ⟨core, hcore, h.pae.mp ⟨_, hlength, hvalid⟩⟩

variable [Canon] [CanonicalBytes] [Cbor ReceiptPayload]

/-- Bytes that a reader of receipts takes for a receipt of the key, once the signature is good. -/
def ReadsAsReceipt (key : VerifyingKeyRef) (bytes : Bytes) : Prop :=
  ∃ payload : ReceiptPayload, Cbor.decode bytes = some payload ∧ payload.checkSchema = .ok () ∧
    payload.keyId = key.keyId

/-- Every document each of the readers accepts was signed for that reader. -/
structure Separated [Cbor RevocationEntry] [Cbor StandingEntry] (key : VerifyingKeyRef)
    (statements : Set Statement) : Prop where
  receipt : ∀ (receipt : Receipt) (anchor : Option Checkpoint) (checks : Checks),
    verifyOffline receipt key anchor = .ok checks →
      Signed statements receiptPayloadType receipt.envelope.payload
  revocation : ∀ (envelope : DsseEnvelope) (entry : RevocationEntry),
    RevocationEntry.fromSigned envelope key = .ok entry →
      Signed statements revocationPayloadType envelope.payload
  standing : ∀ (envelope : DsseEnvelope) (entry : StandingEntry),
    StandingEntry.fromSigned envelope key = .ok entry →
      Signed statements standingPayloadType envelope.payload
  checkpoint : ∀ (checkpoint : Checkpoint), verifyCheckpoint checkpoint key = .ok () →
    ∃ core, checkpointSigningBytes checkpoint = some core ∧
      Signed statements checkpointPayloadType core

/-- A receipt is accepted under whatever type it was signed. -/
theorem verifyOffline_of_signed (h : SignsExactly key statements) {payloadType : String}
    {bytes : Bytes} (hsigned : Signed statements payloadType bytes) (hreads : ReadsAsReceipt key bytes) :
    ∃ (receipt : Receipt) (checks : Checks), receipt.envelope.payload = bytes ∧
      verifyOffline receipt key none = .ok checks := by
  obtain ⟨sig, hlength, hvalid⟩ := h.pae.mpr hsigned
  obtain ⟨payload, hdecode, hschema, hkey⟩ := hreads
  let receipt : Receipt := ⟨⟨payloadType, bytes, [⟨key.keyId, sig⟩]⟩, 0⟩
  have hfind : receipt.envelope.signatureFor key.keyId = some ⟨key.keyId, sig⟩ := by
    simp [receipt, DsseEnvelope.signatureFor]
  have hpayload : receipt.checkedPayload key = .ok payload :=
    checkedPayload_eq_ok.mpr ⟨verify_eq_ok.mpr ⟨_, hfind, hlength, hvalid⟩, hdecode, hschema, hkey⟩
  have hinclusion : ∃ inclusion, inclusionOf receipt payload none = .ok inclusion := by
    unfold inclusionOf
    cases payload.receiptKind with
    | verdictReceipt => exact ⟨_, rfl⟩
    | commitReceipt =>
      cases payload.inclusionProof with
      | none => exact ⟨_, rfl⟩
      | some proof => exact ⟨_, rfl⟩
  obtain ⟨inclusion, hinclusion⟩ := hinclusion
  obtain ⟨checks, hchecks, _⟩ := checksOf_of_inclusion hpayload hinclusion
  exact ⟨receipt, checks, rfl, hchecks⟩

end Readers

/-- The signed bytes tell types apart; and each reader accepts only what was signed for it, if and
only if nothing that reads as a receipt was signed as something else alone. -/
theorem documents_are_separated [Canon] [CanonicalBytes] [Curve] [Cbor ReceiptPayload]
    [Cbor RevocationEntry] [Cbor StandingEntry] [Cbor CheckpointCore] [Cbor VerdictCheckpointCore]
    (key : VerifyingKeyRef) (statements : Set Statement) (h : SignsExactly key statements) :
    (∀ (t t' : String) (p p' : Bytes), pae t p = pae t' p' → t = t' ∧ p = p') ∧
      (Separated key statements ↔
        ∀ (payloadType : String) (bytes : Bytes), Signed statements payloadType bytes →
          ReadsAsReceipt key bytes → Signed statements receiptPayloadType bytes) := by
  constructor
  · intro t t' p p' heq
    exact pae_injective heq
  constructor
  · intro hseparated payloadType bytes hsigned hreads
    obtain ⟨receipt, checks, rfl, haccepted⟩ := verifyOffline_of_signed h hsigned hreads
    exact hseparated.receipt receipt none checks haccepted
  · intro hreceipts
    constructor
    · intro receipt anchor checks haccepted
      obtain ⟨payload, hpayload, _⟩ := checksOf_inclusion haccepted
      obtain ⟨hverify, hdecode, hschema, hkey⟩ := checkedPayload_eq_ok.mp hpayload
      exact hreceipts _ _ (signed_of_verify h hverify) ⟨payload, hdecode, hschema, hkey⟩
    · intro envelope entry haccepted
      exact signed_of_revocation h haccepted
    · intro envelope entry haccepted
      exact signed_of_standing h haccepted
    · intro checkpoint haccepted
      exact signed_of_checkpoint h haccepted

namespace Sample

open Library Library.Code Tracefold.Ideal

instance : Code RevocationEntry :=
  ofInjective (fun e : RevocationEntry => (e.keyId, e.reason, e.revokedAt, e.supersededBy))
    fun a b h => by
      cases a
      cases b
      simp_all

instance : Code StandingEntry :=
  ofInjective (fun e : StandingEntry => (e.claimId, e.reason, e.closedAt, e.supersededBy))
    fun a b h => by
      cases a
      cases b
      simp_all

instance : Code CheckpointCore :=
  ofInjective (fun c : CheckpointCore => (c.origin, c.rootHash, c.treeSize)) fun a b h => by
    cases a
    cases b
    simp_all

instance : Code VerdictTally :=
  ofInjective (fun t : VerdictTally => (t.denies, t.admits, t.escalates, t.unverdicted))
    fun a b h => by
      cases a
      cases b
      simp_all

instance : Code VerdictCheckpointCore :=
  ofInjective (fun c : VerdictCheckpointCore =>
    (c.tally, c.origin, c.windowEnd, c.windowStart, c.ledgerRootHash, c.ledgerTreeSize))
    fun a b h => by
      cases a
      cases b
      simp_all

/-- The holder of a key signs the sample's bytes, under one type. -/
def statementsUnder (payloadType : String) : Set Statement := {.envelope payloadType bytes}

theorem signsExactly_under (payloadType : String) :
    @SignsExactly _ _ (curve [pae payloadType bytes]) key (statementsUnder payloadType) := by
  intro message
  constructor
  · rintro ⟨sig, _, hvalid⟩
    have hmem : message ∈ [pae payloadType bytes] := of_decide_eq_true hvalid
    exact ⟨_, rfl, by rw [List.mem_singleton.mp hmem]; rfl⟩
  · rintro ⟨statement, hmem, hmessage⟩
    obtain rfl : statement = .envelope payloadType bytes := hmem
    obtain rfl : pae payloadType bytes = message := Option.some.inj hmessage
    exact ⟨List.replicate signatureLength 0, rfl, decide_eq_true (List.mem_singleton_self _)⟩

theorem signed_under {payloadType payloadType' : String} {payload : Bytes} :
    Signed (statementsUnder payloadType) payloadType' payload ↔
      payloadType' = payloadType ∧ payload = bytes := by
  constructor
  · rintro ⟨statement, hmem, hpair⟩
    obtain rfl : statement = .envelope payloadType bytes := hmem
    cases hpair
    exact ⟨rfl, rfl⟩
  · rintro ⟨rfl, rfl⟩
    exact ⟨_, rfl, rfl⟩

theorem bytes_readAsReceipt : ReadsAsReceipt key bytes := ⟨payload, decode_bytes, rfl, rfl⟩

end Sample

open Tracefold.Ideal Sample in
theorem documents_are_separated_receipt :
    Signed (statementsUnder receiptPayloadType) receiptPayloadType bytes ∧
      @Separated _ _ (curve [pae receiptPayloadType bytes]) _ _ _ _ _ key
        (statementsUnder receiptPayloadType) := by
  have hsigned : Signed (statementsUnder receiptPayloadType) receiptPayloadType bytes :=
    signed_under.mpr ⟨rfl, rfl⟩
  have hboth := @documents_are_separated _ _ (curve [pae receiptPayloadType bytes]) _ _ _ _ _ key
    (statementsUnder receiptPayloadType) (signsExactly_under receiptPayloadType)
  refine ⟨hsigned, hboth.2.mpr ?_⟩
  intro payloadType bytes' hother _
  obtain ⟨_, rfl⟩ := signed_under.mp hother
  exact hsigned

open Tracefold.Ideal Sample in
/-- A holder signs a payload as a standing, and a reader of receipts accepts it. -/
theorem standing_is_read_as_a_receipt :
    @SignsExactly _ _ (curve [pae standingPayloadType bytes]) key
        (statementsUnder standingPayloadType) ∧
      ∃ (receipt : Receipt) (checks : Checks),
        @verifyOffline _ _ (curve [pae standingPayloadType bytes]) _ receipt key none = .ok checks ∧
          ¬ Signed (statementsUnder standingPayloadType) receiptPayloadType
            receipt.envelope.payload := by
  have hexact := signsExactly_under standingPayloadType
  obtain ⟨receipt, checks, hpayload, haccepted⟩ :=
    @verifyOffline_of_signed _ _ (curve [pae standingPayloadType bytes]) _ _ _ _ _ hexact
      standingPayloadType bytes (signed_under.mpr ⟨rfl, rfl⟩) bytes_readAsReceipt
  refine ⟨hexact, receipt, checks, haccepted, ?_⟩
  rw [signed_under]
  rintro ⟨htype, _⟩
  exact absurd htype (by decide)

end Tracefold.Witness
