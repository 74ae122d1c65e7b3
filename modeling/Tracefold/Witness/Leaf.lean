import Mathlib.Tactic.Common
import Tracefold.Cbor.Serde
import Tracefold.Witness.Receipt

/-! The digest of a receipt in the ledger, from the payload that was built and from the bytes that
were signed. -/

namespace Tracefold.Witness

open Library
open DagCbor (Value Denotes encode encode_eq_some mapOf clear clear_fst optionValue scanStrict
  scanStrict_ok valueSpan_map spanIn_none sortBy_clear withNull withNull_eq map_clear_of_fresh
  map_clear_eq_iff SameBut)

section Payload

/-! What serde makes of a payload: a struct is a map of its members, a variant its name, or a map of
its name and what it holds. -/

def cidValue (cid : Cid) : Value := .bytes (cid.digest.map UInt8.ofNat)

def verdictKindName : VerdictKind → String
  | .Admit => "Admit"
  | .Deny => "Deny"
  | .Escalate => "Escalate"

def verdictValue (verdict : VerdictSummary) : Value :=
  mapOf [("kind", .text (verdictKindName verdict.kind)), ("proof_digest", cidValue verdict.proofDigest)]

def confinementValue (context : ConfinementContext) : Value :=
  mapOf [("kernel_confined", .bool context.kernelConfined),
    ("ruleset_hash", optionValue .text context.rulesetHash)]

def readEntryValue (entry : ReadEntry) : Value :=
  mapOf [("digest", cidValue entry.digest), ("locator", .text entry.locator)]

def readSetValue : ReadSet → Value
  | .perRead entries => mapOf [("PerRead", .array (entries.map readEntryValue))]
  | .perEffectRoot root leafCount =>
    mapOf [("PerEffectRoot", mapOf [("root", cidValue root), ("leaf_count", .int leafCount)])]
  | .nothing => .text "Nothing"
  | .noEscrowRecord => .text "NoEscrowRecord"
  | .readsNotJournalled => .text "ReadsNotJournalled"

def reversibilityName : Reversibility → String
  | .true => "True"
  | .false => "False"
  | .unknown => "Unknown"

def undoValue (undo : UndoAttestation) : Value :=
  mapOf [("undoes", cidValue undo.undoes),
    ("witness",
      match undo.witness with
      | .attested => .text "Attested"
      | .unobservable reason => mapOf [("Unobservable", mapOf [("reason", .text reason)])])]

def stageName : BoundaryStage → String
  | .deterministicReplay => "DeterministicReplay"
  | .llmOriginated => "LlmOriginated"
  | .unknown => "Unknown"

def boundaryValue : DeterminismBoundary → Value
  | .deterministicReplay => .text "DeterministicReplay"
  | .llmOriginated => .text "LlmOriginated"
  | .mixed inputGeneration verdictDerivation =>
    mapOf [("Mixed", mapOf [("input_generation", .text (stageName inputGeneration)),
      ("verdict_derivation", .text (stageName verdictDerivation))])]
  | .unknown => .text "Unknown"

def receiptKindName : ReceiptKind → String
  | .verdictReceipt => "VerdictReceipt"
  | .commitReceipt => "CommitReceipt"

def inclusionProofValue (proof : InclusionProof) : Value :=
  mapOf [("leaf_index", .int proof.leafIndex), ("tree_size", .int proof.treeSize),
    ("audit_path", .array (proof.auditPath.map cidValue))]

/-- The members of a payload, each at its key; one that is absent is a null there. -/
def payloadEntries (p : ReceiptPayload) : List (String × Value) :=
  [("key_id", .text p.keyId),
    ("verdict", optionValue verdictValue p.verdict),
    ("enforced", .bool p.enforced),
    ("confinement", optionValue confinementValue p.confinement),
    ("catalogue_hash", optionValue .text p.catalogueHash),
    ("read_set", optionValue readSetValue p.readSet),
    ("reversibility", optionValue (.text ∘ reversibilityName) p.reversibility),
    ("undo", optionValue undoValue p.undo),
    ("determinism_boundary", boundaryValue p.determinismBoundary),
    ("receipt_kind", .text (receiptKindName p.receiptKind)),
    ("canonical_cid", cidValue p.canonicalCid),
    ("inverse_delta", optionValue cidValue p.inverseDelta),
    ("transformation", cidValue p.transformation),
    ("inclusion_proof", optionValue inclusionProofValue p.inclusionProof),
    ("fingerprint_scope", .text p.fingerprintScope),
    ("fail_posture_engaged", .bool p.failPostureEngaged),
    ("precondition_fingerprint", cidValue p.preconditionFingerprint),
    ("postcondition_fingerprint", optionValue cidValue p.postconditionFingerprint),
    ("payload_version", optionValue (fun version => .int version) p.payloadVersion),
    ("engine_version", optionValue .text p.engineVersion)]

/-- `cbor::encode` of a payload. -/
def encodePayload (p : ReceiptPayload) : Option Bytes := encode (mapOf (payloadEntries p))

end Payload

section Roads

variable (hash : Bytes → Cid)

/-- `ReceiptPayload::ledger_digest`. -/
def ledgerDigest (p : ReceiptPayload) : Option Cid :=
  (encodePayload { p with inclusionProof := none }).map hash

/-- `cbor::value_span`, and `cid::of_canonical_bytes` by a hash. -/
@[reducible]
def canonicalBytes : CanonicalBytes where
  valueSpan bytes key :=
    match DagCbor.valueSpan bytes key with
    | .ok span => some span
    | .error _ => none
  cid bytes := if scanStrict bytes = .ok () then some (hash bytes) else none

/-- `ledger_digest_of_signed_payload`, over the readers of gx-canon. -/
def signedDigest (bytes : Bytes) : Option Cid := @ledgerDigestOfSignedPayload (canonicalBytes hash) bytes

variable {hash} {bytes : Bytes} {entries : List (String × Value)}

theorem signedDigest_eq (h : Denotes bytes (.map entries)) :
    signedDigest hash bytes =
      some (hash (Value.map (entries.map (clear inclusionProofKey))).encode) := by
  have haudit : ∀ {b : Bytes} {v : Value}, Denotes b v →
      (if scanStrict b = .ok () then some (hash b) else none) = some (hash b) := fun hb =>
    if_pos (scanStrict_ok.mpr ⟨_, hb⟩)
  have hcleared := h.cleared inclusionProofKey
  have hspan := valueSpan_map h inclusionProofKey
  unfold signedDigest ledgerDigestOfSignedPayload
  simp only [CanonicalBytes.valueSpan, CanonicalBytes.cid]
  cases hfound : DagCbor.valueSpan bytes inclusionProofKey with
  | error e =>
    rw [hfound] at hspan
    cases hspan
  | ok found =>
    cases found with
    | none =>
      rw [hspan] at hfound
      have hfresh := spanIn_none.mp (Except.ok.inj hfound)
      rw [map_clear_of_fresh hfresh, h.encode]
      exact haudit h
    | some span =>
      have hnull := withNull_eq h hfound
      rw [← hnull] at hcleared ⊢
      exact haudit hcleared

theorem payloadEntries_clear (p : ReceiptPayload) :
    payloadEntries { p with inclusionProof := none } =
      (payloadEntries p).map (clear inclusionProofKey) := by
  simp [payloadEntries, clear, inclusionProofKey, optionValue]

/-- The road from the signed bytes leads where the one from the payload does. -/
theorem signedDigest_encodePayload {p : ReceiptPayload} (h : encodePayload p = some bytes) :
    signedDigest hash bytes = ledgerDigest hash p := by
  have hdenotes : Denotes bytes (.map (Sort.sortBy DagCbor.compareKeys (payloadEntries p))) :=
    encode_eq_some.mp h
  rw [signedDigest_eq hdenotes, ledgerDigest, encodePayload, payloadEntries_clear, mapOf, sortBy_clear,
    encode_eq_some.mpr (hdenotes.cleared inclusionProofKey)]
  rfl

end Roads

/-- The bytes that are hashed for the ledger: the signed ones with a null for the proof. -/
def clearedBytes (bytes : Bytes) : Bytes :=
  match DagCbor.valueSpan bytes inclusionProofKey with
  | .ok (some span) => withNull bytes span
  | _ => bytes

theorem denotes_clearedBytes {bytes : Bytes} {entries : List (String × Value)}
    (h : Denotes bytes (.map entries)) :
    Denotes (clearedBytes bytes) (.map (entries.map (clear inclusionProofKey))) := by
  have hcleared := h.cleared inclusionProofKey
  have hspan := valueSpan_map h inclusionProofKey
  unfold clearedBytes
  split
  next span hfound => rwa [withNull_eq h hfound]
  next hnone =>
    cases hfound : DagCbor.spanIn inclusionProofKey (DagCbor.headBytes 5 entries.length).length entries with
    | none => rwa [map_clear_of_fresh (spanIn_none.mp hfound)]
    | some span => exact absurd (hspan.trans (congrArg _ hfound)) (hnone span)

/-- Both roads to a ledger leaf lead to one digest. It is over the canonical bytes of the payload with
its inclusion proof cleared, and where the hash has no collisions it tells maps apart that differ in
anything else. -/
theorem ledger_roads_agree (hash : Bytes → Cid) :
    (∀ p bytes, encodePayload p = some bytes →
      signedDigest hash bytes = ledgerDigest hash p ∧ (ledgerDigest hash p).isSome) ∧
    (∀ bytes entries, Denotes bytes (.map entries) →
      signedDigest hash bytes = some (hash (clearedBytes bytes)) ∧
        scanStrict (clearedBytes bytes) = .ok ()) ∧
    (Function.Injective hash → ∀ bytes bytes' entries entries', Denotes bytes (.map entries) →
      Denotes bytes' (.map entries') →
        (signedDigest hash bytes = signedDigest hash bytes' ↔
          SameBut inclusionProofKey entries entries')) := by
  refine ⟨fun p bytes h => ?_, fun bytes entries h => ?_, fun hhash bytes bytes' entries entries' h h' => ?_⟩
  · have hroad := @signedDigest_encodePayload hash _ _ h
    have hdenotes : Denotes bytes (.map _) := encode_eq_some.mp h
    refine ⟨hroad, ?_⟩
    rw [← hroad, signedDigest_eq hdenotes]
    rfl
  · have hcleared := denotes_clearedBytes h
    refine ⟨?_, scanStrict_ok.mpr ⟨_, hcleared⟩⟩
    rw [signedDigest_eq h, hcleared.encode]
  · rw [signedDigest_eq h, signedDigest_eq h', Option.some.injEq, hhash.eq_iff,
      ← map_clear_eq_iff h.pairwise h'.pairwise]
    constructor
    · intro heq
      have hmaps := DagCbor.Value.encode_injective (h.cleared _).canonical (h'.cleared _).canonical heq
      exact Value.map.inj hmaps
    · intro heq
      rw [heq]

/-- A payload with a proof and with none of the members that may be absent. -/
def leanPayload : ReceiptPayload where
  keyId := "k"
  verdict := none
  enforced := true
  confinement := none
  catalogueHash := none
  readSet := none
  reversibility := none
  undo := none
  determinismBoundary := .unknown
  receiptKind := .commitReceipt
  canonicalCid := ⟨[1]⟩
  inverseDelta := none
  transformation := ⟨[2]⟩
  inclusionProof := some ⟨0, 1, []⟩
  fingerprintScope := "s"
  failPostureEngaged := false
  preconditionFingerprint := ⟨[3]⟩
  postconditionFingerprint := none
  payloadVersion := some 1
  engineVersion := none

/-- Two maps that differ in their proofs alone. -/
def provedBy (n : ℤ) : List (String × Value) := [(inclusionProofKey, .int n)]

theorem ledger_roads_agree_lean :
    (∃ bytes, encodePayload leanPayload = some bytes ∧
      signedDigest (fun b => ⟨b.map UInt8.toNat⟩) bytes =
        ledgerDigest (fun b => ⟨b.map UInt8.toNat⟩) leanPayload) ∧
    signedDigest (fun b => ⟨b.map UInt8.toNat⟩) (Value.map (provedBy 1)).encode =
      signedDigest (fun b => ⟨b.map UInt8.toNat⟩) (Value.map (provedBy 2)).encode := by
  have hhash : Function.Injective fun b : Bytes => (⟨b.map UInt8.toNat⟩ : Cid) := by
    intro a b h
    exact List.map_injective_iff.mpr (fun _ _ => UInt8.toNat_inj.mp) (Cid.mk.inj h)
  obtain ⟨hroads, -, htells⟩ := ledger_roads_agree fun b => ⟨b.map UInt8.toNat⟩
  constructor
  · have hsome : (encodePayload leanPayload).isSome := by decide
    obtain ⟨bytes, hbytes⟩ := Option.isSome_iff_exists.mp hsome
    exact ⟨bytes, hbytes, (hroads _ _ hbytes).1⟩
  · have hone : Denotes (Value.map (provedBy 1)).encode (.map (provedBy 1)) :=
      encode_eq_some.mp (if_pos (by decide))
    have htwo : Denotes (Value.map (provedBy 2)).encode (.map (provedBy 2)) :=
      encode_eq_some.mp (if_pos (by decide))
    apply (htells hhash _ _ _ _ hone htwo).mpr
    constructor
    · intro other v hne
      simp [provedBy, hne]
    · simp [provedBy]

end Tracefold.Witness
