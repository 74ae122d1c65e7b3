import Mathlib.Tactic.Common
import Tracefold.Ideal.Cbor
import Tracefold.Ledger.Complete
import Tracefold.Ledger.Walks
import Tracefold.Witness.Receipt

/-! What a reader without the log learns of a receipt from a tree head: that the leaf is there, or
that it does not follow. -/

namespace Tracefold.Witness

open Ledger Library.Merkle

section Reading

variable [Canon] [CanonicalBytes] [Curve] [Cbor ReceiptPayload]
variable {receipt : Receipt} {key : VerifyingKeyRef} {payload : ReceiptPayload}
variable {anchor : Option Anchorage} {revocation : Option RevocationPolicy}

omit [Canon] [CanonicalBytes] in
theorem checkedPayload_eq_ok :
    receipt.checkedPayload key = .ok payload ↔
      receipt.envelope.verify key = .ok () ∧ Cbor.decode receipt.envelope.payload = some payload ∧
        payload.checkSchema = .ok () ∧ payload.keyId = key.keyId := by
  rw [Receipt.checkedPayload]
  cases hverify : receipt.envelope.verify key with
  | error error => simp [bind, Except.bind]
  | ok done =>
    cases hdecode : Cbor.decode (α := ReceiptPayload) receipt.envelope.payload with
    | none => simp [bind, Except.bind]
    | some decoded =>
      cases hschema : decoded.checkSchema with
      | error detail =>
        simp only [bind, Except.bind, hschema, reduceCtorEq, false_iff, not_and, Option.some.injEq]
        rintro _ rfl hok
        rw [hschema] at hok
        cases hok
      | ok done =>
        simp only [bind, Except.bind, hschema, Option.some.injEq, true_and]
        by_cases hkey : decoded.keyId = key.keyId
        · rw [if_neg (not_not.mpr hkey), Except.ok.injEq]
          constructor
          · rintro rfl
            exact ⟨rfl, hschema, hkey⟩
          · rintro ⟨rfl, _, _⟩
            rfl
        · rw [if_pos hkey]
          constructor
          · rintro ⟨⟩
          · rintro ⟨rfl, _, hsame⟩
            exact absurd hsame hkey

theorem checksOf_inclusion {checks : Checks} (h : checksOf receipt key anchor revocation = .ok checks) :
    ∃ payload, receipt.checkedPayload key = .ok payload ∧
      inclusionOf receipt payload anchor = .ok checks.inclusion := by
  rw [checksOf] at h
  cases hpayload : receipt.checkedPayload key with
  | error error =>
    rw [hpayload] at h
    cases h
  | ok payload =>
    rw [hpayload] at h
    simp only [bind, Except.bind] at h
    cases hinclusion : inclusionOf receipt payload anchor with
    | error error =>
      rw [hinclusion] at h
      cases h
    | ok inclusion =>
      rw [hinclusion] at h
      cases h
      exact ⟨payload, rfl, hinclusion⟩

theorem checksOf_of_inclusion {inclusion : InclusionCheck}
    (hpayload : receipt.checkedPayload key = .ok payload)
    (hinclusion : inclusionOf receipt payload anchor = .ok inclusion) :
    ∃ checks, checksOf receipt key anchor revocation = .ok checks ∧
      checks.inclusion = inclusion := by
  rw [checksOf, hpayload]
  simp only [bind, Except.bind, hinclusion]
  exact ⟨_, rfl, rfl⟩

omit [Curve] [Cbor ReceiptPayload] in
theorem inclusionOf_commit {anchorage : Anchorage} {inclusion : InclusionCheck}
    (hne : inclusion ≠ .notApplicable)
    (h : inclusionOf receipt payload (some anchorage) = .ok inclusion) :
    ∃ proof, payload.inclusionProof = some proof ∧
      verifyInclusionFrom payload receipt.envelope.payload proof anchorage = .ok inclusion := by
  unfold inclusionOf at h
  split at h
  next =>
    cases h
    exact absurd rfl hne
  next proof _ _ hproof hanchor =>
    cases hanchor
    exact ⟨proof, hproof, h⟩
  next hanchor => cases hanchor
  next => cases h

omit [Curve] [Cbor ReceiptPayload] in
theorem inclusionOf_of_commit {anchorage : Anchorage} {proof : InclusionProof}
    (hkind : payload.receiptKind = .commitReceipt) (hproof : payload.inclusionProof = some proof) :
    inclusionOf receipt payload (some anchorage) =
      verifyInclusionFrom payload receipt.envelope.payload proof anchorage := by
  unfold inclusionOf
  rw [hkind, hproof]

end Reading

section Verdict

variable [Canon] [CanonicalBytes] {payload : ReceiptPayload} {bytes : Bytes}
  {proof : InclusionProof}

/-- Through a bridge or without one, what is verified sits among the leaves of the tree head. -/
theorem sits_of_verifyInclusionFrom (hnode : Function.Injective2 Canon.node) {anchorage : Anchorage}
    {leaves : List Cid} (hroot : mth leaves = some anchorage.checkpoint.rootHash)
    (hsize : leaves.length = anchorage.checkpoint.treeSize)
    (h : verifyInclusionFrom payload bytes proof anchorage = .ok .verified) :
    ∃ digest, ledgerDigestOfSignedPayload bytes = some digest ∧
      leaves[proof.leafIndex]? =
        some (leafHash ⟨proof.leafIndex, digest, payload.transformation⟩) := by
  rw [mth_eq_some] at hroot
  rw [verifyInclusionFrom] at h
  cases hdigest : ledgerDigestOfSignedPayload bytes with
  | none =>
    rw [hdigest] at h
    cases h
  | some digest =>
    refine ⟨digest, rfl, ?_⟩
    rw [hdigest] at h
    dsimp only at h
    split_ifs at h with hsame hverify hless
    · rw [verifyInclusionOf, Option.any_eq_true] at hverify
      obtain ⟨reached, hreached, heq⟩ := hverify
      rw [of_decide_eq_true heq] at hreached
      exact (sits_of_rootOfInclusion hnode (hsize.trans hsame) hroot hreached).2.2
    · cases h
    · cases h
    · split at h
      next => cases h
      next root hreached =>
        split at h
        next => cases h
        next bridge _ =>
          split_ifs at h with hsizes
          · cases h
          obtain ⟨hold, hnew⟩ := not_or.mp hsizes
          rw [not_not] at hold hnew
          split at h
          next => cases h
          next holds hholds =>
            cases holds with
            | false => cases h
            | true =>
              have hprefix := older_of_verifyConsistency hnode (hsize.trans hnew.symm) hroot hholds
              have hlength : (leaves.take bridge.oldSize).length = proof.treeSize := by
                rw [List.length_take]
                omega
              obtain ⟨hlt, _, hsits⟩ := sits_of_rootOfInclusion hnode hlength hprefix hreached
              rwa [List.getElem?_take_of_lt (by omega)] at hsits

/-- The tree head of a log at a size, and a bridge the log gave out, if any. -/
structure Anchorage.OfLog (log : TileLog) (anchorage : Anchorage) : Prop where
  root : log.rootAt anchorage.checkpoint.treeSize = some anchorage.checkpoint.rootHash
  bridge : ∀ {bridge : ConsistencyProof}, anchorage.bridge = some bridge →
    ∃ oldSize newSize, proveConsistency log oldSize newSize = .ok bridge

/-- A payload of an entry of a log, with the proof the log gave out for it at a size. -/
structure ProvenBy (log : TileLog) (treeSize : ℕ) (payload : ReceiptPayload) (bytes : Bytes) :
    Prop where
  kind : payload.receiptKind = .commitReceipt
  entry : ∃ (index : ℕ) (entry : LedgerEntry) (proof : InclusionProof),
    payload.inclusionProof = some proof ∧ proveInclusionAt log index treeSize = .ok proof ∧
      log.entries[index]? = some entry ∧ entry.transformation = payload.transformation ∧
      ledgerDigestOfSignedPayload bytes = some entry.receiptDigest

omit [CanonicalBytes] in
theorem rootAt_inside {log : TileLog} (hlog : log.Kept) {treeSize : ℕ} {root : Cid}
    (h : log.rootAt treeSize = some root) : 0 < treeSize ∧ treeSize ≤ log.len := by
  rw [TileLog.rootAt, hlog.length] at h
  split_ifs at h
  omega

omit [CanonicalBytes] in
theorem proveInclusionAt_inside {log : TileLog} {index treeSize : ℕ}
    (h : proveInclusionAt log index treeSize = .ok proof) :
    index < treeSize ∧ treeSize ≤ log.len := by
  rw [proveInclusionAt] at h
  split_ifs at h
  omega

omit [CanonicalBytes] in
theorem proveConsistency_inside {log : TileLog} {oldSize newSize : ℕ} {bridge : ConsistencyProof}
    (h : proveConsistency log oldSize newSize = .ok bridge) :
    0 < oldSize ∧ oldSize ≤ newSize ∧ newSize ≤ log.len := by
  rw [proveConsistency] at h
  split_ifs at h <;> omega

theorem verifyInclusionFrom_ofLog {log : TileLog} (hlog : log.Kept) {treeSize : ℕ}
    {anchorage : Anchorage} (hanchor : anchorage.OfLog log)
    (hproven : ProvenBy log treeSize payload bytes) (hproof : payload.inclusionProof = some proof) :
    ∃ answer, verifyInclusionFrom payload bytes proof anchorage = .ok answer ∧
      (answer = .verified ∨ answer = .unbridged) ∧
      (anchorage.checkpoint.treeSize = treeSize ∨
        treeSize < anchorage.checkpoint.treeSize ∧
          (∃ bridge, anchorage.bridge = some bridge ∧
            proveConsistency log treeSize anchorage.checkpoint.treeSize = .ok bridge) →
        answer = .verified) := by
  obtain ⟨index, entry, proof', hproof', hproves, hentry, htransformation, hdigest⟩ := hproven.entry
  obtain rfl := Option.some.inj (hproof.symm.trans hproof')
  obtain ⟨hindex, hsize⟩ := proveInclusionAt_inside hproves
  obtain ⟨proof', root, entry', hproves', hproofIndex, hproofSize, _, hroot, hentry', hentryIndex,
    hreached⟩ := hlog.rootOfInclusion hindex hsize
  obtain rfl := Except.ok.inj (hproves.symm.trans hproves')
  obtain rfl := Option.some.inj (hentry.symm.trans hentry')
  have hleaf : entry.leaf = ⟨proof.leafIndex, entry.receiptDigest, payload.transformation⟩ := by
    rw [LedgerEntry.leaf, hproofIndex, ← htransformation, hentryIndex]
  rw [hleaf] at hreached
  have hanchorRoot := hanchor.root
  rw [verifyInclusionFrom, hdigest]
  dsimp only
  rw [hproofSize]
  by_cases hsame : anchorage.checkpoint.treeSize = treeSize
  · rw [hsame, hroot] at hanchorRoot
    rw [if_pos hsame, verifyInclusionOf, hreached, Option.some.inj hanchorRoot]
    exact ⟨.verified, by simp, .inl rfl, fun _ => rfl⟩
  rw [if_neg hsame]
  by_cases hless : anchorage.checkpoint.treeSize < treeSize
  · rw [if_pos hless]
    refine ⟨.unbridged, rfl, .inr rfl, ?_⟩
    rintro (heq | ⟨hlt, _⟩) <;> omega
  rw [if_neg hless, hreached]
  dsimp only
  cases hbridge : anchorage.bridge with
  | none =>
    refine ⟨.unbridged, rfl, .inr rfl, ?_⟩
    rintro (heq | ⟨_, bridge, hsome, _⟩)
    · exact absurd heq hsame
    · cases hsome
  | some bridge =>
    obtain ⟨oldSize, newSize, hgave⟩ := hanchor.bridge hbridge
    obtain ⟨hpos, hle, hnewSize⟩ := proveConsistency_inside hgave
    obtain ⟨bridge', oldRoot, newRoot, hgave', hold, hnew, holdRoot, hnewRoot, hholds⟩ :=
      hlog.verifyConsistency hpos hle hnewSize
    obtain rfl := Except.ok.inj (hgave.symm.trans hgave')
    dsimp only
    by_cases hsizes : bridge.oldSize ≠ treeSize ∨ bridge.newSize ≠ anchorage.checkpoint.treeSize
    · rw [if_pos hsizes]
      refine ⟨.unbridged, rfl, .inr rfl, ?_⟩
      rintro (heq | ⟨hlt, other, hother, hfits⟩)
      · exact absurd heq hsame
      · cases hother
        obtain ⟨_, _, _, hfits', hold', hnew', _⟩ :=
          hlog.verifyConsistency (by omega) hlt.le (rootAt_inside hlog hanchorRoot).2
        obtain rfl := Except.ok.inj (hfits.symm.trans hfits')
        exact absurd hsizes (by rw [hold', hnew']; simp)
    · rw [if_neg hsizes]
      obtain ⟨heqOld, heqNew⟩ := not_or.mp hsizes
      rw [not_not] at heqOld heqNew
      rw [← hold, heqOld, hroot] at holdRoot
      rw [← hnew, heqNew, hanchorRoot] at hnewRoot
      rw [Option.some.inj holdRoot, Option.some.inj hnewRoot, hholds]
      exact ⟨.verified, rfl, .inl rfl, fun _ => rfl⟩

end Verdict

/-- What is verified offline is in the tree of the head; and a receipt the log proved is never
refuted by a head of the log, and is verified by one that its size is or is bridged to. -/
theorem offline_inclusion_is_exact [Canon] [CanonicalBytes] [Curve] [Cbor ReceiptPayload]
    (hnode : Function.Injective2 Canon.node) (receipt : Receipt) (key : VerifyingKeyRef)
    (anchorage : Anchorage) (revocation : Option RevocationPolicy) :
    (∀ (leaves : List Cid) (checks : Checks),
      mth leaves = some anchorage.checkpoint.rootHash →
      leaves.length = anchorage.checkpoint.treeSize →
      verifyOfflineAgainst receipt key (some anchorage) revocation = .ok checks →
      checks.inclusion = .verified →
      ∃ (payload : ReceiptPayload) (proof : InclusionProof) (digest : Cid),
        Cbor.decode receipt.envelope.payload = some payload ∧
        payload.inclusionProof = some proof ∧
        ledgerDigestOfSignedPayload receipt.envelope.payload = some digest ∧
        leaves[proof.leafIndex]? =
          some (leafHash ⟨proof.leafIndex, digest, payload.transformation⟩)) ∧
    (∀ (log : TileLog) (treeSize : ℕ) (payload : ReceiptPayload), log.Built →
      Cbor.decode receipt.envelope.payload = some payload →
      ProvenBy log treeSize payload receipt.envelope.payload → anchorage.OfLog log →
      (∀ checks, verifyOfflineAgainst receipt key (some anchorage) revocation = .ok checks →
        checks.inclusion ≠ .refuted) ∧
      (receipt.checkedPayload key = .ok payload →
        anchorage.checkpoint.treeSize = treeSize ∨ treeSize < anchorage.checkpoint.treeSize ∧
          (∃ bridge, anchorage.bridge = some bridge ∧
            proveConsistency log treeSize anchorage.checkpoint.treeSize = .ok bridge) →
        ∃ checks, verifyOfflineAgainst receipt key (some anchorage) revocation = .ok checks ∧
          checks.inclusion = .verified)) := by
  constructor
  · intro leaves checks hroot hsize hchecks hverified
    obtain ⟨payload, hpayload, hinclusion⟩ := checksOf_inclusion hchecks
    obtain ⟨_, hdecode, _, _⟩ := checkedPayload_eq_ok.mp hpayload
    rw [hverified] at hinclusion
    obtain ⟨proof, hproof, hfrom⟩ := inclusionOf_commit (by simp) hinclusion
    obtain ⟨digest, hdigest, hsits⟩ := sits_of_verifyInclusionFrom hnode hroot hsize hfrom
    exact ⟨payload, proof, digest, hdecode, hproof, hdigest, hsits⟩
  · intro log treeSize payload hlog hdecode hproven hanchor
    obtain ⟨_, _, proof, hproof, _⟩ := hproven.entry
    obtain ⟨answer, hanswer, hknown, hverified⟩ :=
      verifyInclusionFrom_ofLog hlog.kept hanchor hproven hproof
    rw [← inclusionOf_of_commit hproven.kind hproof] at hanswer
    constructor
    · intro checks hchecks
      obtain ⟨payload', hpayload', hinclusion⟩ := checksOf_inclusion hchecks
      obtain ⟨_, hdecode', _, _⟩ := checkedPayload_eq_ok.mp hpayload'
      obtain rfl := Option.some.inj (hdecode.symm.trans hdecode')
      rw [← Except.ok.inj (hanswer.symm.trans hinclusion)]
      rcases hknown with rfl | rfl
      · simp
      · simp
    · intro hpayload hsizes
      obtain ⟨checks, hchecks, heq⟩ := checksOf_of_inclusion hpayload hanswer
      exact ⟨checks, hchecks, heq.trans (hverified hsizes)⟩

namespace Sample

open Tracefold.Ideal

/-- A signature is valid for what was signed. -/
@[reducible]
def curve (signed : List Bytes) : Curve where
  sign _ _ := List.replicate signatureLength 0
  verifyStrict _ message _ := message ∈ signed

/-- The payload of a first commit, with the proof of its leaf in a log of one entry. -/
def payload : ReceiptPayload where
  keyId := "k"
  verdict := some ⟨.Admit, ⟨[7]⟩⟩
  enforced := true
  confinement := none
  catalogueHash := none
  readSet := none
  reversibility := none
  undo := none
  determinismBoundary := attestedBoundary .deterministicReplay true
  receiptKind := .commitReceipt
  canonicalCid := ⟨[1]⟩
  inverseDelta := none
  transformation := ⟨[1]⟩
  inclusionProof := some ⟨0, 1, []⟩
  fingerprintScope := ""
  failPostureEngaged := false
  preconditionFingerprint := ⟨[2]⟩
  postconditionFingerprint := none
  payloadVersion := none
  engineVersion := none

def bytes : Bytes := bytesOf payload

def key : VerifyingKeyRef := ⟨"k", [1]⟩

def receipt : Receipt :=
  ⟨@DsseEnvelope.sign (curve [pae receiptPayloadType bytes]) ⟨receiptPayloadType, bytes, []⟩ [1] "k",
    0⟩

/-- What the ledger keeps of the payload. -/
noncomputable def digest : Cid :=
  ⟨(bytes.take (proofSpan payload).1 ++ [cborNull] ++ bytes.drop (proofSpan payload).2).map
    UInt8.toNat⟩

/-- The log, which has grown since. -/
noncomputable def log : TileLog := (TileLog.new.append ⟨[1]⟩ digest 0).append ⟨[3]⟩ ⟨[4]⟩ 1

theorem decode_bytes : Cbor.decode bytes = some payload := LawfulCbor.decode_encode rfl

theorem ledgerDigest_bytes : ledgerDigestOfSignedPayload bytes = some digest := by
  rw [ledgerDigestOfSignedPayload]
  simp only [CanonicalBytes.valueSpan, decode_bytes, Option.map_some, CanonicalBytes.cid]
  rfl

theorem log_built : log.Built := .append (.append .new ⟨[1]⟩ digest 0) ⟨[3]⟩ ⟨[4]⟩ 1

theorem payload_proven : ProvenBy log 1 payload bytes where
  kind := rfl
  entry := ⟨0, _, _, rfl, rfl, rfl, rfl, ledgerDigest_bytes⟩

end Sample

open Tracefold.Ideal Sample in
theorem offline_inclusion_is_exact_bridged :
    ∃ anchorage : Anchorage, anchorage.checkpoint.treeSize = 2 ∧ anchorage.OfLog log ∧
      ∃ checks, @verifyOfflineAgainst _ _ (curve [pae receiptPayloadType bytes]) _ receipt key
          (some anchorage) none = .ok checks ∧ checks.inclusion = .verified ∧
        log.leaves[0]? = some (leafHash ⟨0, digest, ⟨[1]⟩⟩) := by
  obtain ⟨bridge, _, root, hbridge, _, _, _, hroot, _⟩ :=
    log_built.kept.verifyConsistency Nat.one_pos (Nat.le_succ 1) (Nat.le_refl 2)
  let anchorage : Anchorage := ⟨⟨"", 2, root, 0, ⟨"", []⟩⟩, some bridge⟩
  have hanchor : anchorage.OfLog log := ⟨hroot, fun h => ⟨1, 2, by rw [← Option.some.inj h, hbridge]⟩⟩
  have hpayload : @Receipt.checkedPayload (curve [pae receiptPayloadType bytes]) _ receipt key =
      .ok payload := by
    rw [@checkedPayload_eq_ok (curve [pae receiptPayloadType bytes])]
    refine ⟨?_, decode_bytes, rfl, rfl⟩
    rw [@verify_eq_ok (curve [pae receiptPayloadType bytes])]
    exact ⟨_, rfl, rfl, decide_eq_true (List.mem_singleton_self _)⟩
  obtain ⟨hsound, hcomplete⟩ := @offline_inclusion_is_exact _ _
    (curve [pae receiptPayloadType bytes]) _ node_injective receipt key anchorage none
  obtain ⟨checks, hchecks, hverified⟩ := (hcomplete log 1 payload log_built decode_bytes
    payload_proven hanchor).2 hpayload (.inr ⟨Nat.lt_succ_self 1, bridge, rfl, hbridge⟩)
  obtain ⟨root', hroot', hleaves⟩ := log_built.kept.folded.rootAt Nat.two_pos (Nat.le_refl 2)
  obtain rfl := Option.some.inj (hroot.symm.trans hroot')
  obtain ⟨_, proof, _, hdecode, hproof, hdigest, hsits⟩ :=
    hsound log.leaves checks (mth_eq_some.mpr hleaves) rfl hchecks hverified
  obtain rfl := Option.some.inj (decode_bytes.symm.trans hdecode)
  obtain rfl := Option.some.inj (ledgerDigest_bytes.symm.trans hdigest)
  obtain rfl := Option.some.inj hproof
  exact ⟨anchorage, rfl, hanchor, checks, hchecks, hverified, hsits⟩

end Tracefold.Witness
