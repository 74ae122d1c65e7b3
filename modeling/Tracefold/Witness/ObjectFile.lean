import Mathlib.Tactic.Common
import Tracefold.Ideal.Cbor
import Tracefold.Witness.DesignToken
import Tracefold.Witness.Receipt

/-! The `.gx` object file: a header that names a kind and claims an identity, and the document of
that kind. -/

namespace Tracefold.Witness.GxFile

open Locator (Text)
open Spelling (Digest toText)
open DagCbor (FromSlice LawfulFromSlice Denotes Value beBytes beNat scanStrict scanStrict_ok utf8)

/-- `MAGIC`, `FORMAT_VERSION` and `HEADER_LEN`. -/
def magic : Bytes := [0x67, 0x78]

def formatVersion : ℕ := 1

def headerLen : ℕ := 38

inductive GxKind where
  | receipt
  | candidate
  | transformation
  | ledgerProof
  | consistencyProof
  | checkpoint
  | verdictCheckpoint
  | escalationTicket
  | attachSource
  | engineJournal
  | ledgerLeaf
  | escrowedInverse
  | designToken
  deriving DecidableEq, Repr

namespace GxKind

/-- `GxKind::REGISTRY`. -/
def registry : List GxKind :=
  [.receipt, .candidate, .transformation, .ledgerProof, .consistencyProof, .checkpoint,
    .verdictCheckpoint, .escalationTicket, .attachSource, .engineJournal, .ledgerLeaf,
    .escrowedInverse, .designToken]

/-- The numbers 13 and 14 are of no kind. -/
def code : GxKind → ℕ
  | .receipt => 1
  | .candidate => 2
  | .transformation => 3
  | .ledgerProof => 4
  | .consistencyProof => 5
  | .checkpoint => 6
  | .verdictCheckpoint => 7
  | .escalationTicket => 8
  | .attachSource => 9
  | .engineJournal => 10
  | .ledgerLeaf => 11
  | .escrowedInverse => 12
  | .designToken => 15

def fromCode (n : ℕ) : Option GxKind := registry.find? fun kind => kind.code = n

def isShipped : GxKind → Bool
  | .receipt => true
  | .designToken => true
  | _ => false

end GxKind

inductive KindWitness where
  | payloadType (value : String)
  | inBandTag (value : String)
  deriving DecidableEq, Repr

def KindWitness.value : KindWitness → String
  | .payloadType value => value
  | .inBandTag value => value

def GxKind.bodyWitness : GxKind → Option KindWitness
  | .receipt => some (.payloadType receiptPayloadType)
  | .designToken => some (.inBandTag designTokenTag)
  | _ => none

/-- What a refusal says in the words of a codec, or of the predicate of a token. -/
inductive Detail where
  | codec
  | token (refusal : TokenRefusal)
  deriving DecidableEq, Repr

/-- What was found in place of a header. -/
inductive NotHeader where
  | length (found : ℕ)
  | magic (found : Bytes)
  deriving DecidableEq, Repr

inductive Refusal where
  | notGxObjectFile (detail : NotHeader)
  | formatVersion (found : ℕ)
  | unknownKind (code : ℕ)
  | kindNotShipped (kind : GxKind)
  | body (detail : Detail)
  | payloadType (expected found : String)
  | bodyNotCanonical (detail : Option DagCbor.Error)
  | kindTag (expected found : String)
  | identityMismatch (claimed recomputed : Text)

inductive GxBody where
  | receipt (receipt : Receipt)
  | designToken (token : DesignToken)
  deriving DecidableEq, Repr

def GxBody.kind : GxBody → GxKind
  | .receipt _ => .receipt
  | .designToken _ => .designToken

structure GxObjectFile where
  formatVersion : ℕ
  kind : GxKind
  cid : Digest
  body : GxBody

/-- BLAKE3. -/
class Hash where
  digest : Bytes → Digest

/-- `serde_json` for a receipt. -/
class Json where
  toVec : Receipt → Option Bytes
  fromSlice : Bytes → Option Receipt

/-- A receipt is read back, and no JSON document starts with a byte outside ASCII. -/
class LawfulJson [Json] : Prop where
  fromSlice_toVec : ∀ receipt, ∃ document,
    Json.toVec receipt = some document ∧ Json.fromSlice document = some receipt
  ascii : ∀ {document receipt}, Json.fromSlice document = some receipt →
    ∃ first rest, document = first :: rest ∧ first < 0x80

section Write

variable [Hash]

/-- `body_cid`. -/
def bodyCid (body : Bytes) : Except Refusal Digest :=
  match scanStrict body with
  | .error detail => .error (.bodyNotCanonical (some detail))
  | .ok () => .ok (Hash.digest body)

omit [Hash] in
/-- `frame`. -/
def frame (kind : GxKind) (cid : Digest) (document : Bytes) : Bytes :=
  magic ++ beBytes 2 formatVersion ++ beBytes 2 kind.code ++ cid.toList ++ document

/-- `write_receipt`. -/
def writeReceipt [Json] (receipt : Receipt) : Except Refusal Bytes :=
  match bodyCid receipt.envelope.payload with
  | .error refusal => .error refusal
  | .ok cid =>
    match Json.toVec receipt with
    | none => .error (.body .codec)
    | some document => .ok (frame .receipt cid document)

omit [Hash] in
/-- `check_design_token`. -/
def checkDesignToken (token : DesignToken) : Except Refusal Unit :=
  match GxKind.designToken.bodyWitness with
  | none => .error (.kindNotShipped .designToken)
  | some witness =>
    if token.gxKind ≠ witness.value then .error (.kindTag witness.value token.gxKind)
    else
      match token.check with
      | .error refusal => .error (.body (.token refusal))
      | .ok () => .ok ()

/-- `write_design_token`. -/
def writeDesignToken (token : DesignToken) : Except Refusal Bytes :=
  match checkDesignToken token with
  | .error refusal => .error refusal
  | .ok () =>
    match DagCbor.encode token.value with
    | none => .error (.bodyNotCanonical none)
    | some document =>
      match bodyCid document with
      | .error refusal => .error refusal
      | .ok cid => .ok (frame .designToken cid document)

/-- The writer of a body's kind. -/
def write [Json] : GxBody → Except Refusal Bytes
  | .receipt receipt => writeReceipt receipt
  | .designToken token => writeDesignToken token

end Write

section Read

variable [Hash] [Json] [FromSlice]

/-- The token of a document: `cbor::decode`. -/
def tokenOf (document : Bytes) : Option DesignToken := (DagCbor.decode document).bind ofDesignToken

/-- What `read` does for a kind: the body, and the identity of it. -/
def readBody : GxKind → Bytes → Except Refusal (GxBody × Digest)
  | .receipt, document =>
    match Json.fromSlice document with
    | none => .error (.body .codec)
    | some receipt =>
      if receipt.envelope.payloadType ≠ receiptPayloadType then
        .error (.payloadType receiptPayloadType receipt.envelope.payloadType)
      else
        match bodyCid receipt.envelope.payload with
        | .error refusal => .error refusal
        | .ok cid => .ok (.receipt receipt, cid)
  | .designToken, document =>
    match tokenOf document with
    | none => .error (.body .codec)
    | some token =>
      match checkDesignToken token with
      | .error refusal => .error refusal
      | .ok () =>
        match bodyCid document with
        | .error refusal => .error refusal
        | .ok cid => .ok (.designToken token, cid)
  | kind, _ => .error (.kindNotShipped kind)

/-- The digest that a header claims. -/
def claimedOf (bytes : Bytes) : Bytes := (bytes.take headerLen).drop 6

/-- `read`. -/
def read (bytes : Bytes) : Except Refusal GxObjectFile :=
  if bytes.length < headerLen then .error (.notGxObjectFile (.length bytes.length))
  else if bytes.take 2 ≠ magic then .error (.notGxObjectFile (.magic (bytes.take 2)))
  else
    let version := beNat ((bytes.take 4).drop 2)
    if version ≠ formatVersion then .error (.formatVersion version)
    else
      let code := beNat ((bytes.take 6).drop 4)
      match GxKind.fromCode code with
      | none => .error (.unknownKind code)
      | some kind =>
        if !kind.isShipped then .error (.kindNotShipped kind)
        else
          match readBody kind (bytes.drop headerLen) with
          | .error refusal => .error refusal
          | .ok (body, recomputed) =>
            if recomputed.toList ≠ claimedOf bytes then
              .error (.identityMismatch (toText (Vector.ofFn fun i => (claimedOf bytes).getD i 0))
                (toText recomputed))
            else .ok ⟨version, kind, recomputed, body⟩

end Read

section Frame

variable {kind kind' : GxKind} {cid cid' : Digest} {document document' : Bytes}

theorem fromCode_eq_some {n : ℕ} : GxKind.fromCode n = some kind ↔ n = kind.code := by
  constructor
  · intro h
    have hcode := List.find?_some h
    exact (decide_eq_true_iff.mp hcode).symm
  · rintro rfl
    cases kind <;> decide

theorem code_lt (kind : GxKind) : kind.code < 256 ^ 2 := by
  cases kind <;> decide

theorem take_append_drop_take {bytes : Bytes} {m n : ℕ} (h : m ≤ n) :
    bytes.take m ++ (bytes.take n).drop m = bytes.take n := by
  have htake : (bytes.take n).take m = bytes.take m := by
    rw [List.take_take, Nat.min_eq_left h]
  rw [← htake, List.take_append_drop]

theorem parts_eq (bytes : Bytes) :
    bytes.take 2 ++ (bytes.take 4).drop 2 ++ (bytes.take 6).drop 4 ++ claimedOf bytes ++
      bytes.drop headerLen = bytes := by
  rw [take_append_drop_take (by decide), take_append_drop_take (by decide), claimedOf,
    take_append_drop_take (by decide), List.take_append_drop]

theorem parts_of {a b c d rest bytes : Bytes} (ha : a.length = 2) (hb : b.length = 2)
    (hc : c.length = 2) (hd : d.length = 32) (hbytes : a ++ b ++ c ++ d ++ rest = bytes) :
    bytes.take 2 = a ∧ (bytes.take 4).drop 2 = b ∧ (bytes.take 6).drop 4 = c ∧
      claimedOf bytes = d ∧ bytes.drop headerLen = rest := by
  have hlength : 38 ≤ bytes.length := by
    simp only [← hbytes, List.length_append]
    omega
  have heq := (parts_eq bytes).trans hbytes.symm
  simp only [List.append_assoc] at heq
  obtain ⟨h1, heq⟩ := List.append_inj heq (by rw [List.length_take, ha]; omega)
  obtain ⟨h2, heq⟩ := List.append_inj heq (by rw [List.length_drop, List.length_take, hb]; omega)
  obtain ⟨h3, heq⟩ := List.append_inj heq (by rw [List.length_drop, List.length_take, hc]; omega)
  obtain ⟨h4, heq⟩ := List.append_inj heq (by
    rw [claimedOf, List.length_drop, List.length_take, hd, headerLen]; omega)
  exact ⟨h1, h2, h3, h4, heq⟩

theorem parts_frame (kind : GxKind) (cid : Digest) (document : Bytes) :
    (frame kind cid document).take 2 = magic ∧
      ((frame kind cid document).take 4).drop 2 = beBytes 2 formatVersion ∧
      ((frame kind cid document).take 6).drop 4 = beBytes 2 kind.code ∧
      claimedOf (frame kind cid document) = cid.toList ∧
      (frame kind cid document).drop headerLen = document :=
  parts_of rfl (DagCbor.length_beBytes _ _) (DagCbor.length_beBytes _ _) cid.length_toList rfl

theorem length_frame : headerLen ≤ (frame kind cid document).length := by
  simp only [frame, List.length_append, DagCbor.length_beBytes, cid.length_toList, magic, headerLen,
    List.length_cons, List.length_nil]
  omega

theorem frame_inj (h : frame kind cid document = frame kind' cid' document') :
    kind = kind' ∧ cid = cid' ∧ document = document' := by
  obtain ⟨-, -, hcode, hcid, hdocument⟩ := parts_frame kind cid document
  obtain ⟨-, -, hcode', hcid', hdocument'⟩ := parts_frame kind' cid' document'
  rw [h] at hcode hcid hdocument
  have hkind : kind.code = kind'.code := by
    rw [← DagCbor.beNat_beBytes (code_lt kind), ← hcode, hcode', DagCbor.beNat_beBytes (code_lt kind')]
  refine ⟨?_, ?_, hdocument.symm.trans hdocument'⟩
  · have hfrom := fromCode_eq_some.2 hkind
    rw [fromCode_eq_some.2 rfl] at hfrom
    exact Option.some.inj hfrom
  · exact Vector.toList_inj.mp (hcid.symm.trans hcid')

end Frame

section Reads

variable [Hash] [Json] [FromSlice] {bytes : Bytes} {file : GxObjectFile}

/-- What is read is a frame of a kind that is shipped, and its identity is that of its body. -/
theorem read_eq_ok : read bytes = .ok file ↔
    file.formatVersion = formatVersion ∧ file.kind.isShipped = true ∧
      ∃ document, bytes = frame file.kind file.cid document ∧
        readBody file.kind document = .ok (file.body, file.cid) := by
  constructor
  · intro h
    unfold read at h
    split_ifs at h with hlength hmagic
    dsimp only at h
    split_ifs at h with hversion
    rw [not_ne_iff] at hmagic hversion
    split at h
    next => cases h
    next kind hkind =>
      split_ifs at h with hshipped
      split at h
      next => cases h
      next body recomputed hbody =>
        split_ifs at h with hclaimed
        rw [not_ne_iff] at hclaimed
        obtain rfl := Except.ok.inj h
        refine ⟨hversion, by simpa using hshipped, bytes.drop headerLen, ?_, hbody⟩
        have hcode := fromCode_eq_some.1 hkind
        have hword : ∀ {raw : Bytes}, raw.length = 2 → beBytes 2 (beNat raw) = raw := by
          intro raw hraw
          have heq := DagCbor.beBytes_beNat raw
          rwa [hraw] at heq
        have h2 : ((bytes.take 4).drop 2).length = 2 := by
          rw [List.length_drop, List.length_take]
          simp only [headerLen] at hlength
          omega
        have h4 : ((bytes.take 6).drop 4).length = 2 := by
          rw [List.length_drop, List.length_take]
          simp only [headerLen] at hlength
          omega
        rw [frame, ← hmagic, ← hversion, ← hcode, hclaimed]
        rw [hword h2, hword h4, parts_eq]
  · rintro ⟨hversion, hshipped, document, rfl, hbody⟩
    obtain ⟨hmagic, hversion', hcode, hcid, hdocument⟩ := parts_frame file.kind file.cid document
    rw [read, if_neg (Nat.not_lt.mpr length_frame), if_neg (not_not_intro hmagic), hversion', hcode,
      DagCbor.beNat_beBytes (by decide), DagCbor.beNat_beBytes (code_lt _), hdocument, hcid]
    dsimp only
    rw [if_neg (not_not_intro rfl), fromCode_eq_some.2 rfl]
    dsimp only
    rw [hshipped, hbody]
    simp [← hversion]

end Reads

section Bodies

variable [Hash] [Json] {cid : Digest} {body document : Bytes}

omit [Json] in
theorem bodyCid_eq_ok :
    bodyCid body = .ok cid ↔ (∃ v, Denotes body v) ∧ cid = Hash.digest body := by
  rw [← scanStrict_ok, bodyCid]
  cases scanStrict body with
  | error detail => simp
  | ok _ => simp [eq_comm]

theorem writeReceipt_eq_ok {receipt : Receipt} {bytes : Bytes} : writeReceipt receipt = .ok bytes ↔
    ∃ cid document, bodyCid receipt.envelope.payload = .ok cid ∧
      Json.toVec receipt = some document ∧ bytes = frame .receipt cid document := by
  rw [writeReceipt]
  cases bodyCid receipt.envelope.payload with
  | error refusal => simp
  | ok cid =>
    cases Json.toVec receipt with
    | none => simp
    | some document => simp [eq_comm]

omit [Json] in
theorem writeDesignToken_eq_ok {token : DesignToken} {bytes : Bytes} :
    writeDesignToken token = .ok bytes ↔ checkDesignToken token = .ok () ∧
      ∃ document, Denotes document token.value ∧
        bytes = frame .designToken (Hash.digest document) document := by
  rw [writeDesignToken]
  cases checkDesignToken token with
  | error refusal => simp
  | ok _ =>
    dsimp only
    cases hencode : DagCbor.encode token.value with
    | none =>
      have hnot : ∀ document, ¬ Denotes document token.value := by
        intro document h
        rw [DagCbor.encode_eq_some.mpr h] at hencode
        cases hencode
      simp [hnot]
    | some document =>
      have hdenotes := DagCbor.encode_eq_some.mp hencode
      have hcid : bodyCid document = .ok (Hash.digest document) :=
        bodyCid_eq_ok.2 ⟨⟨_, hdenotes⟩, rfl⟩
      dsimp only
      rw [hcid]
      constructor
      · intro h
        exact ⟨rfl, document, hdenotes, (Except.ok.inj h).symm⟩
      · rintro ⟨-, document', hdenotes', rfl⟩
        rw [hdenotes.encode.symm.trans hdenotes'.encode]

variable [FromSlice]

theorem readBody_receipt {gxBody : GxBody} : readBody .receipt document = .ok (gxBody, cid) ↔
    ∃ receipt, Json.fromSlice document = some receipt ∧
      receipt.envelope.payloadType = receiptPayloadType ∧
      bodyCid receipt.envelope.payload = .ok cid ∧ gxBody = .receipt receipt := by
  rw [readBody]
  cases Json.fromSlice document with
  | none => simp
  | some receipt =>
    dsimp only
    split_ifs with htype
    · simp [htype]
    · rw [not_ne_iff] at htype
      cases hcid : bodyCid receipt.envelope.payload with
      | error refusal => simp [hcid]
      | ok cid' => simp [htype, hcid, eq_comm, and_comm]

variable [LawfulFromSlice]

omit [Hash] [Json] in
theorem tokenOf_eq_some {token : DesignToken} :
    tokenOf document = some token ↔ ∃ v, Denotes document v ∧ ofDesignToken v = some token := by
  simp only [tokenOf, Option.bind_eq_some_iff, DagCbor.decode_eq_some]

theorem readBody_designToken {gxBody : GxBody} :
    readBody .designToken document = .ok (gxBody, cid) ↔
      ∃ token, tokenOf document = some token ∧ checkDesignToken token = .ok () ∧
        cid = Hash.digest document ∧ gxBody = .designToken token := by
  rw [readBody]
  cases htoken : tokenOf document with
  | none => simp
  | some token =>
    obtain ⟨v, hdenotes, _⟩ := tokenOf_eq_some.1 htoken
    have hcid : bodyCid document = .ok (Hash.digest document) := bodyCid_eq_ok.2 ⟨⟨v, hdenotes⟩, rfl⟩
    dsimp only
    cases hcheck : checkDesignToken token with
    | error refusal => simp [hcheck]
    | ok _ => simp [hcid, hcheck, eq_comm, and_comm]

omit [LawfulFromSlice] in
theorem readBody_kind {kind : GxKind} {gxBody : GxBody}
    (h : readBody kind document = .ok (gxBody, cid)) : gxBody.kind = kind ∧ kind.isShipped = true := by
  unfold readBody at h
  split at h
  next =>
    split at h
    next => cases h
    next =>
      split_ifs at h
      split at h
      next => cases h
      next =>
        cases h
        exact ⟨rfl, rfl⟩
  next =>
    split at h
    next => cases h
    next =>
      split at h
      next => cases h
      next =>
        split at h
        next => cases h
        next =>
          cases h
          exact ⟨rfl, rfl⟩
  next => cases h

end Bodies

section RoundTrip

variable [Hash] [Json] [FromSlice]

/-- The hash tells two bodies apart. -/
def Apart (a b : Bytes) : Prop := Hash.digest a = Hash.digest b → a = b

/-- The document of a file. -/
def documentOf (bytes : Bytes) : Bytes := bytes.drop headerLen

/-- A document without a member that the schema of a token does not name. -/
def onlySchema (document : Bytes) : Bool := (DagCbor.decode document).any tokenOnly

/-- Some bytes are read as this body, under its kind and this identity. -/
def ReadsAs (bytes : Bytes) (body : GxBody) (cid : Digest) : Prop :=
  read bytes = .ok ⟨formatVersion, body.kind, cid, body⟩

omit [Hash] [Json] [FromSlice] in
@[simp]
theorem documentOf_frame (kind : GxKind) (cid : Digest) (document : Bytes) :
    documentOf (frame kind cid document) = document := (parts_frame kind cid document).2.2.2.2

theorem readsAs_frame (body : GxBody) {cid : Digest} {document : Bytes}
    (h : readBody body.kind document = .ok (body, cid)) :
    ReadsAs (frame body.kind cid document) body cid :=
  read_eq_ok.2 ⟨rfl, (readBody_kind h).2, document, rfl, h⟩

theorem frame_of_read {bytes : Bytes} {file : GxObjectFile} (h : read bytes = .ok file) :
    ∃ document, bytes = frame file.body.kind file.cid document ∧ file.kind = file.body.kind ∧
      readBody file.body.kind document = .ok (file.body, file.cid) := by
  obtain ⟨_, _, document, hbytes, hbody⟩ := read_eq_ok.1 h
  have hkind := (readBody_kind hbody).1
  rw [← hkind] at hbytes hbody
  exact ⟨document, hbytes, hkind.symm, hbody⟩

section Receipts

variable [LawfulJson] {receipt : Receipt} {bytes : Bytes}

theorem readsAs_writeReceipt (h : writeReceipt receipt = .ok bytes)
    (htype : receipt.envelope.payloadType = receiptPayloadType) :
    ∃ cid, bodyCid receipt.envelope.payload = .ok cid ∧ ReadsAs bytes (.receipt receipt) cid := by
  obtain ⟨cid, document, hcid, hdocument, rfl⟩ := writeReceipt_eq_ok.1 h
  obtain ⟨document', hdocument', hread⟩ := LawfulJson.fromSlice_toVec receipt
  obtain rfl := Option.some.inj (hdocument.symm.trans hdocument')
  have hbody := readBody_receipt.2 ⟨receipt, hread, htype, hcid, rfl⟩
  exact ⟨cid, hcid, readsAs_frame (.receipt receipt) hbody⟩

theorem type_of_read {file : GxObjectFile} (h : writeReceipt receipt = .ok bytes)
    (hread : read bytes = .ok file) : receipt.envelope.payloadType = receiptPayloadType := by
  obtain ⟨cid, document, _, hdocument, rfl⟩ := writeReceipt_eq_ok.1 h
  obtain ⟨document', hdocument', hjson⟩ := LawfulJson.fromSlice_toVec receipt
  obtain rfl := Option.some.inj (hdocument.symm.trans hdocument')
  obtain ⟨rest, hframe, _, hbody⟩ := frame_of_read hread
  obtain ⟨hkind, _, rfl⟩ := frame_inj hframe
  rw [← hkind] at hbody
  obtain ⟨receipt', hjson', htype, _⟩ := readBody_receipt.1 hbody
  rwa [Option.some.inj (hjson.symm.trans hjson')]

theorem readsAs_writeReceipt_iff (h : writeReceipt receipt = .ok bytes) :
    (∃ cid, bodyCid receipt.envelope.payload = .ok cid ∧ ReadsAs bytes (.receipt receipt) cid) ↔
      receipt.envelope.payloadType = receiptPayloadType := by
  constructor
  · rintro ⟨cid, _, hread⟩
    exact type_of_read h hread
  · exact readsAs_writeReceipt h

end Receipts

section Tokens

variable [LawfulFromSlice] {token : DesignToken} {bytes document : Bytes}

omit [Hash] [Json] in
theorem tokenOf_value (h : Denotes document token.value) : tokenOf document = some token :=
  tokenOf_eq_some.2 ⟨_, h, ofDesignToken_value token⟩

theorem readsAs_writeDesignToken (h : writeDesignToken token = .ok bytes) :
    ∃ document, DagCbor.encode token.value = some document ∧
      ReadsAs bytes (.designToken token) (Hash.digest document) := by
  obtain ⟨hcheck, document, hdenotes, rfl⟩ := writeDesignToken_eq_ok.1 h
  have hbody := readBody_designToken.2 ⟨token, tokenOf_value hdenotes, hcheck, rfl, rfl⟩
  exact ⟨document, DagCbor.encode_eq_some.mpr hdenotes, readsAs_frame (.designToken token) hbody⟩

omit [Hash] [Json] in
theorem document_again (h : tokenOf document = some token) : ∃ again,
    Denotes again token.value ∧ (document = again ↔ onlySchema document = true) := by
  obtain ⟨v, hdenotes, hread⟩ := tokenOf_eq_some.1 h
  obtain ⟨hcanonical, honly⟩ := DesignToken.written hdenotes.canonical hread
  have hagain : Denotes token.value.encode token.value := ⟨hcanonical, token.depth_value, rfl⟩
  refine ⟨_, hagain, ?_⟩
  rw [onlySchema, DagCbor.decode_eq_some.mpr hdenotes, Option.any_some, honly]
  constructor
  · rintro rfl
    exact hdenotes.unique hagain
  · rintro rfl
    exact hdenotes.encode.symm

omit [Hash] [Json] in
/-- Two documents of one token that hold no more than its schema names are one document. -/
theorem document_unique {document' : Bytes} (h : tokenOf document = some token)
    (h' : tokenOf document' = some token) (honly : onlySchema document = true)
    (honly' : onlySchema document' = true) : document = document' := by
  obtain ⟨again, hagain, hiff⟩ := document_again h
  obtain ⟨again', hagain', hiff'⟩ := document_again h'
  rw [hiff.mpr honly, hiff'.mpr honly', ← hagain.encode, ← hagain'.encode]

omit [Json] [FromSlice] [LawfulFromSlice] in
theorem Apart.digest_eq_iff {a b : Bytes} (h : Apart a b) : Hash.digest b = Hash.digest a ↔ a = b := by
  constructor
  · exact fun heq => h heq.symm
  · rintro rfl
    rfl

end Tokens

section Files

variable [LawfulJson] [LawfulFromSlice] {bytes bytes' : Bytes} {file file' : GxObjectFile}

theorem write_of_read (h : read bytes = .ok file) :
    ∃ again cid, write file.body = .ok again ∧ ReadsAs again file.body cid ∧
      (Apart (documentOf bytes) (documentOf again) →
        (cid = file.cid ↔ (file.kind = .designToken → onlySchema (documentOf bytes) = true))) := by
  obtain ⟨document, hbytes, hkind, hbody⟩ := frame_of_read h
  rw [hkind, hbytes, documentOf_frame]
  generalize file.body = body at hbody
  cases body with
  | receipt receipt =>
    obtain ⟨receipt', _, htype, hcid, heq⟩ := readBody_receipt.1 hbody
    cases heq
    obtain ⟨again, hagain, _⟩ := LawfulJson.fromSlice_toVec receipt
    have hwrite := writeReceipt_eq_ok.2 ⟨file.cid, again, hcid, hagain, rfl⟩
    obtain ⟨cid, hcid', hreads⟩ := readsAs_writeReceipt hwrite htype
    refine ⟨_, cid, hwrite, hreads, fun _ => ?_⟩
    rw [hcid] at hcid'
    constructor
    · intro _ hreceipt
      cases hreceipt
    · intro _
      exact (Except.ok.inj hcid').symm
  | designToken token =>
    obtain ⟨token', htoken, hcheck, hcid, heq⟩ := readBody_designToken.1 hbody
    cases heq
    obtain ⟨again, hagain, honly⟩ := document_again htoken
    have hwrite := writeDesignToken_eq_ok.2 ⟨hcheck, again, hagain, rfl⟩
    have hreads := readBody_designToken.2 ⟨token, tokenOf_value hagain, hcheck, rfl, rfl⟩
    refine ⟨_, _, hwrite, readsAs_frame (.designToken token) hreads, fun hapart => ?_⟩
    rw [documentOf_frame] at hapart
    rw [hcid, hapart.digest_eq_iff, honly]
    exact ⟨fun h _ => h, fun h => h rfl⟩

/-- No document is one of both kinds: what starts a JSON text does not start a map. -/
theorem kinds_apart {document : Bytes} {body body' : GxBody} {cid cid' : Digest}
    (h : readBody .receipt document = .ok (body, cid))
    (h' : readBody .designToken document = .ok (body', cid')) : False := by
  obtain ⟨receipt, hjson, -⟩ := readBody_receipt.1 h
  obtain ⟨token, htoken, -⟩ := readBody_designToken.1 h'
  obtain ⟨first, rest, rfl, hascii⟩ := LawfulJson.ascii hjson
  obtain ⟨v, hdenotes, hread⟩ := tokenOf_eq_some.1 htoken
  obtain ⟨entries, _, rfl, -⟩ := ofDesignToken_eq_some.mp hread
  have hencode := hdenotes.encode
  rw [Value.encode_eq, DagCbor.headBytes, List.cons_append] at hencode
  have hfirst := (List.cons.inj hencode).1
  have hinfo := DagCbor.info_lt (Value.map entries).arg
  have hnat := UInt8.lt_iff_toNat_lt.mp hascii
  rw [← hfirst, DagCbor.initial, UInt8.toNat_ofNat', Value.major] at hnat
  simp at hnat
  omega

theorem header_unique {header header' document : Bytes} (hlength : header.length = headerLen)
    (hlength' : header'.length = headerLen) (h : read (header ++ document) = .ok file)
    (h' : read (header' ++ document) = .ok file') : header = header' := by
  obtain ⟨_, _, rest, hframe, hbody⟩ := read_eq_ok.1 h
  obtain ⟨_, _, rest', hframe', hbody'⟩ := read_eq_ok.1 h'
  have hrest : rest = document := by
    rw [← documentOf_frame file.kind file.cid rest, ← hframe, documentOf, ← hlength,
      List.drop_left]
  have hrest' : rest' = document := by
    rw [← documentOf_frame file'.kind file'.cid rest', ← hframe', documentOf, ← hlength',
      List.drop_left]
  subst hrest hrest'
  have hkind : file.kind = file'.kind := by
    have hship := (readBody_kind hbody).2
    have hship' := (readBody_kind hbody').2
    generalize file.kind = kind at hbody hship
    generalize file'.kind = kind' at hbody' hship'
    cases kind <;> cases hship <;> cases kind' <;> cases hship'
    · rfl
    · exact (kinds_apart hbody hbody').elim
    · exact (kinds_apart hbody' hbody).elim
    · rfl
  rw [hkind, hbody'] at hbody
  have hcid : file'.cid = file.cid := (Prod.mk.inj (Except.ok.inj hbody)).2
  rw [← hkind, hcid, ← hframe] at hframe'
  exact (List.append_cancel_right hframe').symm

omit [LawfulJson] in
/-- Two token files have one identity when they carry one token, unless they carry it in two
documents. -/
theorem same_identity_iff (h : read bytes = .ok file) (h' : read bytes' = .ok file')
    (hkind : file.kind = .designToken) (hkind' : file'.kind = .designToken)
    (hapart : Apart (documentOf bytes) (documentOf bytes')) :
    ((file.cid = file'.cid ↔ file.body = file'.body) ↔
      (documentOf bytes = documentOf bytes' ∨
        tokenOf (documentOf bytes) ≠ tokenOf (documentOf bytes'))) ∧
    (onlySchema (documentOf bytes) = true → onlySchema (documentOf bytes') = true →
      (file.cid = file'.cid ↔ file.body = file'.body)) := by
  obtain ⟨document, hbytes, hfile, hbody⟩ := frame_of_read h
  obtain ⟨document', hbytes', hfile', hbody'⟩ := frame_of_read h'
  rw [← hfile, hkind] at hbody hbytes
  rw [← hfile', hkind'] at hbody' hbytes'
  obtain ⟨token, htoken, _, hcid, hsame⟩ := readBody_designToken.1 hbody
  obtain ⟨token', htoken', _, hcid', hsame'⟩ := readBody_designToken.1 hbody'
  rw [hbytes, hbytes', documentOf_frame, documentOf_frame] at hapart ⊢
  have hdocuments : file.cid = file'.cid ↔ document = document' := by
    rw [hcid, hcid', ← hapart.digest_eq_iff, eq_comm]
  have htokens : file.body = file'.body ↔ tokenOf document = tokenOf document' := by
    rw [hsame, hsame', htoken, htoken', GxBody.designToken.injEq, Option.some.injEq]
  have hreads : document = document' → tokenOf document = tokenOf document' := congrArg tokenOf
  rw [hdocuments, htokens]
  constructor
  · constructor
    · intro hiff
      by_cases heq : document = document'
      · exact .inl heq
      · exact .inr fun hsame => heq (hiff.mpr hsame)
    · rintro (heq | hne)
      · exact ⟨hreads, fun _ => heq⟩
      · exact ⟨hreads, fun hsame => absurd hsame hne⟩
  · intro honly honly'
    refine ⟨hreads, fun hsame => ?_⟩
    rw [htoken] at hsame
    exact document_unique htoken hsame.symm honly honly'

/-- A receipt that is written is read back if its envelope says that it is one, a token is always;
what is read is written and read again, under its identity if the document holds no more than its
schema names; a header is the only one of its document; and token files have one identity for one
token, unless they are two documents of it. -/
theorem object_files_round_trip :
    (∀ receipt bytes, writeReceipt receipt = .ok bytes →
      ((∃ cid, bodyCid receipt.envelope.payload = .ok cid ∧ ReadsAs bytes (.receipt receipt) cid) ↔
        receipt.envelope.payloadType = receiptPayloadType)) ∧
    (∀ token bytes, writeDesignToken token = .ok bytes →
      ∃ document, DagCbor.encode token.value = some document ∧
        ReadsAs bytes (.designToken token) (Hash.digest document)) ∧
    (∀ bytes file, read bytes = .ok file →
      ∃ again cid, write file.body = .ok again ∧ ReadsAs again file.body cid ∧
        (Apart (documentOf bytes) (documentOf again) →
          (cid = file.cid ↔ (file.kind = .designToken → onlySchema (documentOf bytes) = true)))) ∧
    (∀ header header' document file, header.length = headerLen → header'.length = headerLen →
      read (header ++ document) = .ok file → header' ≠ header →
        ∃ refusal, read (header' ++ document) = .error refusal) ∧
    (∀ bytes bytes' file file', read bytes = .ok file → read bytes' = .ok file' →
      file.kind = .designToken → file'.kind = .designToken →
      Apart (documentOf bytes) (documentOf bytes') →
        ((file.cid = file'.cid ↔ file.body = file'.body) ↔
          (documentOf bytes = documentOf bytes' ∨
            tokenOf (documentOf bytes) ≠ tokenOf (documentOf bytes'))) ∧
        (onlySchema (documentOf bytes) = true → onlySchema (documentOf bytes') = true →
          (file.cid = file'.cid ↔ file.body = file'.body))) := by
  refine ⟨fun _ _ => readsAs_writeReceipt_iff, fun _ _ => readsAs_writeDesignToken,
    fun _ _ => write_of_read, ?_, fun _ _ _ _ => same_identity_iff⟩
  intro header header' document file hlength hlength' h hne
  cases h' : read (header' ++ document) with
  | error refusal => exact ⟨refusal, rfl⟩
  | ok file' => exact absurd (header_unique hlength hlength' h h').symm hne

end Files

end RoundTrip

section Sample

open Library Library.Code

instance : Code DsseSignature :=
  ofInjective (fun s => (s.keyid, s.sig)) fun a b h => by
    cases a
    cases b
    simpa using h

instance : Code Receipt :=
  ofInjective
    (fun r => (r.envelope.payloadType, r.envelope.payload, r.envelope.signatures, r.issuedAt))
    fun a b h => by
      obtain ⟨⟨_, _, _⟩, _⟩ := a
      obtain ⟨⟨_, _, _⟩, _⟩ := b
      simpa [and_assoc] using h

/-- A receipt over an empty map, and its JSON. -/
def plainReceipt (payloadType : String) : Receipt := ⟨⟨payloadType, [0xa0], []⟩, 0⟩

def plainJson (payloadType : String) : Bytes :=
  utf8 ("\x7b\"envelope\":\x7b\"payload_type\":\"" ++ payloadType ++
    "\",\"payload\":\"oA==\",\"signatures\":[]\x7d,\"issued_at\":0\x7d")

/-- Two receipts are written as their JSON, and any other as its code. -/
def spell (receipt : Receipt) : Bytes :=
  if receipt = plainReceipt receiptPayloadType then plainJson receiptPayloadType
  else if receipt = plainReceipt checkpointPayloadType then plainJson checkpointPayloadType
  else Ideal.bytesOf receipt

theorem spell_cases (receipt : Receipt) :
    (receipt = plainReceipt receiptPayloadType ∧ spell receipt = plainJson receiptPayloadType) ∨
    (receipt = plainReceipt checkpointPayloadType ∧
      spell receipt = plainJson checkpointPayloadType) ∨
    spell receipt = Ideal.bytesOf receipt := by
  unfold spell
  split_ifs with hreceipt hcheckpoint
  · exact .inl ⟨hreceipt, rfl⟩
  · exact .inr (.inl ⟨hcheckpoint, rfl⟩)
  · exact .inr (.inr rfl)

theorem plainJson_ne : plainJson receiptPayloadType ≠ plainJson checkpointPayloadType := by
  decide

theorem plainJson_cons (payloadType : String) : ∃ rest, plainJson payloadType = 0x7b :: rest := by
  rw [plainJson, String.append_assoc]
  exact ⟨_, rfl⟩

theorem bytesOf_ne_plainJson (receipt : Receipt) (payloadType : String) :
    Ideal.bytesOf receipt ≠ plainJson payloadType := by
  obtain ⟨rest, hrest⟩ := plainJson_cons payloadType
  rw [hrest, Ideal.bytesOf]
  intro h
  exact absurd (List.cons.inj h).1 (by decide)

theorem spell_injective : Function.Injective spell := by
  intro a b h
  rcases spell_cases a with ⟨rfl, ha⟩ | ⟨rfl, ha⟩ | ha
  · rcases spell_cases b with ⟨rfl, hb⟩ | ⟨rfl, hb⟩ | hb
    · rfl
    · exact absurd (ha.symm.trans (h.trans hb)) plainJson_ne
    · exact absurd (hb.symm.trans (h.symm.trans ha)) (bytesOf_ne_plainJson _ _)
  · rcases spell_cases b with ⟨rfl, hb⟩ | ⟨rfl, hb⟩ | hb
    · exact absurd (hb.symm.trans (h.symm.trans ha)) plainJson_ne
    · rfl
    · exact absurd (hb.symm.trans (h.symm.trans ha)) (bytesOf_ne_plainJson _ _)
  · rcases spell_cases b with ⟨rfl, hb⟩ | ⟨rfl, hb⟩ | hb
    · exact absurd (ha.symm.trans (h.trans hb)) (bytesOf_ne_plainJson _ _)
    · exact absurd (ha.symm.trans (h.trans hb)) (bytesOf_ne_plainJson _ _)
    · exact Ideal.bytesOf_injective (ha.symm.trans (h.trans hb))

open Classical in
@[reducible]
noncomputable def spelled : Json where
  toVec receipt := some (spell receipt)
  fromSlice document := if h : ∃ receipt, spell receipt = document then some h.choose else none

open Classical in
theorem lawfulSpelled : @LawfulJson spelled := by
  apply @LawfulJson.mk spelled
  · intro receipt
    have hex : ∃ other, spell other = spell receipt := ⟨receipt, rfl⟩
    refine ⟨spell receipt, rfl, ?_⟩
    show (if h : ∃ other, spell other = spell receipt then some h.choose else none) = some receipt
    rw [dif_pos hex, spell_injective hex.choose_spec]
  · intro document receipt h
    change (if h : ∃ other, spell other = document then some h.choose else none) = _ at h
    split_ifs at h with hex
    obtain ⟨other, rfl⟩ := hex
    rcases spell_cases other with ⟨-, hspell⟩ | ⟨-, hspell⟩ | hspell
    · obtain ⟨rest, hrest⟩ := plainJson_cons receiptPayloadType
      exact ⟨_, rest, hspell.trans hrest, by decide⟩
    · obtain ⟨rest, hrest⟩ := plainJson_cons checkpointPayloadType
      exact ⟨_, rest, hspell.trans hrest, by decide⟩
    · exact ⟨_, _, hspell, by decide⟩

/-- The first 32 bytes of a body. -/
@[reducible]
def headHash : Hash where
  digest bytes := Vector.ofFn fun i => bytes.getD i 0

theorem writeReceipt_plain (payloadType : String) :
    ∃ bytes, @writeReceipt headHash spelled (plainReceipt payloadType) = .ok bytes := by
  have hscan : scanStrict [0xa0] = .ok () := by decide
  have hcid := (@bodyCid_eq_ok headHash _ [0xa0]).mpr ⟨scanStrict_ok.mp hscan, rfl⟩
  exact ⟨_, (@writeReceipt_eq_ok headHash spelled _ _).mpr ⟨_, _, hcid, rfl, rfl⟩⟩

/-- A declaration, and its document with a member that the schema does not name. -/
def plainToken : DesignToken :=
  ⟨designTokenTag, .declaration ⟨"raised", .role, "above the page", [], "surface"⟩⟩

def notedValue : Value := .map (("x", .null) :: plainToken.members)

/-- A receipt under the type of another document is written and not read, and a token can have two
identities. -/
theorem files_that_do_not_read_back :
    (∃ bytes, @writeReceipt headHash spelled (plainReceipt checkpointPayloadType) = .ok bytes ∧
      ∀ file, @read headHash spelled DagCbor.theReader bytes ≠ .ok file) ∧
    ∃ bytes bytes' cid cid',
      @ReadsAs headHash spelled DagCbor.theReader bytes (.designToken plainToken) cid ∧
      @ReadsAs headHash spelled DagCbor.theReader bytes' (.designToken plainToken) cid' ∧
      cid ≠ cid' := by
  constructor
  · obtain ⟨bytes, hwrite⟩ := writeReceipt_plain checkpointPayloadType
    refine ⟨bytes, hwrite, fun file hread => ?_⟩
    have htype := @type_of_read headHash spelled DagCbor.theReader lawfulSpelled _ _ _ hwrite hread
    exact absurd htype (by decide)
  · have hplain : Denotes plainToken.value.encode plainToken.value :=
      DagCbor.encode_eq_some.mp (if_pos (by decide))
    have hnoted : Denotes notedValue.encode notedValue :=
      DagCbor.encode_eq_some.mp (if_pos (by decide))
    have hread : ofDesignToken notedValue = some plainToken := rfl
    have hbody : ∀ {document}, @tokenOf DagCbor.theReader document = some plainToken →
        @readBody headHash spelled DagCbor.theReader .designToken document =
          .ok (.designToken plainToken, headHash.digest document) := by
      intro document htoken
      exact (@readBody_designToken headHash spelled _ _ DagCbor.theReader DagCbor.theReader_lawful _).mpr
        ⟨plainToken, htoken, rfl, rfl, rfl⟩
    have hreads := fun {document} h => @readsAs_frame headHash spelled DagCbor.theReader
      (.designToken plainToken) _ document (hbody h)
    refine ⟨_, _, _, _, hreads (@tokenOf_value DagCbor.theReader DagCbor.theReader_lawful _ _ hplain),
      hreads ((@tokenOf_eq_some _ DagCbor.theReader DagCbor.theReader_lawful _).mpr
        ⟨_, hnoted, hread⟩), ?_⟩
    decide

theorem object_files_round_trip_plain : ∃ bytes cid,
    @writeReceipt headHash spelled (plainReceipt receiptPayloadType) = .ok bytes ∧
      @ReadsAs headHash spelled DagCbor.theReader bytes
        (.receipt (plainReceipt receiptPayloadType)) cid := by
  obtain ⟨bytes, hwrite⟩ := writeReceipt_plain receiptPayloadType
  obtain ⟨hreceipts, -⟩ := @object_files_round_trip headHash spelled DagCbor.theReader lawfulSpelled
    DagCbor.theReader_lawful
  obtain ⟨cid, -, hread⟩ := (hreceipts _ _ hwrite).mpr rfl
  exact ⟨bytes, cid, hwrite, hread⟩

end Sample

end Tracefold.Witness.GxFile
