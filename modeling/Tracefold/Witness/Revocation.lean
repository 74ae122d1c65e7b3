import Mathlib.Tactic.Common
import Tracefold.Cbor.Serde
import Tracefold.Witness.Receipt

/-! The revocations a verifier reads out of a list of envelopes, and that more envelopes, another
order and a later clock take none of them back. -/

namespace Tracefold.Witness

section Reading

variable [Curve] [Cbor RevocationEntry]

/-- `RevocationLedger::from_signed`: what does not decode and what is about another key is counted,
and what is about this key has to be signed by it. -/
def RevocationLedger.fromSigned (envelopes : List DsseEnvelope) (key : VerifyingKeyRef) :
    Except Error (RevocationLedger × ℕ) :=
  gather envelopes [] 0
where
  gather : List DsseEnvelope → List RevocationEntry → ℕ → Except Error (RevocationLedger × ℕ)
    | [], entries, ignored => .ok (⟨entries⟩, ignored)
    | envelope :: rest, entries, ignored =>
      match Cbor.decode (α := RevocationEntry) envelope.payload with
      | none => gather rest entries (ignored + 1)
      | some named =>
        if named.keyId ≠ key.keyId then gather rest entries (ignored + 1)
        else
          match RevocationEntry.fromSigned envelope key with
          | .error error => .error error
          | .ok entry => gather rest (entries ++ [entry]) ignored

/-- The envelope decodes to a revocation of the key. -/
def About (key : VerifyingKeyRef) (envelope : DsseEnvelope) : Prop :=
  ∃ named : RevocationEntry, Cbor.decode envelope.payload = some named ∧ named.keyId = key.keyId

/-- What an envelope adds to the ledger. -/
def Adds (key : VerifyingKeyRef) (envelope : DsseEnvelope) (entry : RevocationEntry) : Prop :=
  About key envelope ∧ RevocationEntry.fromSigned envelope key = .ok entry

/-- The envelope is about the key, and the key does not vouch for it. -/
def Refused (key : VerifyingKeyRef) (envelope : DsseEnvelope) : Prop :=
  About key envelope ∧ ∃ error, RevocationEntry.fromSigned envelope key = .error error

variable {key : VerifyingKeyRef} {envelopes : List DsseEnvelope}

theorem gather_cases {entries : List RevocationEntry} {ignored : ℕ} :
    (∃ envelope ∈ envelopes, Refused key envelope ∧
      ∃ error, RevocationLedger.fromSigned.gather key envelopes entries ignored = .error error) ∨
      (∀ envelope ∈ envelopes, ¬ Refused key envelope) ∧
        ∃ ledger ignored', RevocationLedger.fromSigned.gather key envelopes entries ignored =
            .ok (ledger, ignored') ∧
          ∀ entry, entry ∈ ledger.entries ↔
            entry ∈ entries ∨ ∃ envelope ∈ envelopes, Adds key envelope entry := by
  induction envelopes generalizing entries ignored with
  | nil =>
    refine .inr ⟨fun _ hmem => absurd hmem List.not_mem_nil, ⟨entries⟩, ignored, rfl, fun entry => ?_⟩
    simp
  | cons envelope rest ih =>
    have hskip : ¬ About key envelope → RevocationLedger.fromSigned.gather key (envelope :: rest)
        entries ignored = RevocationLedger.fromSigned.gather key rest entries (ignored + 1) := by
      intro hnot
      rw [RevocationLedger.fromSigned.gather]
      split
      next => rfl
      next named hnamed => rw [if_pos fun heq => hnot ⟨named, hnamed, heq⟩]
    by_cases habout : About key envelope
    · obtain ⟨named, hnamed, hkey⟩ := habout
      have hread : RevocationLedger.fromSigned.gather key (envelope :: rest) entries ignored =
          match RevocationEntry.fromSigned envelope key with
          | .error error => .error error
          | .ok entry =>
            RevocationLedger.fromSigned.gather key rest (entries ++ [entry]) ignored := by
        rw [RevocationLedger.fromSigned.gather, hnamed]
        dsimp only
        rw [if_neg (not_not.mpr hkey)]
      cases hsigned : RevocationEntry.fromSigned envelope key with
      | error error =>
        refine .inl ⟨envelope, List.mem_cons_self, ⟨⟨named, hnamed, hkey⟩, error, hsigned⟩, error, ?_⟩
        rw [hread, hsigned]
      | ok entry =>
        rw [hsigned] at hread
        rw [hread]
        rcases ih with ⟨bad, hmem, hbad⟩ | ⟨hnone, ledger, ignored', hledger, hentries⟩
        · exact .inl ⟨bad, List.mem_cons_of_mem _ hmem, hbad⟩
        · refine .inr ⟨?_, ledger, ignored', hledger, fun other => ?_⟩
          · intro bad hmem hbad
            rcases List.mem_cons.mp hmem with rfl | hmem
            · obtain ⟨_, error, herror⟩ := hbad
              rw [hsigned] at herror
              cases herror
            · exact hnone bad hmem hbad
          · rw [hentries, List.mem_append, List.mem_singleton, or_assoc]
            refine or_congr_right ⟨fun h => ?_, fun h => ?_⟩
            · rcases h with rfl | ⟨added, hmem, hadds⟩
              · exact ⟨envelope, List.mem_cons_self, ⟨named, hnamed, hkey⟩, hsigned⟩
              · exact ⟨added, List.mem_cons_of_mem _ hmem, hadds⟩
            · obtain ⟨added, hmem, hadds⟩ := h
              rcases List.mem_cons.mp hmem with rfl | hmem
              · obtain ⟨_, hadds⟩ := hadds
                rw [hsigned] at hadds
                exact .inl (Except.ok.inj hadds).symm
              · exact .inr ⟨added, hmem, hadds⟩
    · rw [hskip habout]
      rcases ih with ⟨bad, hmem, hbad⟩ | ⟨hnone, ledger, ignored', hledger, hentries⟩
      · exact .inl ⟨bad, List.mem_cons_of_mem _ hmem, hbad⟩
      · refine .inr ⟨?_, ledger, ignored', hledger, fun other => ?_⟩
        · intro bad hmem hbad
          rcases List.mem_cons.mp hmem with rfl | hmem
          · exact habout hbad.1
          · exact hnone bad hmem hbad
        · rw [hentries]
          refine or_congr_right ⟨fun h => ?_, fun h => ?_⟩
          · obtain ⟨added, hmem, hadds⟩ := h
            exact ⟨added, List.mem_cons_of_mem _ hmem, hadds⟩
          · obtain ⟨added, hmem, hadds⟩ := h
            rcases List.mem_cons.mp hmem with rfl | hmem
            · exact absurd hadds.1 habout
            · exact ⟨added, hmem, hadds⟩

theorem fromSigned_cases (envelopes : List DsseEnvelope) (key : VerifyingKeyRef) :
    ((∃ envelope ∈ envelopes, Refused key envelope) ∧
      ∃ error, RevocationLedger.fromSigned envelopes key = .error error) ∨
      (∀ envelope ∈ envelopes, ¬ Refused key envelope) ∧
        ∃ ledger ignored, RevocationLedger.fromSigned envelopes key = .ok (ledger, ignored) ∧
          ∀ entry, entry ∈ ledger.entries ↔ ∃ envelope ∈ envelopes, Adds key envelope entry := by
  rcases @gather_cases _ _ key envelopes [] 0 with ⟨bad, hmem, hbad, herror⟩ | ⟨hnone, ledger,
    ignored, hledger, hentries⟩
  · exact .inl ⟨⟨bad, hmem, hbad⟩, herror⟩
  · refine .inr ⟨hnone, ledger, ignored, hledger, fun entry => ?_⟩
    rw [hentries, or_iff_right List.not_mem_nil]

end Reading

section Status

variable {ledger ledger' : RevocationLedger} {keyId : KeyId} {issuedAt t t' : Timestamp}
  {retroaction : Retroaction}

theorem revocationOf_spec (ledger : RevocationLedger) (keyId : KeyId) :
    match ledger.revocationOf keyId with
    | none => ∀ entry ∈ ledger.entries, entry.keyId ≠ keyId
    | some earliest => earliest ∈ ledger.entries ∧ earliest.keyId = keyId ∧
        ∀ entry ∈ ledger.entries, entry.keyId = keyId → earliest.revokedAt ≤ entry.revokedAt := by
  obtain ⟨entries⟩ := ledger
  rw [RevocationLedger.revocationOf]
  dsimp only
  induction entries using List.reverseRecOn with
  | nil => exact fun _ hmem => absurd hmem List.not_mem_nil
  | append_singleton entries entry ih =>
    have hmem : ∀ {P : RevocationEntry → Prop}, (∀ e ∈ entries, P e) → P entry →
        ∀ e ∈ entries ++ [entry], P e := by
      intro P hall hlast e he
      rcases List.mem_append.mp he with he | he
      · exact hall e he
      · rw [List.mem_singleton.mp he]
        exact hlast
    rw [List.filter_append, List.foldl_append]
    by_cases hkey : entry.keyId = keyId
    · have hfilter : [entry].filter (fun entry => entry.keyId = keyId) = [entry] := by simp [hkey]
      rw [hfilter, List.foldl_cons, List.foldl_nil]
      revert ih
      generalize (entries.filter fun entry => entry.keyId = keyId).foldl _ none = found
      cases found with
      | none =>
        refine fun ih => ⟨List.mem_append_right _ List.mem_cons_self, hkey, hmem ?_ fun _ => le_rfl⟩
        exact fun e he heq => absurd heq (ih e he)
      | some earliest =>
        rintro ⟨hin, hof, hleast⟩
        dsimp only
        split
        next heq =>
          split at heq
          · cases heq
          · cases heq
        next chosen heq =>
          split at heq
          next hlt =>
            cases heq
            refine ⟨List.mem_append_right _ List.mem_cons_self, hkey, hmem ?_ fun _ => le_rfl⟩
            exact fun e he hof' => hlt.le.trans (hleast e he hof')
          next hlt =>
            cases heq
            exact ⟨List.mem_append_left _ hin, hof, hmem hleast fun _ => not_lt.mp hlt⟩
    · have hfilter : [entry].filter (fun entry => entry.keyId = keyId) = [] := by simp [hkey]
      rw [hfilter, List.foldl_nil]
      revert ih
      generalize (entries.filter fun entry => entry.keyId = keyId).foldl _ none = found
      cases found with
      | none => exact fun ih => hmem ih hkey
      | some earliest =>
        rintro ⟨hin, hof, hleast⟩
        exact ⟨List.mem_append_left _ hin, hof, hmem hleast fun heq => absurd heq hkey⟩

/-- The check answers `Revoked` when some revocation of the key is in force that reaches the
receipt. -/
theorem revoked_iff : revocationStatus (ledger.revocationOf keyId) issuedAt retroaction t = .revoked ↔
    ∃ entry ∈ ledger.entries, entry.keyId = keyId ∧ entry.revokedAt ≤ t ∧
      (retroaction = .all ∨ entry.revokedAt ≤ issuedAt) := by
  have hspec := revocationOf_spec ledger keyId
  cases hof : ledger.revocationOf keyId with
  | none =>
    rw [hof] at hspec
    refine iff_of_false nofun ?_
    rintro ⟨entry, hmem, hkey, _⟩
    exact hspec entry hmem hkey
  | some earliest =>
    rw [hof] at hspec
    obtain ⟨hmem, hkey, hleast⟩ := hspec
    simp only [revocationStatus]
    constructor
    · intro hrevoked
      refine ⟨earliest, hmem, hkey, ?_⟩
      split at hrevoked
      · cases hrevoked
      next hforce =>
        refine ⟨not_lt.mp hforce, ?_⟩
        cases retroaction with
        | all => exact .inl rfl
        | fromRevocation =>
          dsimp only at hrevoked
          split at hrevoked
          · cases hrevoked
          next hissued => exact .inr (not_lt.mp hissued)
    · rintro ⟨entry, hin, hof', hforce, hreach⟩
      have hle := hleast entry hin hof'
      rw [if_neg (not_lt.mpr (hle.trans hforce))]
      cases retroaction with
      | all => rfl
      | fromRevocation =>
        rcases hreach with hall | hissued
        · cases hall
        · exact if_neg (not_lt.mpr (hle.trans hissued))

/-- The check reads the set of a ledger's entries. -/
theorem revocationStatus_congr (h : ∀ entry, entry ∈ ledger.entries ↔ entry ∈ ledger'.entries) :
    revocationStatus (ledger.revocationOf keyId) issuedAt retroaction t =
      revocationStatus (ledger'.revocationOf keyId) issuedAt retroaction t := by
  have hspec := revocationOf_spec ledger keyId
  have hspec' := revocationOf_spec ledger' keyId
  cases hof : ledger.revocationOf keyId with
  | none =>
    cases hof' : ledger'.revocationOf keyId with
    | none => rfl
    | some earliest' =>
      rw [hof] at hspec
      rw [hof'] at hspec'
      exact absurd hspec'.2.1 (hspec earliest' ((h earliest').mpr hspec'.1))
  | some earliest =>
    rw [hof] at hspec
    obtain ⟨hmem, hkey, hleast⟩ := hspec
    cases hof' : ledger'.revocationOf keyId with
    | none =>
      rw [hof'] at hspec'
      exact absurd hkey (hspec' earliest ((h earliest).mp hmem))
    | some earliest' =>
      rw [hof'] at hspec'
      obtain ⟨hmem', hkey', hleast'⟩ := hspec'
      have hsame : earliest.revokedAt = earliest'.revokedAt :=
        le_antisymm (hleast earliest' ((h earliest').mpr hmem') hkey')
          (hleast' earliest ((h earliest).mp hmem) hkey)
      simp only [revocationStatus, hsame]

end Status

/-- The word a verification at `t` says of the revocation of its key. -/
def Receipt.revocationAt (receipt : Receipt) (key : VerifyingKeyRef) (retroaction : Retroaction)
    (ledger : RevocationLedger) (t : Timestamp) : RevocationCheck :=
  revocationStatus (ledger.revocationOf key.keyId) receipt.issuedAt retroaction t

theorem checksOf_revocation [Canon] [CanonicalBytes] [Curve] [Cbor ReceiptPayload]
    {receipt : Receipt} {key : VerifyingKeyRef} {anchor : Option Anchorage}
    {policy : RevocationPolicy} {checks : Checks}
    (h : checksOf receipt key anchor (some policy) = .ok checks) :
    checks.revocation =
      receipt.revocationAt key policy.retroaction policy.ledger policy.verifiedAt := by
  rw [checksOf] at h
  simp only [bind, Except.bind] at h
  split at h
  · cases h
  · split at h
    · cases h
    · cases h
      rfl

/-- A key that is revoked stays so whatever is added to the list, whatever the order and however
long one waits, unless the list is no longer read; and two orders of one list say the same. -/
theorem revocation_is_not_weakened [Curve] [Cbor RevocationEntry] (key : VerifyingKeyRef)
    (receipt : Receipt) (retroaction : Retroaction) :
    (∀ envelopes envelopes' t t' ledger ignored, envelopes ⊆ envelopes' → t ≤ t' →
      RevocationLedger.fromSigned envelopes key = .ok (ledger, ignored) →
      receipt.revocationAt key retroaction ledger t = .revoked →
      (∃ error, RevocationLedger.fromSigned envelopes' key = .error error) ∨
        ∃ ledger' ignored', RevocationLedger.fromSigned envelopes' key = .ok (ledger', ignored') ∧
          receipt.revocationAt key retroaction ledger' t' = .revoked) ∧
      ∀ envelopes envelopes' t, envelopes.Perm envelopes' →
        ((∃ error, RevocationLedger.fromSigned envelopes key = .error error) ∧
          ∃ error, RevocationLedger.fromSigned envelopes' key = .error error) ∨
        ∃ ledger ignored ledger' ignored',
          RevocationLedger.fromSigned envelopes key = .ok (ledger, ignored) ∧
          RevocationLedger.fromSigned envelopes' key = .ok (ledger', ignored') ∧
          receipt.revocationAt key retroaction ledger t =
            receipt.revocationAt key retroaction ledger' t := by
  refine ⟨?_, ?_⟩
  · intro envelopes envelopes' t t' ledger ignored hsub hle hread hrevoked
    obtain ⟨entry, hmem, hkey, hforce, hreach⟩ := revoked_iff.mp hrevoked
    rcases fromSigned_cases envelopes key with ⟨_, error, herror⟩ | ⟨_, _, _, hsame, hentries⟩
    · rw [hread] at herror
      cases herror
    rw [hread] at hsame
    cases hsame
    obtain ⟨envelope, hin, hadds⟩ := (hentries entry).mp hmem
    rcases fromSigned_cases envelopes' key with ⟨_, herror⟩ | ⟨_, ledger', ignored', hread', hentries'⟩
    · exact .inl herror
    · refine .inr ⟨ledger', ignored', hread', revoked_iff.mpr ?_⟩
      exact ⟨entry, (hentries' entry).mpr ⟨envelope, hsub hin, hadds⟩, hkey, hforce.trans hle, hreach⟩
  · intro envelopes envelopes' t hperm
    rcases fromSigned_cases envelopes key with ⟨⟨bad, hmem, hbad⟩, herror⟩ | ⟨hnone, ledger, ignored,
      hread, hentries⟩
    · rcases fromSigned_cases envelopes' key with ⟨_, herror'⟩ | ⟨hnone', _⟩
      · exact .inl ⟨herror, herror'⟩
      · exact absurd hbad (hnone' bad (hperm.mem_iff.mp hmem))
    · rcases fromSigned_cases envelopes' key with ⟨⟨bad, hmem, hbad⟩, _⟩ | ⟨_, ledger', ignored',
        hread', hentries'⟩
      · exact absurd hbad (hnone bad (hperm.mem_iff.mpr hmem))
      · refine .inr ⟨ledger, ignored, ledger', ignored', hread, hread', ?_⟩
        apply revocationStatus_congr
        intro entry
        rw [hentries, hentries']
        constructor
        · rintro ⟨envelope, hmem, hadds⟩
          exact ⟨envelope, hperm.mem_iff.mp hmem, hadds⟩
        · rintro ⟨envelope, hmem, hadds⟩
          exact ⟨envelope, hperm.mem_iff.mpr hmem, hadds⟩

section Sample

open DagCbor (Value optionValue required ofText ofInt)

/-- What serde writes of a revocation. -/
def RevocationEntry.value (entry : RevocationEntry) : Value :=
  .map [("key_id", .text entry.keyId), ("reason", .text entry.reason),
    ("revoked_at", .int entry.revokedAt), ("superseded_by", optionValue .text entry.supersededBy)]

/-- What serde reads as a revocation. -/
def RevocationEntry.ofValue : Value → Option RevocationEntry
  | .map entries => do
    let keyId ← required ofText entries "key_id"
    let reason ← required ofText entries "reason"
    let revokedAt ← required ofInt entries "revoked_at"
    let supersededBy ← DagCbor.optional ofText entries "superseded_by"
    return ⟨keyId, reason, revokedAt, supersededBy⟩
  | _ => none

/-- The canonical DAG-CBOR of a revocation. -/
noncomputable abbrev dagCbor : Cbor RevocationEntry where
  encode entry := DagCbor.encode entry.value
  decode bytes := (@DagCbor.decode DagCbor.theReader bytes).bind RevocationEntry.ofValue

/-- A signature sums up the key and the message. -/
abbrev summing : Curve where
  sign secret message := List.replicate signatureLength ((secret ++ message).foldl (· + ·) 0)
  verifyStrict key message sig :=
    sig = List.replicate signatureLength ((key ++ message).foldl (· + ·) 0)

def revocation (moment : Timestamp) : RevocationEntry := ⟨"k", "", moment, none⟩

def revokedAt (moment : Timestamp) : DsseEnvelope :=
  @DsseEnvelope.sign summing ⟨revocationPayloadType, (revocation moment).value.encode, []⟩ [1] "k"

theorem decode_revokedAt {moment : Timestamp}
    (hwritten : DagCbor.Denotes (revokedAt moment).payload (revocation moment).value)
    (hmoment : -2 ^ 63 ≤ moment ∧ moment < 2 ^ 63) :
    @Cbor.decode _ dagCbor (revokedAt moment).payload = some (revocation moment) := by
  have hread := (@DagCbor.decode_eq_some DagCbor.theReader DagCbor.theReader_lawful _ _).mpr hwritten
  have hmoment' : ofInt (.int moment) = some ⟨moment, hmoment⟩ := dif_pos hmoment
  change (@DagCbor.decode DagCbor.theReader _).bind RevocationEntry.ofValue = _
  rw [hread]
  simp [RevocationEntry.value, RevocationEntry.ofValue, revocation, required, DagCbor.optional,
    DagCbor.member, optionValue, ofText, hmoment']

theorem fromSigned_revokedAt {moment : Timestamp}
    (hread : @Cbor.decode _ dagCbor (revokedAt moment).payload = some (revocation moment)) :
    @RevocationEntry.fromSigned summing dagCbor (revokedAt moment) ⟨"k", [1]⟩ =
      .ok (revocation moment) := by
  have hverified : @DsseEnvelope.verify summing (revokedAt moment) ⟨"k", [1]⟩ = .ok () :=
    (@verify_eq_ok summing _ _).mpr ⟨_, rfl, List.length_replicate, decide_eq_true rfl⟩
  have htype : (revokedAt moment).payloadType = revocationPayloadType := rfl
  have hkey : (revocation moment).keyId = "k" := rfl
  rw [@RevocationEntry.fromSigned.eq_1 summing dagCbor, if_neg (not_not.mpr htype), hread]
  dsimp only
  rw [if_neg (not_not.mpr hkey), hverified]

theorem decode_garbled : @Cbor.decode RevocationEntry dagCbor [] = none := by
  have hnothing : @DagCbor.decode DagCbor.theReader [] = none := by
    rw [Option.eq_none_iff_forall_ne_some]
    intro v hv
    have hwritten := (@DagCbor.decode_eq_some DagCbor.theReader DagCbor.theReader_lawful _ _).mp hv
    have hlength := congrArg List.length hwritten.encode
    rw [DagCbor.Value.encode_eq, DagCbor.headBytes, List.cons_append] at hlength
    cases hlength
  change (@DagCbor.decode DagCbor.theReader []).bind RevocationEntry.ofValue = _
  rw [hnothing]
  rfl

/-- A later revocation is put before the one that is in force, and a garbled envelope between. -/
theorem revocation_is_not_weakened_added :
    let ledger : RevocationLedger := ⟨[revocation 5]⟩
    let receipt : Receipt := ⟨revokedAt 0, 6⟩
    let envelopes := [revokedAt 9, ⟨revocationPayloadType, [], []⟩, revokedAt 5]
    @RevocationLedger.fromSigned summing dagCbor [revokedAt 5] ⟨"k", [1]⟩ = .ok (ledger, 0) ∧
      receipt.revocationAt ⟨"k", [1]⟩ .fromRevocation ledger 7 = .revoked ∧
      ∃ ledger' ignored,
        @RevocationLedger.fromSigned summing dagCbor envelopes ⟨"k", [1]⟩ = .ok (ledger', ignored) ∧
          receipt.revocationAt ⟨"k", [1]⟩ .fromRevocation ledger' 8 = .revoked := by
  intro ledger receipt envelopes
  have hfive := @decode_revokedAt 5 ⟨by decide, by decide, rfl⟩ (by decide)
  have hnine := @decode_revokedAt 9 ⟨by decide, by decide, rfl⟩ (by decide)
  have hread : @RevocationLedger.fromSigned summing dagCbor [revokedAt 5] ⟨"k", [1]⟩ =
      .ok (ledger, 0) := by
    simp [RevocationLedger.fromSigned, RevocationLedger.fromSigned.gather, hfive,
      fromSigned_revokedAt hfive, revocation, ledger]
  have hrevoked : receipt.revocationAt ⟨"k", [1]⟩ .fromRevocation ledger 7 = .revoked := by decide
  refine ⟨hread, hrevoked, ?_⟩
  have hsub : [revokedAt 5] ⊆ envelopes := by
    intro envelope hmem
    rw [List.mem_singleton.mp hmem]
    simp [envelopes]
  rcases (@revocation_is_not_weakened summing dagCbor ⟨"k", [1]⟩ receipt .fromRevocation).1
    [revokedAt 5] envelopes 7 8 ledger 0 hsub (by decide) hread hrevoked with ⟨error, herror⟩ | hkept
  · have hok : @RevocationLedger.fromSigned summing dagCbor envelopes ⟨"k", [1]⟩ =
        .ok (⟨[revocation 9, revocation 5]⟩, 1) := by
      simp [RevocationLedger.fromSigned, RevocationLedger.fromSigned.gather, hfive, hnine,
        decode_garbled, fromSigned_revokedAt hfive, fromSigned_revokedAt hnine, revocation, envelopes]
    rw [hok] at herror
    cases herror
  · exact hkept

end Sample

end Tracefold.Witness
