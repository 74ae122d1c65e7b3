import Mathlib.Data.List.Destutter
import Mathlib.Data.List.Sort
import Tracefold.Journal

/-! Identity: gx-canon's canonical form and hash as a parameter, and what is built on it, the
delta's reference, the read-set commitment, the receipt schema and the Merkle tree. -/

namespace Tracefold

def DeterminismBoundary.namesOneClassTwice : DeterminismBoundary → Bool
  | .mixed input verdict => input = verdict
  | _ => false

/-- The schema check, with the field each refusal names. -/
def ReceiptPayload.checkSchema (p : ReceiptPayload) : Except String Unit :=
  if p.verdict.isNone && !p.failPostureEngaged then
    .error "no verdict and no engaged fail posture"
  else if p.determinismBoundary.namesOneClassTwice then
    .error "determinism_boundary enumerates one class twice"
  else if p.determinismBoundary.verdictDerivation = .llmOriginated then
    .error "determinism_boundary says this verdict was derived from a model"
  else if p.verdict.isNone && p.determinismBoundary.verdictDerivation = .deterministicReplay then
    .error "determinism_boundary derives a verdict that is not carried"
  else if p.confinement.any (fun c => c.kernelConfined && c.rulesetHash.isNone) then
    .error "confinement names no ruleset"
  else if p.confinement.any (fun c => !c.kernelConfined && c.rulesetHash.isSome) then
    .error "confinement names a ruleset that confined nothing"
  else
    match p.receiptKind with
    | .verdictReceipt =>
      if p.inclusionProof.isSome then .error "an inclusion proof"
      else if p.postconditionFingerprint.isSome then .error "a postcondition fingerprint"
      else if p.inverseDelta.isSome then .error "an inverse delta"
      else if p.readSet.isSome then .error "a read-set"
      else if p.reversibility.isSome then .error "an inverse-status"
      else if p.undo.isSome then .error "an undo attestation"
      else .ok ()
    | .commitReceipt =>
      if p.inclusionProof.isNone then .error "no inclusion proof" else .ok ()

def Receipt.issue (p : ReceiptPayload) (issuedAt : Timestamp) (key : KeyId) :
    Except String Receipt := do
  p.checkSchema
  return ⟨p, issuedAt, key⟩

theorem Receipt.payload_issue {p : ReceiptPayload} {issuedAt : Timestamp} {key : KeyId} {r : Receipt}
    (h : Receipt.issue p issuedAt key = .ok r) : r.payload = p := by
  simp only [Receipt.issue, bind, Except.bind] at h
  split at h
  · cases h
  · cases h
    rfl

/-- The boundary of a receipt: what its input came from, and whether a gate derived a verdict. -/
def attestedBoundary (inputGeneration : BoundaryStage) (hasVerdict : Bool) : DeterminismBoundary :=
  .ofStages inputGeneration (if hasVerdict then .deterministicReplay else .unknown)

/-- A derived boundary never names one class twice. -/
theorem attestedBoundary_names_once (input : BoundaryStage) (v : Bool) :
    (attestedBoundary input v).namesOneClassTwice = false := by
  cases input <;> cases v <;> rfl

/-- gx-canon: the hash of a value's canonical form for each kind of value that is hashed, and the
two facts of the canonical form the engine asks for. A journal without links has no chain head. -/
class Canon where
  intent : Intent → IntentId
  delta : SubstrateKind → Bytes → Cid
  transformation : TransformationView → TransformationId
  ruling : HumanRuling → Cid
  payload : ReceiptPayload → Cid
  observation : Bytes → Cid
  readLeaf : ReadEntry → Cid
  ledgerLeaf : ℕ → Cid → TransformationId → Cid
  node : Cid → Cid → Cid
  chainHead : List Record → Option Cid
  unset : Cid
  isCanonical : Bytes → Bool
  blobBytes : SubstrateKind → Bytes → ℕ

/-- No two values of one kind have the same hash. -/
class Canon.CollisionFree [Canon] : Prop where
  intent : Function.Injective Canon.intent
  delta : ∀ {k k' p p'}, Canon.delta k p = Canon.delta k' p' → k = k' ∧ p = p'
  transformation : Function.Injective Canon.transformation
  payload : Function.Injective Canon.payload

variable [Canon]

def PlannedDelta.cid (d : PlannedDelta) : Cid := Canon.delta d.substrate d.payload

def PlannedDelta.reference (d : PlannedDelta) : DeltaRef := ⟨d.substrate, d.cid⟩

def Transformation.cid (t : Transformation) : TransformationId := Canon.transformation t.view

/-- `Transformation::new` under the range checks of its metadata, with the id it hashes to. -/
def Transformation.new (subject : Subject) (target : Option Cid) (parents : List TransformationId)
    (intentId : IntentId) (delta : DeltaRef) (context : ChangeContext) (actor : Actor)
    (createdAt : Timestamp) : Option Transformation :=
  if createdAt < 0 then none
  else if intentId = Canon.unset then none
  else
    let view : TransformationView := ⟨0, intentId, subject, target, delta, context, actor, parents⟩
    some ⟨Canon.transformation view, intentId, 0, subject, target, delta, context, actor, parents,
      createdAt⟩

theorem Transformation.id_new {subject : Subject} {target : Option Cid}
    {parents : List TransformationId} {intentId : IntentId} {delta : DeltaRef}
    {context : ChangeContext} {actor : Actor} {createdAt : Timestamp} {t : Transformation}
    (h : Transformation.new subject target parents intentId delta context actor createdAt = some t) :
    t.id = t.cid ∧ t.intentId = intentId ∧ t.subject = subject ∧ t.target = target ∧
      t.delta = delta ∧ t.context = context ∧ t.actor = actor ∧ t.parents = parents := by
  simp only [Transformation.new] at h
  split at h
  · cases h
  · split at h
    · cases h
    · cases h
      exact ⟨rfl, rfl, rfl, rfl, rfl, rfl, rfl, rfl⟩

/-- The largest power of two below `n`, for `n ≥ 2`. -/
def splitPoint (n : ℕ) : ℕ := 2 ^ Nat.log2 (n - 1)

/-- The Merkle tree hash, by halving; the fuel is the number of leaves. -/
def mthFrom : ℕ → List Cid → Option Cid
  | _, [] => none
  | _, [leaf] => some leaf
  | 0, _ => none
  | fuel + 1, leaves => do
    let k := splitPoint leaves.length
    let left ← mthFrom fuel (leaves.take k)
    let right ← mthFrom fuel (leaves.drop k)
    return Canon.node left right

def mth (leaves : List Cid) : Option Cid := mthFrom leaves.length leaves

theorem mthFrom_succ {fuel : ℕ} {leaves : List Cid} (h : 2 ≤ leaves.length) :
    mthFrom (fuel + 1) leaves = (do
      let left ← mthFrom fuel (leaves.take (splitPoint leaves.length))
      let right ← mthFrom fuel (leaves.drop (splitPoint leaves.length))
      return Canon.node left right) := by
  match leaves, h with
  | a :: b :: rest, _ =>
    rw [mthFrom]
    · simp
    · simp

omit [Canon] in
theorem splitPoint_lt {n : ℕ} (h : 2 ≤ n) : splitPoint n < n := by
  have hle : splitPoint n ≤ n - 1 := Nat.log2_self_le (by omega)
  omega

theorem mthFrom_isSome {fuel : ℕ} {leaves : List Cid} (hfuel : leaves.length ≤ fuel)
    (h : leaves ≠ []) : (mthFrom fuel leaves).isSome := by
  induction fuel generalizing leaves with
  | zero => exact absurd (List.length_eq_zero_iff.mp (Nat.le_zero.mp hfuel)) h
  | succ fuel ih =>
    match leaves, h with
    | [leaf], _ => rfl
    | a :: b :: rest, _ =>
      set leaves := a :: b :: rest with hleaves
      have hpos : 0 < splitPoint leaves.length := Nat.two_pow_pos _
      have hlt : splitPoint leaves.length < leaves.length := splitPoint_lt (by simp [leaves])
      have hsplit : ∀ part : List Cid, 0 < part.length → part.length ≤ fuel →
          (mthFrom fuel part).isSome := fun part hpart hfits =>
        ih hfits (List.ne_nil_of_length_pos hpart)
      obtain ⟨left, hleft⟩ := Option.isSome_iff_exists.mp
        (hsplit (leaves.take (splitPoint leaves.length)) (by rw [List.length_take]; omega)
          (by rw [List.length_take]; omega))
      obtain ⟨right, hright⟩ := Option.isSome_iff_exists.mp
        (hsplit (leaves.drop (splitPoint leaves.length)) (by rw [List.length_drop]; omega)
          (by rw [List.length_drop]; omega))
      rw [hleaves, mthFrom, ← hleaves, hleft, hright]
      · rfl
      · simp
      · simp

theorem mth_isSome {leaves : List Cid} (h : leaves ≠ []) : (mth leaves).isSome :=
  mthFrom_isSome le_rfl h

/-- The siblings of leaf `index`, from the leaf up to the root. -/
def auditPathFrom : ℕ → ℕ → List Cid → List Cid
  | 0, _, _ => []
  | fuel + 1, index, leaves =>
    if leaves.length ≤ 1 then []
    else
      let k := splitPoint leaves.length
      if index < k then
        auditPathFrom fuel index (leaves.take k) ++ (mth (leaves.drop k)).toList
      else
        auditPathFrom fuel (index - k) (leaves.drop k) ++ (mth (leaves.take k)).toList

def readSetSpillThreshold : ℕ := 5

/-- The read-set a receipt attests: the reads sorted and without repeats, or their root. -/
def ReadSet.fromReads (entries : List ReadEntry) : ReadSet :=
  let entries := (entries.insertionSort fun a b => (compare a b).isLE).destutter (· ≠ ·)
  if entries.isEmpty then .nothing
  else if entries.length ≤ readSetSpillThreshold then .perRead entries
  else
    match mth (entries.map Canon.readLeaf) with
    | some root => .perEffectRoot root entries.length
    | none => .nothing

/-- The digest the ledger keeps: over the payload without its inclusion proof. -/
def ReceiptPayload.ledgerDigest (p : ReceiptPayload) : Cid :=
  Canon.payload { p with inclusionProof := none }

end Tracefold
