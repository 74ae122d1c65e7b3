import Mathlib.Tactic.Common
import Tracefold.Ledger.Complete
import Tracefold.Witness.Separation

/-! Tree heads of one log that were collected in different places: what auditing them together
says of the trees they were signed over. -/

namespace Tracefold.Ledger

open Library Library.Merkle Witness

inductive CheckpointContradiction where
  | equivocation (origin : String) (treeSize : ℕ) (rootA rootB : Cid)
  | fork (origin : String) (oldSize newSize : ℕ) (oldRoot newRoot : Cid)
  deriving DecidableEq, Repr

/-- `detect_equivocation`: every pair of heads of one origin, over one size and two roots. -/
def detectEquivocation : List Checkpoint → List CheckpointContradiction
  | [] => []
  | a :: rest =>
    (rest.filterMap fun b =>
      if a.origin ≠ b.origin then none
      else if a.treeSize = b.treeSize ∧ a.rootHash ≠ b.rootHash then
        some (.equivocation a.origin a.treeSize a.rootHash b.rootHash)
      else none) ++ detectEquivocation rest

inductive AuditError where
  | usage
  | malformed (what : String)
  deriving DecidableEq, Repr

section Audit

variable [Canon]

/-- `classify_extension`. -/
def classifyExtension (old new : Checkpoint) (proof : ConsistencyProof) :
    Except ProofError (Option CheckpointContradiction) :=
  if old.origin ≠ new.origin then .error .malformed
  else if new.treeSize ≤ old.treeSize then .error .malformed
  else if proof.oldSize ≠ old.treeSize ∨ proof.newSize ≠ new.treeSize then .error .malformed
  else
    match verifyConsistency proof old.rootHash new.rootHash with
    | .error why => .error why
    | .ok true => .ok none
    | .ok false =>
      .ok (some (.fork old.origin old.treeSize new.treeSize old.rootHash new.rootHash))

/-- The second branch of `audit`: the pair, put in the order of its sizes. -/
def auditProof (a b : Checkpoint) (proof : ConsistencyProof) :
    Except AuditError (Option CheckpointContradiction) :=
  if a.treeSize = b.treeSize then .error .usage
  else
    let (old, new) := if a.treeSize < b.treeSize then (a, b) else (b, a)
    match classifyExtension old new proof with
    | .error _ => .error (.malformed "consistency proof")
    | .ok found => .ok found

variable [Curve] [Cbor CheckpointCore]

/-- `audit`, of `gx checkpoint audit`, over the heads and the proof it has read. -/
def audit (checkpoints : List Checkpoint) (key : Option VerifyingKeyRef)
    (proof : Option ConsistencyProof) : Except AuditError (List CheckpointContradiction) :=
  if checkpoints = [] then .error .usage
  else if proof.isSome ∧ checkpoints.length ≠ 2 then .error .usage
  else if key.any fun key => checkpoints.any fun c => verifyCheckpoint c key ≠ .ok () then
    .error (.malformed "checkpoint")
  else
    match proof, checkpoints with
    | some proof, [a, b] =>
      match auditProof a b proof with
      | .error why => .error why
      | .ok found => .ok (detectEquivocation checkpoints ++ found.toList)
    | _, _ => .ok (detectEquivocation checkpoints)

/-- Two heads in the order of their sizes whose audit found nothing, with a proof where their
sizes differ. -/
def Links (key : Option VerifyingKeyRef) (a b : Checkpoint) : Prop :=
  a.treeSize ≤ b.treeSize ∧ ∃ proof, audit [a, b] key proof = .ok [] ∧
    (a.treeSize < b.treeSize → proof.isSome = true)

end Audit

theorem detectEquivocation_eq_nil {pool : List Checkpoint} :
    detectEquivocation pool = [] ↔ pool.Pairwise fun a b =>
      a.origin = b.origin → a.treeSize = b.treeSize → a.rootHash = b.rootHash := by
  induction pool with
  | nil => exact ⟨fun _ => .nil, fun _ => rfl⟩
  | cons a rest ih =>
    rw [detectEquivocation, List.append_eq_nil_iff, List.filterMap_eq_nil_iff, List.pairwise_cons, ih]
    refine and_congr_left fun _ => forall₂_congr fun b _ => ?_
    split_ifs with horigin hroots
    · simp [horigin]
    · simpa [not_not.mp horigin, hroots.1] using hroots.2
    · simp only [true_iff]
      intro _ hsize
      by_contra hne
      exact hroots ⟨hsize, hne⟩

section Sound

variable [Canon]

/-- A head is over a tree of these leaves. -/
structure Heads (leaves : List Cid) (c : Checkpoint) : Prop where
  size : leaves.length = c.treeSize
  root : IsRoot Canon.node leaves c.rootHash

theorem Heads.grows (hnode : Function.Injective2 Canon.node) {a b : Checkpoint} {older newer : List Cid}
    (ha : Heads older a) (hb : Heads newer b) {proof : ConsistencyProof}
    (h : classifyExtension a b proof = .ok none) : older <+: newer := by
  rw [classifyExtension] at h
  split_ifs at h with horigin hless hsizes
  rw [not_or, not_not, not_not] at hsizes
  split at h
  next => cases h
  next hverify =>
    exact consistency_proof_is_sound hnode proof older newer (ha.size.trans hsizes.1.symm)
      (hb.size.trans hsizes.2.symm) a.rootHash b.rootHash (mth_eq_some.mpr ha.root)
      (mth_eq_some.mpr hb.root) hverify
  next => cases h

variable [Curve] [Cbor CheckpointCore]

theorem audit_pair {a b : Checkpoint} {key : Option VerifyingKeyRef} {proof : Option ConsistencyProof}
    (h : audit [a, b] key proof = .ok []) : detectEquivocation [a, b] = [] ∧
      ∀ given, proof = some given → auditProof a b given = .ok none := by
  unfold audit at h
  rw [if_neg nofun, if_neg (fun hproof => hproof.2 rfl)] at h
  split at h
  next => cases h
  next =>
    cases proof with
    | none => exact ⟨Except.ok.inj h, fun _ hgiven => nomatch hgiven⟩
    | some given =>
      dsimp only at h
      split at h
      next => cases h
      next found hfound =>
        obtain ⟨hdetect, hnone⟩ := List.append_eq_nil_iff.mp (Except.ok.inj h)
        refine ⟨hdetect, fun other hother => ?_⟩
        obtain rfl := Option.some.inj hother
        cases found with
        | none => exact hfound
        | some contradiction => cases hnone

theorem Links.grows (hnode : Function.Injective2 Canon.node) {key : Option VerifyingKeyRef}
    {a b : Checkpoint} (h : Links key a b) (horigin : a.origin = b.origin) {older newer : List Cid}
    (ha : Heads older a) (hb : Heads newer b) : older <+: newer := by
  obtain ⟨hle, proof, haudit, hproof⟩ := h
  obtain ⟨hdetect, hgiven⟩ := audit_pair haudit
  rcases hle.lt_or_eq with hlt | heq
  · obtain ⟨proof, rfl⟩ := Option.isSome_iff_exists.mp (hproof hlt)
    have hclass := hgiven proof rfl
    rw [auditProof, if_neg hlt.ne, if_pos hlt] at hclass
    dsimp only at hclass
    split at hclass
    next => cases hclass
    next found hfound =>
      rw [Except.ok.inj hclass] at hfound
      exact ha.grows hnode hb hfound
  · have hpair := List.pairwise_pair.mp (detectEquivocation_eq_nil.mp hdetect)
    have hroot := hpair horigin heq
    have hsame := ha.root.inj hnode (hroot ▸ hb.root) (by rw [ha.size, hb.size, heq])
    exact hsame ▸ List.prefix_rfl

/-- A chain of heads that link is over one history, of which each of them has the first leaves. -/
theorem one_history (hnode : Function.Injective2 Canon.node) {key : Option VerifyingKeyRef}
    {origin : String} {pool : List Checkpoint} (hchain : pool.IsChain (Links key))
    (horigin : ∀ c ∈ pool, c.origin = origin) (hheads : ∀ c ∈ pool, ∃ leaves, Heads leaves c) :
    ∃ history : List Cid, ∀ c ∈ pool,
      c.treeSize ≤ history.length ∧ mth (history.take c.treeSize) = some c.rootHash := by
  have hstep : ∀ (pool : List Checkpoint) (first : Checkpoint), (first :: pool).IsChain (Links key) →
      (∀ c ∈ first :: pool, c.origin = origin) → (∀ c ∈ first :: pool, ∃ leaves, Heads leaves c) →
      ∀ leaves, Heads leaves first → ∃ history : List Cid, leaves <+: history ∧
        ∀ c ∈ first :: pool,
          c.treeSize ≤ history.length ∧ mth (history.take c.treeSize) = some c.rootHash := by
    intro pool
    induction pool with
    | nil =>
      intro first _ _ _ leaves hfirst
      refine ⟨leaves, List.prefix_rfl, fun c hc => ?_⟩
      obtain rfl := List.mem_singleton.mp hc
      refine ⟨hfirst.size.ge, ?_⟩
      rw [← hfirst.size, List.take_length]
      exact mth_eq_some.mpr hfirst.root
    | cons next pool ih =>
      intro first hchain horigin hheads leaves hfirst
      obtain ⟨hlink, hrest⟩ := List.isChain_cons_cons.mp hchain
      obtain ⟨grown, hnext⟩ := hheads next (List.mem_cons_of_mem _ List.mem_cons_self)
      have hsame : first.origin = next.origin := by
        rw [horigin first List.mem_cons_self, horigin next (List.mem_cons_of_mem _ List.mem_cons_self)]
      have hgrows := hlink.grows hnode hsame hfirst hnext
      obtain ⟨history, hprefix, hall⟩ := ih next hrest
        (fun c hc => horigin c (List.mem_cons_of_mem _ hc))
        (fun c hc => hheads c (List.mem_cons_of_mem _ hc)) grown hnext
      have hleaves : leaves <+: history := hgrows.trans hprefix
      refine ⟨history, hleaves, fun c hc => ?_⟩
      rcases List.mem_cons.mp hc with rfl | hmem
      · refine ⟨hfirst.size ▸ hleaves.length_le, ?_⟩
        rw [← hfirst.size, ← List.prefix_iff_eq_take.mp hleaves]
        exact mth_eq_some.mpr hfirst.root
      · exact hall c hmem
  cases pool with
  | nil => exact ⟨[], fun c hc => nomatch hc⟩
  | cons first pool =>
    obtain ⟨leaves, hfirst⟩ := hheads first List.mem_cons_self
    obtain ⟨history, _, hall⟩ := hstep pool first hchain horigin hheads leaves hfirst
    exact ⟨history, hall⟩

/-- A head a log signs over its first leaves. -/
structure HeadOf (log : TileLog) (origin : String) (key : Option VerifyingKeyRef) (c : Checkpoint) :
    Prop where
  origin : c.origin = origin
  root : log.rootAt c.treeSize = some c.rootHash
  verifies : ∀ k, key = some k → verifyCheckpoint c k = .ok ()

variable {log : TileLog} {origin : String} {key : Option VerifyingKeyRef}

theorem audit_verified {pool : List Checkpoint} (h : ∀ c ∈ pool, HeadOf log origin key c) :
    (key.any fun key => pool.any fun c => verifyCheckpoint c key ≠ .ok ()) = false := by
  cases key with
  | none => rfl
  | some k =>
    rw [Option.any_some, List.any_eq_false]
    intro c hc hfails
    exact of_decide_eq_true hfails ((h c hc).verifies k rfl)

theorem detectEquivocation_headOf {pool : List Checkpoint}
    (h : ∀ c ∈ pool, HeadOf log origin key c) : detectEquivocation pool = [] := by
  apply detectEquivocation_eq_nil.mpr
  apply List.pairwise_of_forall_mem_list
  intro a ha b hb _ hsize
  have hroots := (h a ha).root
  rw [hsize, (h b hb).root] at hroots
  exact (Option.some.inj hroots).symm

theorem HeadOf.audit (hlog : log.Built) {a b : Checkpoint} (ha : HeadOf log origin key a)
    (hb : HeadOf log origin key b) (hlt : a.treeSize < b.treeSize) :
    ∃ proof, proveConsistency log a.treeSize b.treeSize = .ok proof ∧
      audit [a, b] key (some proof) = .ok [] ∧ audit [b, a] key (some proof) = .ok [] := by
  obtain ⟨proof, oldRoot, newRoot, hproof, hold, hnew, hrootA, hrootB, hverify⟩ :=
    hlog.kept.verifyConsistency (rootAt_inside hlog.kept ha.root).1 hlt.le
      (rootAt_inside hlog.kept hb.root).2
  rw [ha.root] at hrootA
  rw [hb.root] at hrootB
  obtain rfl := Option.some.inj hrootA
  obtain rfl := Option.some.inj hrootB
  have hclass : classifyExtension a b proof = .ok none := by
    rw [classifyExtension, if_neg (not_not.mpr (ha.origin.trans hb.origin.symm)),
      if_neg (by omega), if_neg (by rw [hold, hnew]; simp), hverify]
  have hpool : ∀ pool : List Checkpoint, (∀ c ∈ pool, c = a ∨ c = b) →
      ∀ c ∈ pool, HeadOf log origin key c := by
    intro pool hpool c hc
    rcases hpool c hc with rfl | rfl
    · exact ha
    · exact hb
  have hab := hpool [a, b] (by simp)
  have hba := hpool [b, a] (by simp [or_comm])
  refine ⟨proof, hproof, ?_, ?_⟩
  · unfold Ledger.audit
    rw [if_neg nofun, if_neg (fun hproof => hproof.2 rfl), audit_verified hab, if_neg nofun]
    dsimp only
    rw [auditProof, if_neg hlt.ne, if_pos hlt]
    dsimp only
    rw [hclass]
    dsimp only
    rw [detectEquivocation_headOf hab]
    rfl
  · unfold Ledger.audit
    rw [if_neg nofun, if_neg (fun hproof => hproof.2 rfl), audit_verified hba, if_neg nofun]
    dsimp only
    rw [auditProof, if_neg hlt.ne', if_neg hlt.not_gt]
    dsimp only
    rw [hclass]
    dsimp only
    rw [detectEquivocation_headOf hba]
    rfl

end Sound

/-- Heads of one origin that link one to the next are over one history, whoever collected them and
whatever proofs were offered; and whatever heads of one log are audited, in any order and with the
log's own proofs, nothing is found. -/
theorem pooled_heads_are_of_one_history [Canon] [Curve] [Cbor CheckpointCore]
    (hnode : Function.Injective2 Canon.node) (key : Option VerifyingKeyRef) (origin : String) :
    (∀ pool : List Checkpoint, pool.IsChain (Links key) →
      (∀ c ∈ pool, c.origin = origin) → (∀ c ∈ pool, ∃ leaves, Heads leaves c) →
      ∃ history : List Cid, ∀ c ∈ pool,
        c.treeSize ≤ history.length ∧ mth (history.take c.treeSize) = some c.rootHash) ∧
    ∀ log : TileLog, log.Built → ∀ pool : List Checkpoint,
      (∀ c ∈ pool, HeadOf log origin key c) →
      (pool ≠ [] → audit pool key none = .ok []) ∧
        ∀ a ∈ pool, ∀ b ∈ pool, a.treeSize < b.treeSize →
          ∃ proof, proveConsistency log a.treeSize b.treeSize = .ok proof ∧
            audit [a, b] key (some proof) = .ok [] ∧ audit [b, a] key (some proof) = .ok [] := by
  refine ⟨fun pool hchain horigin hheads => one_history hnode hchain horigin hheads,
    fun log hlog pool hpool => ⟨fun hne => ?_, fun a ha b hb hlt => ?_⟩⟩
  · unfold audit
    rw [if_neg hne, if_neg (fun hproof => nomatch hproof.1), audit_verified hpool, if_neg nofun]
    exact congrArg Except.ok (detectEquivocation_headOf hpool)
  · exact (hpool a ha).audit hlog (hpool b hb) hlt

/-- The two heads of the log of two entries. -/
def twoHeads [Canon] : Checkpoint × Checkpoint :=
  (⟨"o", 1, leafHash ⟨0, ⟨[2]⟩, ⟨[1]⟩⟩, 0, ⟨"k", []⟩⟩,
    ⟨"o", 2, Canon.node (leafHash ⟨0, ⟨[2]⟩, ⟨[1]⟩⟩) (leafHash ⟨1, ⟨[4]⟩, ⟨[3]⟩⟩), 1, ⟨"k", []⟩⟩)

open Tracefold.Ideal Witness.Sample in
theorem pooled_heads_are_of_one_history_two :
    @audit _ (curve []) _ [twoHeads.1, twoHeads.2] none none = .ok [] ∧
      ∃ history : List Cid, ∀ c ∈ [twoHeads.1, twoHeads.2],
        c.treeSize ≤ history.length ∧ mth (history.take c.treeSize) = some c.rootHash := by
  have hboth := @pooled_heads_are_of_one_history _ (curve []) _ node_injective none "o"
  have hheads : ∀ c ∈ [twoHeads.1, twoHeads.2], @HeadOf _ (curve []) _ twoEntries "o" none c := by
    intro c hc
    have hroots : twoEntries.rootAt 1 = some twoHeads.1.rootHash ∧
        twoEntries.rootAt 2 = some twoHeads.2.rootHash := by decide
    rcases List.mem_pair.mp hc with rfl | rfl
    · exact @HeadOf.mk _ (curve []) _ _ _ _ _ rfl hroots.1 nofun
    · exact @HeadOf.mk _ (curve []) _ _ _ _ _ rfl hroots.2 nofun
  obtain ⟨hnone, hpairs⟩ := hboth.2 twoEntries twoEntries_built _ hheads
  obtain ⟨proof, _, haudit, _⟩ := hpairs twoHeads.1 (by simp) twoHeads.2 (by simp) (by decide)
  refine ⟨hnone (by simp), hboth.1 [twoHeads.1, twoHeads.2] ?_ (by decide) fun c hc => ?_⟩
  · exact List.isChain_pair.mpr ⟨by decide, some proof, haudit, fun _ => rfl⟩
  · rcases List.mem_pair.mp hc with rfl | rfl
    · exact ⟨[leafHash ⟨0, ⟨[2]⟩, ⟨[1]⟩⟩], rfl, .leaf _⟩
    · exact ⟨[leafHash ⟨0, ⟨[2]⟩, ⟨[1]⟩⟩, leafHash ⟨1, ⟨[4]⟩, ⟨[3]⟩⟩], rfl,
        mth_eq_some.mp (by decide)⟩

end Tracefold.Ledger
