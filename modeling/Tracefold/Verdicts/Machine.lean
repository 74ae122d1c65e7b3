import Mathlib.Tactic.Common
import Tracefold.Library.Seams
import Tracefold.Windows

/-! The audit of a verdict chain in the integers of the machine, where a sum can wrap and a
difference saturates. -/

namespace Tracefold.GxLog

open Library.Seams

structure VerdictTally where
  denies : UInt64
  admits : UInt64
  escalates : UInt64
  unverdicted : UInt64
  deriving DecidableEq, Repr

structure VerdictCheckpoint where
  origin : String
  tally : VerdictTally
  windowStart : UInt64
  windowEnd : UInt64
  ledgerRootHash : Option Cid
  ledgerTreeSize : UInt64
  timestamp : Timestamp
  keyId : KeyId
  deriving DecidableEq, Repr

namespace VerdictTally

def empty : VerdictTally := ⟨0, 0, 0, 0⟩

/-- `VerdictTally::total`, which wraps. -/
def total (t : VerdictTally) : UInt64 := t.denies + t.admits + t.escalates + t.unverdicted

/-- The four sums of the fold, which wrap. -/
def add (t u : VerdictTally) : VerdictTally :=
  ⟨t.denies + u.denies, t.admits + u.admits, t.escalates + u.escalates,
    t.unverdicted + u.unverdicted⟩

/-- The same counts, without a bound. -/
def exact (t : VerdictTally) : Tracefold.VerdictTally :=
  ⟨t.denies.toNat, t.admits.toNat, t.escalates.toNat, t.unverdicted.toNat⟩

end VerdictTally

/-- `u64::saturating_sub`. -/
def saturatingSub (a b : UInt64) : UInt64 := if b ≤ a then a - b else 0

/-- What the audit of a chain carries from one checkpoint to the next. -/
structure ChainAudit where
  found : List ChainBreak
  folded : VerdictTally
  previousEnd : Option UInt64
  previousLedger : Option UInt64

def ChainAudit.start : ChainAudit := ⟨[], .empty, none, none⟩

def ChainAudit.next (a : ChainAudit) (c : VerdictCheckpoint) : ChainAudit :=
  let width := saturatingSub c.windowEnd c.windowStart
  let mismatch := if width ≠ c.tally.total
    then [ChainBreak.windowDoesNotMatchTally width.toNat c.tally.total.toNat] else []
  let gap := match a.previousEnd with
    | some before =>
      if before ≠ c.windowStart then [ChainBreak.gap before.toNat c.windowStart.toNat] else []
    | none => []
  let backwards := match a.previousLedger with
    | some before =>
      if c.ledgerTreeSize < before then
        [ChainBreak.ledgerWentBackwards before.toNat c.ledgerTreeSize.toNat]
      else []
    | none => []
  { found := a.found ++ mismatch ++ gap ++ backwards
    folded := a.folded.add c.tally
    previousEnd := some c.windowEnd
    previousLedger := some c.ledgerTreeSize }

/-- A kind the auditor has seen more often than the chain claims. -/
def underreported (kind : VerdictKind) (claimed seen : UInt64) : List ChainBreak :=
  if claimed < seen then [.underreported kind claimed.toNat seen.toNat] else []

/-- `audit_verdict_chain`. -/
def auditVerdictChain (checkpoints : List VerdictCheckpoint) (observed : VerdictTally)
    (ledgerTreeSize : UInt64) : List ChainBreak :=
  let a := checkpoints.foldl ChainAudit.next .start
  let admitted := a.folded.admits + a.folded.unverdicted
  a.found ++ underreported .Deny a.folded.denies observed.denies ++
    underreported .Admit a.folded.admits observed.admits ++
    underreported .Escalate a.folded.escalates observed.escalates ++
    if admitted < ledgerTreeSize then [.behindTheLedger admitted.toNat ledgerTreeSize.toNat] else []

/-- The sums of the fold over a chain. -/
def folded (checkpoints : List VerdictCheckpoint) : VerdictTally :=
  checkpoints.foldl (fun t c => t.add c.tally) .empty

/-- The counts a chain speaks for, without a bound. -/
def claimed (checkpoints : List VerdictCheckpoint) : Tracefold.VerdictTally :=
  checkpoints.foldl (fun t c => t.add c.tally.exact) .empty

/-- A chain that adds up, over the integers. -/
structure AddsUp (checkpoints : List VerdictCheckpoint) (observed : VerdictTally)
    (ledgerTreeSize : UInt64) : Prop where
  forwards : ∀ c ∈ checkpoints, c.windowStart ≤ c.windowEnd
  seams : checkpoints.IsChain fun a b => a.windowEnd = b.windowStart
  totals : ∀ c ∈ checkpoints, c.tally.total.toNat = c.tally.exact.total
  sums : ∀ n, (folded (checkpoints.take n)).exact = claimed (checkpoints.take n)
  width : ∀ first ∈ checkpoints.head?, ∀ last ∈ checkpoints.getLast?,
    (((checkpoints.map fun c => c.tally.exact.total).sum : ℕ) : ℤ) =
      (last.windowEnd.toNat : ℤ) - first.windowStart.toNat
  denies : observed.denies.toNat ≤ (claimed checkpoints).denies
  admits : observed.admits.toNat ≤ (claimed checkpoints).admits
  escalates : observed.escalates.toNat ≤ (claimed checkpoints).escalates
  ledger : ledgerTreeSize.toNat ≤ (claimed checkpoints).admits + (claimed checkpoints).unverdicted

/-- A chain in which the machine's arithmetic finds nothing: every saturated width is the wrapped
total, no seam is open, and the ledger never falls back. -/
structure Seamless (checkpoints : List VerdictCheckpoint) : Prop where
  widths : ∀ c ∈ checkpoints, saturatingSub c.windowEnd c.windowStart = c.tally.total
  seams : checkpoints.IsChain fun a b => a.windowEnd = b.windowStart
  ledger : checkpoints.IsChain fun a b => a.ledgerTreeSize ≤ b.ledgerTreeSize

theorem toNat_saturatingSub (a b : UInt64) : (saturatingSub a b).toNat = a.toNat - b.toNat := by
  rw [saturatingSub]
  split_ifs with hle
  · exact UInt64.toNat_sub_of_le a b hle
  · rw [UInt64.le_iff_toNat_le] at hle
    rw [Nat.sub_eq_zero_of_le (by omega)]
    rfl

theorem VerdictTally.toNat_total {t : VerdictTally} (h : t.exact.total < 2 ^ 64) :
    t.total.toNat = t.exact.total := by
  simp only [Tracefold.VerdictTally.total, exact] at h ⊢
  simp only [total, UInt64.toNat_add]
  omega

theorem VerdictTally.exact_add {t u : VerdictTally} (h : (t.exact.add u.exact).total < 2 ^ 64) :
    (t.add u).exact = t.exact.add u.exact := by
  simp only [Tracefold.VerdictTally.total, Tracefold.VerdictTally.add, exact] at h ⊢
  simp only [add, UInt64.toNat_add, Tracefold.VerdictTally.mk.injEq]
  omega

section Audit

variable {checkpoints : List VerdictCheckpoint}

theorem seamless_nil : Seamless [] := ⟨by simp, .nil, .nil⟩

theorem seamless_cons {c : VerdictCheckpoint} :
    Seamless (c :: checkpoints) ↔
      saturatingSub c.windowEnd c.windowStart = c.tally.total ∧
      (∀ first ∈ checkpoints.head?, c.windowEnd = first.windowStart) ∧
      (∀ first ∈ checkpoints.head?, c.ledgerTreeSize ≤ first.ledgerTreeSize) ∧
      Seamless checkpoints := by
  constructor
  · rintro ⟨hwidths, hseams, hledger⟩
    rw [List.isChain_cons] at hseams hledger
    refine ⟨hwidths c List.mem_cons_self, hseams.1, hledger.1, ?_, hseams.2, hledger.2⟩
    intro d hd
    exact hwidths d (List.mem_cons_of_mem c hd)
  · rintro ⟨hwidth, hseam, hgrows, hrest⟩
    refine ⟨?_, List.isChain_cons.mpr ⟨hseam, hrest.seams⟩,
      List.isChain_cons.mpr ⟨hgrows, hrest.ledger⟩⟩
    intro d hd
    rcases List.mem_cons.mp hd with rfl | hd
    · exact hwidth
    · exact hrest.widths d hd

theorem ChainAudit.found_next (a : ChainAudit) (c : VerdictCheckpoint) :
    (a.next c).found = [] ↔
      a.found = [] ∧ saturatingSub c.windowEnd c.windowStart = c.tally.total ∧
      (∀ before ∈ a.previousEnd, before = c.windowStart) ∧
      ∀ before ∈ a.previousLedger, before ≤ c.ledgerTreeSize := by
  rw [next]
  simp only [List.append_eq_nil_iff, and_assoc]
  cases a.previousEnd <;> cases a.previousLedger <;> simp [UInt64.not_lt]

theorem ChainAudit.found_foldl (a : ChainAudit) :
    (checkpoints.foldl next a).found = [] ↔
      a.found = [] ∧ Seamless checkpoints ∧
      (∀ before ∈ a.previousEnd, ∀ first ∈ checkpoints.head?, before = first.windowStart) ∧
      ∀ before ∈ a.previousLedger, ∀ first ∈ checkpoints.head?,
        before ≤ first.ledgerTreeSize := by
  induction checkpoints generalizing a with
  | nil => simp [seamless_nil]
  | cons c checkpoints ih =>
    rw [List.foldl_cons, ih, found_next, seamless_cons]
    simp only [next, List.head?_cons, Option.mem_some_iff, forall_eq']
    tauto

theorem ChainAudit.folded_foldl (a : ChainAudit) :
    (checkpoints.foldl next a).folded = checkpoints.foldl (fun t c => t.add c.tally) a.folded := by
  induction checkpoints generalizing a with
  | nil => rfl
  | cons c checkpoints ih => exact ih (a.next c)

theorem underreported_eq_nil {kind : VerdictKind} {claimed seen : UInt64} :
    underreported kind claimed seen = [] ↔ seen ≤ claimed := by
  rw [underreported]
  split_ifs with hlt
  · simpa using hlt
  · simpa using hlt

theorem auditVerdictChain_eq_nil {observed : VerdictTally} {ledgerTreeSize : UInt64} :
    auditVerdictChain checkpoints observed ledgerTreeSize = [] ↔
      Seamless checkpoints ∧ observed.denies ≤ (folded checkpoints).denies ∧
      observed.admits ≤ (folded checkpoints).admits ∧
      observed.escalates ≤ (folded checkpoints).escalates ∧
      ledgerTreeSize ≤ (folded checkpoints).admits + (folded checkpoints).unverdicted := by
  have hfolded : (checkpoints.foldl ChainAudit.next .start).folded = folded checkpoints :=
    ChainAudit.folded_foldl .start
  have hfound : (checkpoints.foldl ChainAudit.next .start).found = [] ↔ Seamless checkpoints := by
    rw [ChainAudit.found_foldl]
    simp [ChainAudit.start]
  rw [auditVerdictChain]
  simp only [List.append_eq_nil_iff, hfolded, hfound, underreported_eq_nil, and_assoc]
  simp

theorem claimed_concat (c : VerdictCheckpoint) :
    claimed (checkpoints ++ [c]) = (claimed checkpoints).add c.tally.exact := by
  rw [claimed, List.foldl_append]
  rfl

theorem folded_concat (c : VerdictCheckpoint) :
    folded (checkpoints ++ [c]) = (folded checkpoints).add c.tally := by
  rw [folded, List.foldl_append]
  rfl

theorem total_claimed (checkpoints : List VerdictCheckpoint) :
    (claimed checkpoints).total = (checkpoints.map fun c => c.tally.exact.total).sum := by
  induction checkpoints using List.reverseRecOn with
  | nil => rfl
  | append_singleton checkpoints c ih =>
    rw [claimed_concat, List.map_append, List.sum_append, ← ih]
    simp only [Tracefold.VerdictTally.total, Tracefold.VerdictTally.add, List.map_singleton,
      List.sum_singleton]
    omega

theorem total_claimed_take_le (checkpoints : List VerdictCheckpoint) (n : ℕ) :
    (claimed (checkpoints.take n)).total ≤ (claimed checkpoints).total := by
  have hsum : (checkpoints.map fun c => c.tally.exact.total).sum =
      ((checkpoints.take n).map fun c => c.tally.exact.total).sum +
        ((checkpoints.drop n).map fun c => c.tally.exact.total).sum := by
    rw [← List.sum_append, ← List.map_append, List.take_append_drop]
  rw [total_claimed, total_claimed, hsum]
  exact Nat.le_add_right _ _

/-- Sums that stay below the bound are those of the machine. -/
theorem exact_folded (h : (claimed checkpoints).total < 2 ^ 64) :
    (folded checkpoints).exact = claimed checkpoints := by
  induction checkpoints using List.reverseRecOn with
  | nil => rfl
  | append_singleton checkpoints c ih =>
    rw [claimed_concat] at h ⊢
    have hbefore : (claimed checkpoints).total < 2 ^ 64 := by
      simp only [Tracefold.VerdictTally.total, Tracefold.VerdictTally.add] at h ⊢
      omega
    rw [← ih hbefore] at h ⊢
    rw [folded_concat, VerdictTally.exact_add h]

/-- The checkpoint over unbounded counts. -/
def VerdictCheckpoint.exact (c : VerdictCheckpoint) : Tracefold.VerdictCheckpoint :=
  ⟨c.origin, c.tally.exact, c.windowStart.toNat, c.windowEnd.toNat, c.ledgerRootHash,
    c.ledgerTreeSize.toNat, c.timestamp, c.keyId⟩

def ChainAudit.exact (a : ChainAudit) : Tracefold.ChainAudit :=
  ⟨a.found, a.folded.exact, a.previousEnd.map UInt64.toNat, a.previousLedger.map UInt64.toNat⟩

theorem ChainAudit.exact_next (a : ChainAudit) (c : VerdictCheckpoint)
    (h : (a.folded.exact.add c.tally.exact).total < 2 ^ 64) :
    (a.next c).exact = a.exact.next c.exact := by
  have htotal : c.tally.exact.total < 2 ^ 64 := by
    simp only [Tracefold.VerdictTally.total, Tracefold.VerdictTally.add] at h ⊢
    omega
  have hmismatch : (if saturatingSub c.windowEnd c.windowStart ≠ c.tally.total
        then [ChainBreak.windowDoesNotMatchTally
          (saturatingSub c.windowEnd c.windowStart).toNat c.tally.total.toNat] else []) =
      if c.windowEnd.toNat - c.windowStart.toNat ≠ c.tally.exact.total
        then [ChainBreak.windowDoesNotMatchTally
          (c.windowEnd.toNat - c.windowStart.toNat) c.tally.exact.total] else [] := by
    rw [← toNat_saturatingSub, ← VerdictTally.toNat_total htotal]
    exact if_congr (not_congr UInt64.toNat_inj.symm) rfl rfl
  have hgap : ∀ before : UInt64,
      (if before ≠ c.windowStart then [ChainBreak.gap before.toNat c.windowStart.toNat] else []) =
      if before.toNat ≠ c.windowStart.toNat
        then [ChainBreak.gap before.toNat c.windowStart.toNat] else [] :=
    fun before => if_congr (not_congr UInt64.toNat_inj.symm) rfl rfl
  have hbackwards : ∀ before : UInt64,
      (if c.ledgerTreeSize < before
        then [ChainBreak.ledgerWentBackwards before.toNat c.ledgerTreeSize.toNat] else []) =
      if c.ledgerTreeSize.toNat < before.toNat
        then [ChainBreak.ledgerWentBackwards before.toNat c.ledgerTreeSize.toNat] else [] :=
    fun before => if_congr UInt64.lt_iff_toNat_lt rfl rfl
  rw [next, Tracefold.ChainAudit.next]
  dsimp only [exact, VerdictCheckpoint.exact]
  rw [VerdictTally.exact_add h, hmismatch]
  cases a.previousEnd <;> cases a.previousLedger <;>
    simp only [hgap, hbackwards, Option.map_some, Option.map_none] <;> rfl

theorem le_total_foldl (t : Tracefold.VerdictTally) :
    t.total ≤ (checkpoints.foldl (fun t c => t.add c.tally.exact) t).total := by
  induction checkpoints generalizing t with
  | nil => exact le_rfl
  | cons c checkpoints ih =>
    have hstep : t.total ≤ (t.add c.tally.exact).total := by
      simp only [Tracefold.VerdictTally.total, Tracefold.VerdictTally.add]
      omega
    exact hstep.trans (ih _)

theorem ChainAudit.exact_foldl (a : ChainAudit)
    (h : (checkpoints.foldl (fun t c => t.add c.tally.exact) a.folded.exact).total < 2 ^ 64) :
    (checkpoints.foldl next a).exact =
      (checkpoints.map VerdictCheckpoint.exact).foldl Tracefold.ChainAudit.next a.exact := by
  induction checkpoints generalizing a with
  | nil => rfl
  | cons c checkpoints ih =>
    rw [List.foldl_cons] at h
    have hnext : (a.folded.exact.add c.tally.exact).total < 2 ^ 64 :=
      Nat.lt_of_le_of_lt (le_total_foldl _) h
    have hfolded : (a.next c).folded.exact = a.folded.exact.add c.tally.exact :=
      VerdictTally.exact_add hnext
    rw [← hfolded] at h
    rw [List.foldl_cons, ih (a.next c) h, a.exact_next c hnext]
    rfl

theorem underreported_exact (kind : VerdictKind) (claimed seen : UInt64) :
    underreported kind claimed seen = Tracefold.underreported kind claimed.toNat seen.toNat := by
  rw [underreported, Tracefold.underreported]
  exact if_congr UInt64.lt_iff_toNat_lt rfl rfl

theorem auditVerdictChain_exact (h : (claimed checkpoints).total < 2 ^ 64) (observed : VerdictTally)
    (ledgerTreeSize : UInt64) :
    auditVerdictChain checkpoints observed ledgerTreeSize =
      Tracefold.auditVerdictChain (checkpoints.map VerdictCheckpoint.exact) observed.exact
        ledgerTreeSize.toNat := by
  have hfold := ChainAudit.exact_foldl .start h
  have hfolded : (checkpoints.foldl ChainAudit.next .start).folded.exact = claimed checkpoints := by
    rw [ChainAudit.folded_foldl]
    exact exact_folded h
  have hstart : ChainAudit.start.exact = Tracefold.ChainAudit.start := rfl
  rw [← hfolded] at h
  rw [Tracefold.auditVerdictChain, auditVerdictChain, ← hstart, ← hfold]
  generalize checkpoints.foldl ChainAudit.next .start = a at h
  have hreached : (a.folded.admits + a.folded.unverdicted).toNat =
      a.folded.admits.toNat + a.folded.unverdicted.toNat := by
    simp only [Tracefold.VerdictTally.total, VerdictTally.exact] at h
    rw [UInt64.toNat_add]
    omega
  have hbehind : (if a.folded.admits + a.folded.unverdicted < ledgerTreeSize
        then [ChainBreak.behindTheLedger (a.folded.admits + a.folded.unverdicted).toNat
          ledgerTreeSize.toNat] else []) =
      if a.folded.admits.toNat + a.folded.unverdicted.toNat < ledgerTreeSize.toNat
        then [ChainBreak.behindTheLedger (a.folded.admits.toNat + a.folded.unverdicted.toNat)
          ledgerTreeSize.toNat] else [] := by
    rw [← hreached]
    exact if_congr UInt64.lt_iff_toNat_lt rfl rfl
  rw [hbehind, underreported_exact, underreported_exact, underreported_exact]
  rfl

theorem Seamless.exact_total (h : Seamless checkpoints)
    (htotals : ∀ c ∈ checkpoints, c.tally.exact.total < 2 ^ 64) {c : VerdictCheckpoint}
    (hc : c ∈ checkpoints) : c.tally.exact.total = c.windowEnd.toNat - c.windowStart.toNat := by
  rw [← VerdictTally.toNat_total (htotals c hc), ← h.widths c hc, toNat_saturatingSub]

theorem Seamless.sum {x : VerdictCheckpoint} (h : Seamless (x :: checkpoints))
    (hforwards : ∀ c ∈ x :: checkpoints, c.windowStart ≤ c.windowEnd)
    (htotals : ∀ c ∈ x :: checkpoints, c.tally.exact.total < 2 ^ 64) :
    x.windowStart.toNat + ((x :: checkpoints).map fun c => c.tally.exact.total).sum =
      ((x :: checkpoints).getLast (List.cons_ne_nil _ _)).windowEnd.toNat := by
  have hlaid : Laid (fun c : VerdictCheckpoint => c.windowStart.toNat)
      (fun c : VerdictCheckpoint => c.windowEnd.toNat) _ _ _ :=
    laid_of_isChain (fun c hc => UInt64.le_iff_toNat_le.mp (hforwards c hc))
      (h.seams.imp fun _ _ hseam => congrArg UInt64.toNat hseam)
  rw [← hlaid.sum, List.map_congr_left fun c hc => h.exact_total htotals hc]

/-- A chain of which nothing runs backwards and no total wraps, and which its audit passes, adds
up. -/
theorem addsUp_of_audit {observed : VerdictTally} {ledgerTreeSize : UInt64}
    (hforwards : ∀ c ∈ checkpoints, c.windowStart ≤ c.windowEnd)
    (htotals : ∀ c ∈ checkpoints, c.tally.exact.total < 2 ^ 64)
    (haudit : auditVerdictChain checkpoints observed ledgerTreeSize = []) :
    AddsUp checkpoints observed ledgerTreeSize := by
  obtain ⟨hseamless, hdenies, hadmits, hescalates, hledger⟩ := auditVerdictChain_eq_nil.mp haudit
  have hbound : (claimed checkpoints).total < 2 ^ 64 := by
    cases checkpoints with
    | nil => decide
    | cons x checkpoints =>
      have hsum := hseamless.sum hforwards htotals
      rw [total_claimed]
      have hlast := UInt64.toNat_lt
        ((x :: checkpoints).getLast (List.cons_ne_nil _ _)).windowEnd
      omega
  have hfolded := exact_folded hbound
  have hreached : ((folded checkpoints).admits + (folded checkpoints).unverdicted).toNat =
      (claimed checkpoints).admits + (claimed checkpoints).unverdicted := by
    rw [← hfolded] at hbound ⊢
    simp only [Tracefold.VerdictTally.total, VerdictTally.exact] at hbound ⊢
    rw [UInt64.toNat_add]
    omega
  rw [UInt64.le_iff_toNat_le] at hdenies hadmits hescalates hledger
  refine ⟨hforwards, hseamless.seams, ?_, ?_, ?_, ?_, ?_, ?_, ?_⟩
  · intro c hc
    exact VerdictTally.toNat_total (htotals c hc)
  · intro n
    exact exact_folded (Nat.lt_of_le_of_lt (total_claimed_take_le checkpoints n) hbound)
  · intro first hfirst last hlast
    cases checkpoints with
    | nil => cases hfirst
    | cons x checkpoints =>
      cases hfirst
      rw [List.getLast?_eq_some_getLast (List.cons_ne_nil _ _)] at hlast
      cases hlast
      have hsum := hseamless.sum hforwards htotals
      omega
  · rwa [← hfolded]
  · rwa [← hfolded]
  · rwa [← hfolded]
  · rwa [← hreached]

/-- A chain with no finding adds up, whoever audits it, exactly where it has no finding only if
nothing in it runs backwards and no total wraps. -/
theorem audited_chains_add_up (checkpoints : List VerdictCheckpoint) :
    (∀ observed ledgerTreeSize, auditVerdictChain checkpoints observed ledgerTreeSize = [] →
      AddsUp checkpoints observed ledgerTreeSize) ↔
    (Seamless checkpoints → ∀ c ∈ checkpoints,
      c.windowStart ≤ c.windowEnd ∧ c.tally.exact.total < 2 ^ 64) := by
  constructor
  · intro hadds hseamless c hc
    have haudit : auditVerdictChain checkpoints .empty 0 = [] := by
      rw [auditVerdictChain_eq_nil]
      refine ⟨hseamless, ?_, ?_, ?_, ?_⟩ <;> exact UInt64.zero_le
    have hup := hadds .empty 0 haudit
    constructor
    · exact hup.forwards c hc
    · rw [← hup.totals c hc]
      exact UInt64.toNat_lt _
  · intro hcondition observed ledgerTreeSize haudit
    have hseamless := (auditVerdictChain_eq_nil.mp haudit).1
    exact addsUp_of_audit (fun c hc => (hcondition hseamless c hc).1)
      (fun c hc => (hcondition hseamless c hc).2) haudit

end Audit

/-- A checkpoint of one window that counts refusals. -/
def windowOf (start stop denies : UInt64) : VerdictCheckpoint :=
  ⟨"o", ⟨denies, 0, 0, 0⟩, start, stop, none, 0, 0, "k"⟩

/-- A window that runs backwards is taken for an empty one, and seven refusals are claimed for the
five between the first and the last. -/
theorem backwards_window_is_not_found :
    auditVerdictChain [windowOf 0 5 5, windowOf 5 3 0, windowOf 3 5 2] .empty 0 = [] ∧
    ¬ AddsUp [windowOf 0 5 5, windowOf 5 3 0, windowOf 3 5 2] .empty 0 := by
  constructor
  · decide
  · intro h
    exact absurd (h.forwards (windowOf 5 3 0) (by decide)) (by decide)

end Tracefold.GxLog
