import Mathlib.Tactic.Common
import Tracefold.Library.Seams
import Tracefold.Windows

/-! Two chains of one origin, pooled: a fork between them is a pair that contradicts itself, and
one chain alone holds no such pair. -/

namespace Tracefold

open Library.Seams

/-- A chain of one origin: its windows run forwards, from the first verdict on, end to end. -/
def Chain (origin : String) (log : List VerdictCheckpoint) : Prop :=
  (∀ c ∈ log, c.origin = origin) ∧
    ∃ stop, Laid VerdictCheckpoint.windowStart VerdictCheckpoint.windowEnd 0 log stop

/-- The windows that are not empty, each with what was counted in it. -/
def counted (log : List VerdictCheckpoint) : List (ℕ × ℕ × VerdictTally) :=
  (log.filter fun c => c.windowStart < c.windowEnd).map fun c => (c.windowStart, c.windowEnd, c.tally)

/-- Two empty windows at one place carry one tally. -/
def OneTallyASeam (log : List VerdictCheckpoint) : Prop :=
  ∀ a ∈ log, ∀ b ∈ log, a.windowStart = a.windowEnd → b.windowStart = b.windowEnd →
    a.windowStart = b.windowStart → a.tally = b.tally

theorem pairwise_of_detectVerdictEquivocation {log : List VerdictCheckpoint}
    (h : detectVerdictEquivocation log = []) : log.Pairwise fun a b => contradictions a b = [] := by
  induction log with
  | nil => exact .nil
  | cons c log ih =>
    rw [detectVerdictEquivocation, List.append_eq_nil_iff] at h
    apply List.Pairwise.cons
    · exact List.flatMap_eq_nil_iff.mp h.1
    · exact ih h.2

theorem eq_of_contradictions {a b : VerdictCheckpoint} (horigin : a.origin = b.origin)
    (h : contradictions a b = []) (hab : a.windowStart < b.windowEnd)
    (hba : b.windowStart < a.windowEnd) :
    a.windowStart = b.windowStart ∧ a.windowEnd = b.windowEnd ∧ a.tally = b.tally := by
  rw [contradictions, if_neg (not_not.mpr horigin)] at h
  have hwindows := (List.append_eq_nil_iff.mp h).1
  split_ifs at hwindows with hsame htally hoverlap
  · exact ⟨hsame.1, hsame.2, not_not.mp htally⟩
  · exact absurd ⟨hab, hba⟩ hoverlap

/-- Pooling two chains of one origin exposes any fork, and one chain exposes none. -/
theorem pooled_chains_expose_a_fork (origin : String) :
    (∀ A B, Chain origin A → Chain origin B → detectVerdictEquivocation (A ++ B) = [] →
      counted A <+: counted B ∨ counted B <+: counted A) ∧
    ∀ chain, Chain origin chain →
      (∃ root : ℕ → Option Cid, ∀ c ∈ chain, c.ledgerRootHash = root c.ledgerTreeSize) →
      OneTallyASeam chain →
      ∀ drawn, (∀ c ∈ drawn, c ∈ chain) → detectVerdictEquivocation drawn = [] := by
  constructor
  · rintro A B ⟨horiginA, stopA, hA⟩ ⟨horiginB, stopB, hB⟩ hdetect
    have hpairs := (List.pairwise_append.mp (pairwise_of_detectVerdictEquivocation hdetect)).2.2
    unfold counted
    apply Laid.prefix_or hA.filter hB.filter
    · intro c hc
      simpa using (List.mem_filter.mp hc).2
    · intro c hc
      simpa using (List.mem_filter.mp hc).2
    · intro a ha b hb hab hba
      have hmemA := (List.mem_filter.mp ha).1
      have hmemB := (List.mem_filter.mp hb).1
      have horigin : a.origin = b.origin := (horiginA a hmemA).trans (horiginB b hmemB).symm
      obtain ⟨hstart, hend, htally⟩ :=
        eq_of_contradictions horigin (hpairs a hmemA b hmemB) hab hba
      exact ⟨hend, by rw [hstart, hend, htally]⟩
  · rintro chain ⟨_, stop, hchain⟩ ⟨root, hroot⟩ hseam drawn hdrawn
    apply detectVerdictEquivocation_eq_nil
    apply List.pairwise_of_forall_mem_list
    intro a ha b hb
    have hmemA := hdrawn a ha
    have hmemB := hdrawn b hb
    have hroots : a.ledgerTreeSize = b.ledgerTreeSize → a.ledgerRootHash = b.ledgerRootHash := by
      intro hsize
      rw [hroot a hmemA, hroot b hmemB, hsize]
    obtain ⟨_, hforwards, _⟩ := hchain.mem hmemA
    rcases hchain.apart hmemA hmemB with rfl | happart
    · exact contradictions_eq_nil (fun _ _ => ⟨rfl, rfl⟩) (fun _ _ => rfl) hroots
    · apply contradictions_eq_nil (by omega) _ hroots
      intro hstart hend
      exact hseam a hmemA b hmemB (by omega) (by omega) hstart

/-- A checkpoint of one window, over an empty ledger. -/
def windowOf (start stop : ℕ) (tally : VerdictTally) : VerdictCheckpoint :=
  ⟨"o", tally, start, stop, none, 0, 0, "k"⟩

/-- Two views that agree up to the third verdict, and then disagree on a seam. -/
theorem pooled_chains_expose_a_fork_at_a_seam :
    detectVerdictEquivocation
      ([windowOf 0 3 ⟨3, 0, 0, 0⟩, windowOf 3 4 ⟨1, 0, 0, 0⟩] ++
        [windowOf 0 3 ⟨3, 0, 0, 0⟩, windowOf 3 5 ⟨0, 2, 0, 0⟩]) ≠ [] ∧
    detectVerdictEquivocation [windowOf 3 4 ⟨1, 0, 0, 0⟩, windowOf 0 3 ⟨3, 0, 0, 0⟩,
      windowOf 3 4 ⟨1, 0, 0, 0⟩] = [] := by
  have hviewA : Chain "o" [windowOf 0 3 ⟨3, 0, 0, 0⟩, windowOf 3 4 ⟨1, 0, 0, 0⟩] :=
    ⟨by decide, 4, .cons (x := windowOf 0 3 _) (by decide)
      (.cons (x := windowOf 3 4 _) (by decide) (.nil 4))⟩
  have hviewB : Chain "o" [windowOf 0 3 ⟨3, 0, 0, 0⟩, windowOf 3 5 ⟨0, 2, 0, 0⟩] :=
    ⟨by decide, 5, .cons (x := windowOf 0 3 _) (by decide)
      (.cons (x := windowOf 3 5 _) (by decide) (.nil 5))⟩
  obtain ⟨hexposes, hquiet⟩ := pooled_chains_expose_a_fork "o"
  constructor
  · intro hdetect
    have hprefix := hexposes _ _ hviewA hviewB hdetect
    revert hprefix
    decide
  · exact hquiet _ hviewA ⟨fun _ => none, by decide⟩ (by unfold OneTallyASeam; decide) _ (by decide)

/-- Two tallies on one empty window are named, although the windows are laid end to end. -/
theorem empty_window_has_two_tallies :
    Chain "o" [windowOf 0 0 ⟨1, 0, 0, 0⟩, windowOf 0 0 ⟨0, 1, 0, 0⟩] ∧
    (∃ root : ℕ → Option Cid, ∀ c ∈ [windowOf 0 0 ⟨1, 0, 0, 0⟩, windowOf 0 0 ⟨0, 1, 0, 0⟩],
      c.ledgerRootHash = root c.ledgerTreeSize) ∧
    detectVerdictEquivocation [windowOf 0 0 ⟨1, 0, 0, 0⟩, windowOf 0 0 ⟨0, 1, 0, 0⟩] ≠ [] := by
  refine ⟨⟨by decide, 0, ?_⟩, ⟨fun _ => none, by decide⟩, by decide⟩
  exact .cons (x := windowOf 0 0 _) (by decide)
    (.cons (x := windowOf 0 0 _) (by decide) (.nil 0))

end Tracefold
