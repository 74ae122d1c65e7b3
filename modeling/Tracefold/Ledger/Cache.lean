import Mathlib.Tactic.Common
import Tracefold.Ideal
import Tracefold.Ledger.Complete

/-! The tile cache changes no answer: what is folded over it is what RFC 6962 folds over the
leaves. -/

namespace Tracefold.Ledger

open Library.Merkle

section Cached

variable [Canon]

/-- `audit_path`, the path as it is defined over the leaves alone. -/
def auditPath (index : ℕ) (leaves : List Cid) : List Cid := auditPathFrom leaves.length index leaves

namespace TileLog

/-- `TileLog::root`. -/
def root (log : TileLog) : Option Cid := log.mthRange 0 log.leaves.length

/-- A log that any entries were put into, one after another. -/
inductive Committed : TileLog → Prop where
  | new : Committed new
  | commit {log : TileLog} (h : Committed log) (entry : LedgerEntry) : Committed (log.commit entry)

variable {log : TileLog}

theorem Committed.folded (h : Committed log) : Folded log := by
  induction h with
  | new => exact folded_new
  | commit _ entry ih => exact ih.commit entry

theorem Folded.length_tileRoots (h : Folded log) : log.tileRoots.length = log.len / tileWidth := by
  obtain ⟨tiles, rest, hleaves, hrest, htiles, hroots⟩ := h.tiles
  have hlength : log.len = tiles.length * tileWidth + rest.length := by
    rw [← h.length, hleaves, List.length_append, List.length_flatten, List.map_congr_left htiles,
      List.map_const', List.sum_replicate_nat]
  rw [hlength, ← hroots.length_eq, Nat.mul_comm, Nat.mul_add_div (by decide),
    Nat.div_eq_of_lt hrest, Nat.add_zero]

theorem Folded.mthRange_eq (h : Folded log) {start stop : ℕ} (hle : start ≤ stop)
    (hstop : stop ≤ log.leaves.length) : log.mthRange start stop = mth (log.range start stop) := by
  rcases Nat.eq_or_lt_of_le hle with rfl | hlt
  · have hempty : log.range start start = [] := by
      rw [← List.length_eq_zero_iff, length_range hstop, Nat.sub_self]
    rw [hempty, TileLog.mthRange, Nat.sub_self, TileLog.mthRangeFrom, if_pos (Nat.sub_self start)]
    rfl
  · obtain ⟨root, hroot, hrange⟩ := h.mthRange hlt hstop
    rw [hroot, mth_eq_some.mpr hrange]

theorem Folded.tileRoots_eq (h : Folded log) {t : ℕ} (ht : t < log.len / tileWidth) :
    log.tileRoots[t]? = mth (log.range (tileWidth * t) (tileWidth * t + tileWidth)) := by
  obtain ⟨tiles, rest, hleaves, _, htiles, hroots⟩ := h.tiles
  rw [← h.length_tileRoots] at ht
  have ht' : t < tiles.length := by rwa [hroots.length_eq]
  have htile := hroots.get ht' ht
  have hdrop : (tiles.take (t + 1)).drop t = [tiles[t]] := by
    rw [List.take_succ_eq_append_getElem ht']
    exact List.drop_left' (List.length_take_of_le ht'.le)
  have hrange : log.range (tileWidth * t) (tileWidth * t + tileWidth) = tiles[t] := by
    rw [range, hleaves, ← Nat.mul_succ, Nat.mul_comm tileWidth (t + 1), Nat.mul_comm tileWidth t,
      take_flatten htiles ht' rest,
      drop_flatten (fun tile hmem => htiles tile (List.mem_of_mem_take hmem)), hdrop,
      List.flatten_singleton]
  rw [hrange, List.getElem?_eq_getElem ht, eq_comm, mth_eq_some]
  exact htile

theorem Folded.rootAt_eq (h : Folded log) {treeSize : ℕ} (hpos : 0 < treeSize)
    (hsize : treeSize ≤ log.leaves.length) : log.rootAt treeSize = mth (log.leaves.take treeSize) := by
  rw [TileLog.rootAt, if_neg (by omega), h.mthRange_eq (Nat.zero_le _) hsize]
  rfl

omit [Canon] in
theorem range_take {start stop k : ℕ} (hk : start + k ≤ stop) :
    (log.range start stop).take k = log.range start (start + k) := by
  rw [range, range, List.take_drop, List.take_take, Nat.min_eq_left hk]

omit [Canon] in
theorem range_drop {start stop k : ℕ} :
    (log.range start stop).drop k = log.range (start + k) stop := by
  rw [range, range, List.drop_drop]

/-- The walk over the cache leaves the siblings that the recursion over the leaves does. -/
theorem Folded.walkToRootFrom_eq (h : Folded log) {fuel index start stop : ℕ}
    (hindex : start ≤ index) (hstop : stop ≤ log.leaves.length) :
    log.walkToRootFrom fuel index start stop =
      auditPathFrom fuel (index - start) (log.range start stop) := by
  induction fuel generalizing start stop with
  | zero => rfl
  | succ fuel ih =>
    rw [TileLog.walkToRootFrom, auditPathFrom, length_range hstop]
    by_cases hone : stop - start ≤ 1
    · rw [if_pos hone, if_pos hone]
    · rw [if_neg hone, if_neg hone]
      have hlt : splitPoint (stop - start) < stop - start := splitPoint_lt (by omega)
      dsimp only
      rw [range_take (by omega), range_drop]
      by_cases hside : index < start + splitPoint (stop - start)
      · rw [if_pos hside, if_pos (by omega), ih hindex (by omega),
          h.mthRange_eq (by omega) hstop]
      · rw [if_neg hside, if_neg (by omega), ih (by omega) hstop,
          h.mthRange_eq (by omega) (by omega), Nat.sub_add_eq]

/-- The cache is the roots of the complete tiles, and every range, root and path that is read
through it is the one of RFC 6962 over the leaves. -/
theorem tile_cache_is_exact (log : TileLog) (h : log.Committed) :
    log.tileRoots.length = log.len / tileWidth ∧
    (∀ t < log.len / tileWidth,
      log.tileRoots[t]? = mth (log.range (tileWidth * t) (tileWidth * t + tileWidth))) ∧
    (∀ start stop, start ≤ stop → stop ≤ log.len →
      log.mthRange start stop = mth (log.range start stop)) ∧
    log.root = mth log.leaves ∧
    (∀ treeSize, 0 < treeSize → treeSize ≤ log.len →
      log.rootAt treeSize = mth (log.leaves.take treeSize)) ∧
    ∀ index treeSize, treeSize ≤ log.len →
      log.auditPathAt index treeSize = auditPath index (log.leaves.take treeSize) := by
  have hfolded := h.folded
  have hlength := hfolded.length
  have hall : log.range 0 log.leaves.length = log.leaves := by rw [range, List.take_length]; rfl
  refine ⟨hfolded.length_tileRoots, fun t ht => hfolded.tileRoots_eq ht, ?_, ?_, ?_, ?_⟩
  · intro start stop hle hstop
    rw [← hlength] at hstop
    exact hfolded.mthRange_eq hle hstop
  · rw [root, hfolded.mthRange_eq (Nat.zero_le _) le_rfl, hall]
  · intro treeSize hpos hsize
    rw [← hlength] at hsize
    exact hfolded.rootAt_eq hpos hsize
  · intro index treeSize hsize
    rw [← hlength] at hsize
    rw [auditPathAt, hfolded.walkToRootFrom_eq (Nat.zero_le _) hsize, auditPath,
      List.length_take_of_le hsize]
    rfl

/-- A log of as many entries, each of its own transformation. -/
def logOf : ℕ → TileLog
  | 0 => new
  | n + 1 => (logOf n).append ⟨[n]⟩ ⟨[]⟩ 0

theorem committed_logOf (n : ℕ) : (logOf n).Committed := by
  induction n with
  | zero => exact .new
  | succ n ih => exact ih.commit _

theorem len_logOf (n : ℕ) : (logOf n).len = n := by
  induction n with
  | zero => rfl
  | succ n ih =>
    change ((logOf n).entries ++ [_]).length = n + 1
    rw [List.length_append, List.length_singleton]
    exact congrArg (· + 1) ih

end TileLog

end Cached

open Tracefold.Ideal in
/-- Two tiles are complete in a log of 513 entries, and its root is that of all its leaves. -/
theorem tile_cache_is_exact_past_two_tiles :
    (TileLog.logOf 513).tileRoots.length = 2 ∧
    (TileLog.logOf 513).root = mth (TileLog.logOf 513).leaves ∧
    (TileLog.logOf 513).auditPathAt 512 513 =
      auditPath 512 ((TileLog.logOf 513).leaves.take 513) := by
  obtain ⟨hlength, _, _, hroot, _, hpath⟩ :=
    TileLog.tile_cache_is_exact (TileLog.logOf 513) (TileLog.committed_logOf 513)
  rw [TileLog.len_logOf] at hlength hpath
  exact ⟨hlength, hroot, hpath 512 513 le_rfl⟩

end Tracefold.Ledger
