import Mathlib.Tactic.Common
import Tracefold.Ledger.Walks

/-! What the ledger gives out is accepted: the tree with its tile roots is the tree of its leaves,
and the proofs it makes over it are the walks its readers make. -/

namespace Tracefold.Ledger

open Library Library.Merkle

section Pieces

variable {α : Type} {w : ℕ} {pieces : List (List α)}

theorem take_flatten (hsize : ∀ piece ∈ pieces, piece.length = w) {n : ℕ} (hn : n ≤ pieces.length)
    (rest : List α) : (pieces.flatten ++ rest).take (n * w) = (pieces.take n).flatten := by
  induction pieces generalizing n with
  | nil =>
    obtain rfl := Nat.le_zero.mp hn
    simp
  | cons piece pieces ih =>
    cases n with
    | zero => simp
    | succ n =>
      have hpiece : piece.length = w := hsize piece List.mem_cons_self
      rw [List.flatten_cons, List.take_succ_cons, List.flatten_cons, List.append_assoc,
        show (n + 1) * w = piece.length + n * w by rw [hpiece, Nat.succ_mul, Nat.add_comm],
        List.take_length_add_append,
        ih (fun p hp => hsize p (List.mem_cons_of_mem _ hp)) (by simpa using hn)]

theorem drop_flatten (hsize : ∀ piece ∈ pieces, piece.length = w) (n : ℕ) :
    pieces.flatten.drop (n * w) = (pieces.drop n).flatten := by
  induction pieces generalizing n with
  | nil => simp
  | cons piece pieces ih =>
    cases n with
    | zero => simp
    | succ n =>
      have hpiece : piece.length = w := hsize piece List.mem_cons_self
      rw [List.flatten_cons, List.drop_succ_cons,
        show (n + 1) * w = piece.length + n * w by rw [hpiece, Nat.succ_mul, Nat.add_comm],
        List.drop_length_add_append, ih (fun p hp => hsize p (List.mem_cons_of_mem _ hp))]

end Pieces

section Logs

variable [Canon]

namespace TileLog

/-- A log its own methods have made. -/
inductive Built : TileLog → Prop where
  | new : Built new
  | append {log : TileLog} (h : Built log) (transformation : TransformationId) (receiptDigest : Cid)
      (appendedAt : Timestamp) : Built (log.append transformation receiptDigest appendedAt)

/-- What every such log keeps: entries that stage again to what they are, their leaf hashes, and
the roots of the tiles that are complete. -/
structure Kept (log : TileLog) : Prop where
  leaves : log.leaves = log.entries.map (·.leafCid)
  staged : ∀ (i : ℕ) (entry : LedgerEntry), log.entries[i]? = some entry →
    entry.index = i ∧ entry.leafCid = leafHash entry.leaf
  tiles : ∃ tiles rest, log.leaves = tiles.flatten ++ rest ∧ rest.length < tileWidth ∧
    (∀ tile ∈ tiles, tile.length = tileWidth) ∧ List.Forall₂ (IsRoot Canon.node) tiles log.tileRoots

/-- What any entry leaves of it: the leaf hashes, and the roots of the tiles that are complete. -/
structure Folded (log : TileLog) : Prop where
  leaves : log.leaves = log.entries.map (·.leafCid)
  tiles : ∃ tiles rest, log.leaves = tiles.flatten ++ rest ∧ rest.length < tileWidth ∧
    (∀ tile ∈ tiles, tile.length = tileWidth) ∧ List.Forall₂ (IsRoot Canon.node) tiles log.tileRoots

theorem folded_new : Folded new where
  leaves := rfl
  tiles := ⟨[], [], rfl, by decide, by simp, .nil⟩

theorem kept_new : Kept new where
  leaves := rfl
  staged i entry h := by cases h
  tiles := folded_new.tiles

variable {log : TileLog}

theorem Kept.folded (h : Kept log) : Folded log := ⟨h.leaves, h.tiles⟩

theorem Folded.length (h : Folded log) : log.leaves.length = log.len := by
  rw [h.leaves, List.length_map]
  rfl

theorem Kept.length (h : Kept log) : log.leaves.length = log.len := h.folded.length

theorem Folded.commit (h : Folded log) (entry : LedgerEntry) : Folded (log.commit entry) := by
  constructor
  · change log.leaves ++ [entry.leafCid] = (log.entries ++ [entry]).map (·.leafCid)
    rw [h.leaves, List.map_append, List.map_singleton]
  · obtain ⟨tiles, rest, hleaves, hrest, htiles, hroots⟩ := h.tiles
    have hlength : log.leaves.length = tiles.length * tileWidth + rest.length := by
      rw [hleaves, List.length_append, List.length_flatten, List.map_congr_left htiles,
        List.map_const', List.sum_replicate_nat]
    have hnew : log.leaves ++ [entry.leafCid] = tiles.flatten ++ (rest ++ [entry.leafCid]) := by
      rw [hleaves, List.append_assoc]
    change ∃ tiles' rest', log.leaves ++ [entry.leafCid] = tiles'.flatten ++ rest' ∧ _ ∧ _ ∧
      List.Forall₂ _ tiles' (if (log.leaves ++ [entry.leafCid]).length % tileWidth = 0 then _ else _)
    have hmod : (log.leaves ++ [entry.leafCid]).length % tileWidth =
        (rest.length + 1) % tileWidth := by
      rw [List.length_append, hlength, List.length_singleton, Nat.add_assoc, Nat.mul_add_mod']
    rw [hmod]
    by_cases hfull : rest.length + 1 = tileWidth
    · have hlast : (rest ++ [entry.leafCid]).length = tileWidth := by
        rw [List.length_append, List.length_singleton, hfull]
      have hdrop : (log.leaves ++ [entry.leafCid]).drop
          ((log.leaves ++ [entry.leafCid]).length - tileWidth) = rest ++ [entry.leafCid] := by
        rw [hnew, List.length_append, hlast, Nat.add_sub_cancel, List.drop_left]
      obtain ⟨root, hroot⟩ := Option.isSome_iff_exists.mp
        (@mth_isSome _ (rest ++ [entry.leafCid]) (by simp))
      rw [if_pos (by rw [hfull, Nat.mod_self]), hdrop, hroot]
      refine ⟨tiles ++ [rest ++ [entry.leafCid]], [], ?_, by decide, ?_, ?_⟩
      · rw [hnew, List.flatten_append, List.append_nil]
        simp
      · intro tile htile
        rcases List.mem_append.mp htile with htile | htile
        · exact htiles tile htile
        · rw [List.mem_singleton.mp htile, hlast]
      · exact List.rel_append hroots (.cons (mth_eq_some.mp hroot) .nil)
    · rw [if_neg (by rw [Nat.mod_eq_of_lt (by omega)]; omega)]
      refine ⟨tiles, rest ++ [entry.leafCid], hnew, ?_, htiles, hroots⟩
      rw [List.length_append, List.length_singleton]
      omega

theorem Kept.append (h : Kept log) (transformation : TransformationId) (receiptDigest : Cid)
    (appendedAt : Timestamp) : Kept (log.append transformation receiptDigest appendedAt) := by
  set entry := log.stage transformation receiptDigest appendedAt with hentry
  refine ⟨(h.folded.commit entry).leaves, ?_, ?_⟩
  · intro i entry' hi
    change (log.entries ++ [entry])[i]? = some entry' at hi
    rcases Nat.lt_trichotomy i log.entries.length with hlt | rfl | hgt
    · rw [List.getElem?_append_left hlt] at hi
      exact h.staged i entry' hi
    · rw [List.getElem?_concat_length] at hi
      cases hi
      exact ⟨rfl, rfl⟩
    · rw [List.getElem?_eq_none (by rw [List.length_append, List.length_singleton]; omega)] at hi
      cases hi
  · exact (h.folded.commit entry).tiles

theorem Built.kept (h : Built log) : Kept log := by
  induction h with
  | new => exact kept_new
  | append _ transformation receiptDigest appendedAt ih =>
    exact ih.append transformation receiptDigest appendedAt

/-- The leaves of a range. -/
def range (log : TileLog) (start stop : ℕ) : List Cid := (log.leaves.take stop).drop start

omit [Canon] in
theorem length_range {start stop : ℕ} (hstop : stop ≤ log.leaves.length) :
    (log.range start stop).length = stop - start := by
  rw [range, List.length_drop, List.length_take, Nat.min_eq_left hstop]

omit [Canon] in
theorem range_append {start mid stop : ℕ} (h : start ≤ mid) (h' : mid ≤ stop)
    (hstop : stop ≤ log.leaves.length) :
    log.range start stop = log.range start mid ++ log.range mid stop := by
  have hmid : (log.leaves.take stop).take mid = log.leaves.take mid := by
    rw [List.take_take, Nat.min_eq_left h']
  have hlength : start ≤ (log.leaves.take mid).length := by
    rw [List.length_take]
    omega
  calc log.range start stop
      = ((log.leaves.take stop).take mid ++ (log.leaves.take stop).drop mid).drop start := by
        rw [List.take_append_drop, range]
    _ = log.range start mid ++ log.range mid stop := by
        rw [hmid, List.drop_append_of_le_length hlength, range, range]

omit [Canon] in
theorem range_halves {start stop : ℕ} (hstop : stop ≤ log.leaves.length)
    (htwo : 2 ≤ stop - start) :
    ∃ k, k = splitPoint (stop - start) ∧ 0 < k ∧ start + k < stop ∧
      log.range start stop = log.range start (start + k) ++ log.range (start + k) stop ∧
      (log.range start (start + k)).length = k ∧
      split ((log.range start (start + k)).length + (log.range (start + k) stop).length) =
        (log.range start (start + k)).length := by
  have hlt : splitPoint (stop - start) < stop - start := splitPoint_lt htwo
  refine ⟨splitPoint (stop - start), rfl, Nat.two_pow_pos _, by omega,
    range_append (by omega) (by omega) hstop, ?_, ?_⟩
  · rw [length_range (by omega), Nat.add_sub_cancel_left]
  · rw [length_range (by omega), length_range hstop, Nat.add_sub_cancel_left,
      show splitPoint (stop - start) + (stop - (start + splitPoint (stop - start))) =
        stop - start by omega]
    rfl

theorem Folded.isRoot_tiles (h : Folded log) {start stop : ℕ} (hlt : start < stop)
    (hstart : start % tileWidth = 0) (hwhole : (stop - start) % tileWidth = 0)
    (hcached : stop / tileWidth ≤ log.tileRoots.length) :
    ∃ root, mth ((log.tileRoots.take (stop / tileWidth)).drop (start / tileWidth)) = some root ∧
      IsRoot Canon.node (log.range start stop) root := by
  obtain ⟨tiles, rest, hleaves, _, htiles, hroots⟩ := h.tiles
  have hwidth : tileWidth = 2 ^ 8 := rfl
  have hstart' : start / tileWidth * tileWidth = start := Nat.div_mul_cancel (Nat.dvd_of_mod_eq_zero hstart)
  have hstop' : stop / tileWidth * tileWidth = stop := by
    refine Nat.div_mul_cancel ?_
    have hsum := Nat.dvd_add (Nat.dvd_of_mod_eq_zero hwhole) (Nat.dvd_of_mod_eq_zero hstart)
    rwa [Nat.sub_add_cancel hlt.le] at hsum
  have hcount : stop / tileWidth ≤ tiles.length := by rwa [hroots.length_eq]
  have hrange : log.range start stop =
      ((tiles.take (stop / tileWidth)).drop (start / tileWidth)).flatten := by
    rw [range, hleaves, ← drop_flatten (fun tile htile => htiles tile (List.mem_of_mem_take htile)),
      ← take_flatten htiles hcount rest, hstart', hstop']
  have hpieces := List.forall₂_drop (start / tileWidth) (List.forall₂_take (stop / tileWidth) hroots)
  have hne : (log.tileRoots.take (stop / tileWidth)).drop (start / tileWidth) ≠ [] := by
    apply List.ne_nil_of_length_pos
    rw [List.length_drop, List.length_take, Nat.min_eq_left hcached]
    have hpos : 0 < tileWidth := by decide
    have hquot : start / tileWidth < stop / tileWidth := by
      apply Nat.lt_of_not_ge
      intro hge
      have hmul := Nat.mul_le_mul_right tileWidth hge
      omega
    omega
  obtain ⟨root, hroot⟩ := Option.isSome_iff_exists.mp (mth_isSome hne)
  refine ⟨root, hroot, ?_⟩
  rw [hrange]
  refine IsRoot.flatten (q := 8) ?_ hpieces (mth_eq_some.mp hroot)
  intro tile htile
  rw [← hwidth]
  exact htiles tile (List.mem_of_mem_take (List.mem_of_mem_drop htile))

theorem Folded.mthRangeFrom (h : Folded log) {fuel start stop : ℕ} (hfuel : stop - start ≤ fuel)
    (hlt : start < stop) (hstop : stop ≤ log.leaves.length) :
    ∃ root, log.mthRangeFrom fuel start stop = some root ∧
      IsRoot Canon.node (log.range start stop) root := by
  induction fuel generalizing start stop with
  | zero => omega
  | succ fuel ih =>
    rw [TileLog.mthRangeFrom, if_neg (by omega)]
    by_cases hone : stop - start = 1
    · rw [if_pos hone]
      obtain rfl : stop = start + 1 := by omega
      have hinside : start < log.leaves.length := by omega
      have hrange : log.range start (start + 1) = [log.leaves[start]] := by
        have htake : (log.leaves.take start).length = start := by
          rw [List.length_take, Nat.min_eq_left hinside.le]
        rw [range, List.take_succ_eq_append_getElem hinside]
        exact List.drop_left' htake
      rw [hrange]
      exact ⟨log.leaves[start], List.getElem?_eq_getElem hinside, .leaf _⟩
    · rw [if_neg hone]
      split
      next hcached => exact h.isRoot_tiles hlt hcached.1 hcached.2.1 hcached.2.2
      next =>
        have htwo : 2 ≤ stop - start := by omega
        obtain ⟨k, hk, hpos, hinside, hhalves, _, hsplit⟩ := range_halves hstop htwo
        obtain ⟨left, hleft, hleft'⟩ := @ih start (start + k) (by omega) (by omega) (by omega)
        obtain ⟨right, hright, hright'⟩ := @ih (start + k) stop (by omega) (by omega) hstop
        dsimp only
        rw [← hk, hleft, hright, hhalves]
        exact ⟨Canon.node left right, rfl, .node hsplit hleft' hright'⟩

theorem Folded.mthRange (h : Folded log) {start stop : ℕ} (hlt : start < stop)
    (hstop : stop ≤ log.leaves.length) :
    ∃ root, log.mthRange start stop = some root ∧ IsRoot Canon.node (log.range start stop) root :=
  h.mthRangeFrom le_rfl hlt hstop

theorem Folded.rootAt (h : Folded log) {treeSize : ℕ} (hpos : 0 < treeSize)
    (hsize : treeSize ≤ log.len) :
    ∃ root, log.rootAt treeSize = some root ∧
      IsRoot Canon.node (log.leaves.take treeSize) root := by
  rw [← h.length] at hsize
  rw [TileLog.rootAt, if_neg (by omega)]
  exact h.mthRange hpos hsize

/-- The path a log gives out is the leaf's own. -/
theorem Folded.walkToRootFrom (h : Folded log) {fuel index start stop : ℕ} (hfuel : stop - start ≤ fuel)
    (hindex : start ≤ index) (hindex' : index < stop) (hstop : stop ≤ log.leaves.length) :
    IsPath Canon.node (log.range start stop) (index - start)
      (log.walkToRootFrom fuel index start stop) := by
  induction fuel generalizing start stop with
  | zero => omega
  | succ fuel ih =>
    rw [TileLog.walkToRootFrom]
    by_cases hone : stop - start ≤ 1
    · rw [if_pos hone]
      obtain rfl : start = index := by omega
      obtain rfl : stop = start + 1 := by omega
      have hlength := @length_range log start (start + 1) hstop
      rw [Nat.add_sub_cancel_left] at hlength
      obtain ⟨leaf, hleaf⟩ := List.length_eq_one_iff.mp hlength
      rw [hleaf, Nat.sub_self]
      exact .leaf leaf
    · rw [if_neg hone]
      have htwo : 2 ≤ stop - start := by omega
      obtain ⟨k, hk, hpos, hinside, hhalves, hlength, hsplit⟩ := range_halves hstop htwo
      obtain ⟨left, hleft, hleft'⟩ := @Folded.mthRange _ _ h start (start + k) (by omega) (by omega)
      obtain ⟨right, hright, hright'⟩ := h.mthRange hinside hstop
      dsimp only
      rw [← hk, hhalves, hleft, hright]
      split
      next hside =>
        exact .left hsplit (ih (by omega) hindex hside (by omega)) hright'
      next hside =>
        have hpath := IsPath.right hsplit hleft'
          (ih (by omega) (by omega : start + k ≤ index) hindex' hstop)
        rwa [hlength, show k + (index - (start + k)) = index - start by omega] at hpath

end TileLog

theorem isGrowth_subproofFrom {fuel m : ℕ} {leaves : List Cid} {b : Bool}
    (hfuel : leaves.length ≤ fuel) (hpos : 0 < m) (hm : m ≤ leaves.length) :
    IsGrowth Canon.node b leaves m (subproofFrom fuel m leaves b) := by
  induction fuel generalizing m leaves b with
  | zero => omega
  | succ fuel ih =>
    rw [subproofFrom]
    by_cases hwhole : m = leaves.length
    · rw [if_pos hwhole, hwhole]
      cases b with
      | true => exact .known leaves
      | false =>
        obtain ⟨root, hroot⟩ := Option.isSome_iff_exists.mp
          (@mth_isSome _ leaves (List.ne_nil_of_length_pos (by omega)))
        rw [hroot]
        exact .named (mth_eq_some.mp hroot)
    · rw [if_neg hwhole]
      have htwo : 2 ≤ leaves.length := by omega
      have hlt : splitPoint leaves.length < leaves.length := splitPoint_lt htwo
      have hkpos : 0 < splitPoint leaves.length := Nat.two_pow_pos _
      have hsplit : split leaves.length = splitPoint leaves.length := rfl
      dsimp only
      generalize hk : splitPoint leaves.length = k at *
      have htake : (leaves.take k).length = k := by
        rw [List.length_take, Nat.min_eq_left hlt.le]
      have hdrop : (leaves.drop k).length = leaves.length - k := List.length_drop
      have hsplit' : split ((leaves.take k).length + (leaves.drop k).length) =
          (leaves.take k).length := by
        rw [htake, hdrop, Nat.add_sub_of_le hlt.le, hsplit]
      obtain ⟨left, hleft⟩ := Option.isSome_iff_exists.mp
        (@mth_isSome _ (leaves.take k) (List.ne_nil_of_length_pos (by omega)))
      obtain ⟨right, hright⟩ := Option.isSome_iff_exists.mp
        (@mth_isSome _ (leaves.drop k) (List.ne_nil_of_length_pos (by omega)))
      rw [hleft, hright]
      split
      next hside =>
        have hgrowth := IsGrowth.left hsplit' (by omega)
          (@ih m (leaves.take k) b (by omega) hpos (by omega)) (mth_eq_some.mp hright)
        rwa [List.take_append_drop] at hgrowth
      next hside =>
        have hgrowth := @IsGrowth.right _ _ b _ _ _ _ _ hsplit' (by omega : 0 < m - k) (by omega)
          (mth_eq_some.mp hleft) (@ih (m - k) (leaves.drop k) false (by omega) (by omega) (by omega))
        rwa [List.take_append_drop, htake, Nat.add_sub_of_le (by omega)] at hgrowth

omit [Canon] in
/-- The lawful length of a path is the number of siblings its walk meets. -/
theorem auditPathLenFrom_eq {fuel i n len : ℕ} (hfuel : n ≤ fuel) (hi : i < n) :
    auditPathLenFrom fuel i n len = len + (sides i (n - 1)).length := by
  induction fuel generalizing i n len with
  | zero => omega
  | succ fuel ih =>
    rw [auditPathLenFrom]
    by_cases hone : n ≤ 1
    · rw [if_pos hone, show n - 1 = 0 by omega, sides_zero]
      rfl
    · rw [if_neg hone]
      obtain ⟨p, hp, hlt, hle⟩ := exists_split (show 2 ≤ n by omega)
      have hk : splitPoint n = 2 ^ p := hp
      have hpos := Nat.two_pow_pos p
      dsimp only
      rw [hk]
      split
      next hside =>
        rw [ih (by omega) hside, @sides_left p i (n - 1) hside (by omega) (by omega),
          List.length_append, List.length_singleton]
        omega
      next hside =>
        rw [ih (by omega) (by omega), @sides_right p i (n - 1) (by omega) (by omega) (by omega),
          List.length_append, List.length_singleton, show n - 1 - 2 ^ p = n - 2 ^ p - 1 by omega]
        omega

omit [Canon] in
theorem auditPathLen_eq {index treeSize : ℕ} (h : index < treeSize) :
    auditPathLen index treeSize = some (sides index (treeSize - 1)).length := by
  rw [auditPathLen, if_neg (by omega), auditPathLenFrom_eq le_rfl h, Nat.zero_add]

theorem TileLog.Kept.rootOfInclusion {log : TileLog} (h : log.Kept) {index treeSize : ℕ}
    (hindex : index < treeSize) (hsize : treeSize ≤ log.len) :
    ∃ proof root entry, proveInclusionAt log index treeSize = .ok proof ∧
      proof.leafIndex = index ∧ proof.treeSize = treeSize ∧
      auditPathLen index treeSize = some proof.auditPath.length ∧
      log.rootAt treeSize = some root ∧ log.entries[index]? = some entry ∧
      entry.index = index ∧ rootOfInclusion proof entry.leaf = some root := by
  obtain ⟨root, hrootAt, hroot⟩ := h.folded.rootAt (by omega) hsize
  have hinside : index < log.entries.length := Nat.lt_of_lt_of_le hindex hsize
  obtain ⟨hentryIndex, hleafCid⟩ :=
    h.staged index log.entries[index] (List.getElem?_eq_getElem hinside)
  have hleaf : (log.leaves.take treeSize)[index]? = some (leafHash log.entries[index].leaf) := by
    rw [List.getElem?_take_of_lt hindex, h.leaves, List.getElem?_map,
      List.getElem?_eq_getElem hinside, Option.map_some, hleafCid]
  have hlength : (log.leaves.take treeSize).length = treeSize := by
    rw [List.length_take, Nat.min_eq_left (by rw [h.length]; exact hsize)]
  have hpath : IsPath Canon.node (log.leaves.take treeSize) index
      (log.auditPathAt index treeSize) :=
    @TileLog.Folded.walkToRootFrom _ _ h.folded treeSize index 0 treeSize (by omega) (by omega) hindex
      (by rw [h.length]; exact hsize)
  have hclimb := hpath.climb hroot hleaf
  rw [hlength] at hclimb
  have hlen : auditPathLen index treeSize = some (log.auditPathAt index treeSize).length := by
    rw [auditPathLen_eq hindex, climb_length hclimb]
  refine ⟨⟨index, treeSize, log.auditPathAt index treeSize⟩, root, log.entries[index], ?_, rfl, rfl,
    hlen, hrootAt, List.getElem?_eq_getElem hinside, hentryIndex, ?_⟩
  · rw [proveInclusionAt, if_neg (by omega)]
  · have hleafIndex : log.entries[index].leaf.index = index := hentryIndex
    rw [Ledger.rootOfInclusion, reconstructRoot]
    dsimp only
    rw [if_neg (not_not.mpr hleafIndex), if_neg (not_not.mpr hlen), if_neg (by omega),
      walkFrom_eq (by omega)]
    exact hclimb

theorem TileLog.Kept.verifyConsistency {log : TileLog} (h : log.Kept) {oldSize newSize : ℕ}
    (hpos : 0 < oldSize) (hle : oldSize ≤ newSize) (hsize : newSize ≤ log.len) :
    ∃ proof oldRoot newRoot, proveConsistency log oldSize newSize = .ok proof ∧
      proof.oldSize = oldSize ∧ proof.newSize = newSize ∧
      log.rootAt oldSize = some oldRoot ∧ log.rootAt newSize = some newRoot ∧
      verifyConsistency proof oldRoot newRoot = .ok true := by
  obtain ⟨oldRoot, holdAt, hold⟩ := h.folded.rootAt hpos (by omega)
  obtain ⟨newRoot, hnewAt, hnew⟩ := h.folded.rootAt (by omega) hsize
  refine ⟨⟨newSize, oldSize, if oldSize < newSize then
    subproof oldSize (log.leaves.take newSize) true else []⟩, oldRoot, newRoot, ?_, rfl, rfl, holdAt,
    hnewAt, ?_⟩
  · rw [proveConsistency, if_neg (by omega), if_neg (by omega), if_neg (by omega)]
  rw [Ledger.verifyConsistency]
  dsimp only
  rw [if_neg (by omega), if_neg (by omega)]
  rcases hle.lt_or_eq with hlt | rfl
  · have hlength : (log.leaves.take newSize).length = newSize := by
      rw [List.length_take, Nat.min_eq_left (by rw [h.length]; exact hsize)]
    have htake : (log.leaves.take newSize).take oldSize = log.leaves.take oldSize := by
      rw [List.take_take, Nat.min_eq_left hle]
    rw [← htake] at hold
    have hgrowth : IsGrowth Canon.node true (log.leaves.take newSize) oldSize
        (subproof oldSize (log.leaves.take newSize) true) :=
      isGrowth_subproofFrom le_rfl hpos (by omega)
    have hstrip := strip_le (oldSize - 1) (newSize - 1) (by omega)
    have hwalk := hgrowth.climb hpos (fun heq => absurd heq (by omega)) hold hnew
    rw [hlength, edge] at hwalk
    rw [if_neg (by omega), if_pos hlt, stripOdd_eq le_rfl]
    rcases hwalk with ⟨_, hzero, hwalk⟩ | ⟨hne, first, rest, hpath, hwalk⟩
    · rw [if_pos (hzero _), walkFrom_eq hstrip, hwalk]
      simp
    · rw [if_neg (hne rfl _), hpath]
      dsimp only
      rw [walkFrom_eq hstrip, hwalk]
      simp
  · obtain rfl := hold.unique hnew
    simp

end Logs

/-- What a log proves of a leaf of its is accepted against its root. -/
theorem inclusion_proof_is_complete [Canon] (log : TileLog) (hlog : log.Built) (index treeSize : ℕ)
    (hindex : index < treeSize) (hsize : treeSize ≤ log.len) :
    ∃ proof root entry, proveInclusionAt log index treeSize = .ok proof ∧
      auditPathLen index treeSize = some proof.auditPath.length ∧
      log.rootAt treeSize = some root ∧ log.entries[index]? = some entry ∧
      verifyInclusion proof root entry = true := by
  obtain ⟨proof, root, entry, hproof, _, _, hlen, hroot, hentry, _, hreached⟩ :=
    hlog.kept.rootOfInclusion hindex hsize
  refine ⟨proof, root, entry, hproof, hlen, hroot, hentry, ?_⟩
  rw [verifyInclusion, verifyInclusionOf, hreached]
  exact decide_eq_true rfl

/-- A log of two entries. -/
def twoEntries [Canon] : TileLog := (TileLog.new.append ⟨[1]⟩ ⟨[2]⟩ 0).append ⟨[3]⟩ ⟨[4]⟩ 1

theorem twoEntries_built [Canon] : twoEntries.Built :=
  .append (.append .new ⟨[1]⟩ ⟨[2]⟩ 0) ⟨[3]⟩ ⟨[4]⟩ 1

open Tracefold.Ideal in
theorem inclusion_proof_is_complete_second :
    1 < 2 ∧ 2 ≤ twoEntries.len ∧
      ∃ proof root entry, proveInclusionAt twoEntries 1 2 = .ok proof ∧
        auditPathLen 1 2 = some proof.auditPath.length ∧
        twoEntries.rootAt 2 = some root ∧ twoEntries.entries[1]? = some entry ∧
        verifyInclusion proof root entry = true :=
  ⟨by decide, by decide, inclusion_proof_is_complete twoEntries twoEntries_built 1 2 (by decide)
    (by decide)⟩

/-- What a log proves of its own growth is accepted against its roots. -/
theorem consistency_proof_is_complete [Canon] (log : TileLog) (hlog : log.Built) (oldSize newSize : ℕ)
    (hpos : 0 < oldSize) (hle : oldSize ≤ newSize) (hsize : newSize ≤ log.len) :
    ∃ proof oldRoot newRoot, proveConsistency log oldSize newSize = .ok proof ∧
      log.rootAt oldSize = some oldRoot ∧ log.rootAt newSize = some newRoot ∧
      verifyConsistency proof oldRoot newRoot = .ok true := by
  obtain ⟨proof, oldRoot, newRoot, hproof, _, _, hold, hnew, hverify⟩ :=
    hlog.kept.verifyConsistency hpos hle hsize
  exact ⟨proof, oldRoot, newRoot, hproof, hold, hnew, hverify⟩

open Tracefold.Ideal in
theorem consistency_proof_is_complete_second :
    0 < 1 ∧ 1 ≤ 2 ∧ 2 ≤ twoEntries.len ∧
      ∃ proof oldRoot newRoot, proveConsistency twoEntries 1 2 = .ok proof ∧
        twoEntries.rootAt 1 = some oldRoot ∧ twoEntries.rootAt 2 = some newRoot ∧
        verifyConsistency proof oldRoot newRoot = .ok true :=
  ⟨by decide, by decide, by decide, consistency_proof_is_complete twoEntries twoEntries_built 1 2
    (by decide) (by decide) (by decide)⟩

end Tracefold.Ledger
