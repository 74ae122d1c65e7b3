import Mathlib.Tactic.Common
import Tracefold.Cbor.Span
import Tracefold.Library.Sort

/-! What is written of a value, and a map of which one value is cleared. -/

namespace Tracefold.DagCbor

open Library

section Encode

mutual

/-- Whether a value has a canonical encoding is decided over its items. -/
def Value.decCanonical : (v : Value) → Decidable v.Canonical
  | .null => .isTrue (by simp [Value.Canonical])
  | .bool _ => .isTrue (by simp [Value.Canonical])
  | .int n => decidable_of_iff (-2 ^ 64 ≤ n ∧ n < 2 ^ 64) (by rw [Value.Canonical])
  | .bytes raw => decidable_of_iff (raw.length < 2 ^ 64) (by rw [Value.Canonical])
  | .text s => decidable_of_iff ((utf8 s).length < 2 ^ 64) (by rw [Value.Canonical])
  | .array items =>
    have := decCanonicalItems items
    decidable_of_iff (items.length < 2 ^ 64 ∧ CanonicalItems items) (by rw [Value.Canonical])
  | .map entries =>
    have := decCanonicalEntries entries
    decidable_of_iff
      (entries.length < 2 ^ 64 ∧ (keysOf entries).Pairwise (· < ·) ∧ CanonicalEntries entries)
      (by rw [Value.Canonical])

def decCanonicalItems : (items : List Value) → Decidable (CanonicalItems items)
  | [] => decidable_of_iff True (by rw [CanonicalItems])
  | v :: vs =>
    have := v.decCanonical
    have := decCanonicalItems vs
    decidable_of_iff (v.Canonical ∧ CanonicalItems vs) (by rw [CanonicalItems])

def decCanonicalEntries : (entries : List (String × Value)) → Decidable (CanonicalEntries entries)
  | [] => decidable_of_iff True (by rw [CanonicalEntries])
  | (key, v) :: entries =>
    have := v.decCanonical
    have := decCanonicalEntries entries
    decidable_of_iff ((utf8 key).length < 2 ^ 64 ∧ v.Canonical ∧ CanonicalEntries entries)
      (by rw [CanonicalEntries])

end

instance (v : Value) : Decidable v.Canonical := v.decCanonical

/-- `cbor::encode` of a value: the codec refuses an integer that no head holds, and the audit refuses
what is nested too deep. -/
def encode (v : Value) : Option Bytes :=
  if v.Canonical ∧ v.depth ≤ maxDepth then some v.encode else none

theorem encode_eq_some {v : Value} {b : Bytes} : encode v = some b ↔ Denotes b v := by
  unfold encode
  constructor
  · intro h
    split at h
    next hfits => exact ⟨hfits.1, hfits.2, Option.some.inj h⟩
    next => cases h
  · rintro ⟨hcanonical, hshallow, hencode⟩
    rw [if_pos ⟨hcanonical, hshallow⟩, hencode]

def compareKeys (a b : String × Value) : Ordering := compare (encodeText a.1) (encodeText b.1)

/-- A map as the codec writes one: in the order of the keys as they are written. -/
def mapOf (entries : List (String × Value)) : Value := .map (Sort.sortBy compareKeys entries)

end Encode

section Clear

/-- An entry, with a null for the value if it is of that key. -/
def clear (key : String) (e : String × Value) : String × Value :=
  if e.1 = key then (key, .null) else e

variable {key : String} {entries : List (String × Value)}

theorem clear_fst (key : String) (e : String × Value) : (clear key e).1 = e.1 := by
  unfold clear
  split
  next h => exact h.symm
  next => rfl

theorem sortBy_clear (key : String) (entries : List (String × Value)) :
    Sort.sortBy compareKeys (entries.map (clear key)) = (Sort.sortBy compareKeys entries).map (clear key) := by
  unfold Sort.sortBy
  symm
  apply List.map_insertionSort
  intro a _ b _
  rw [compareKeys, compareKeys, clear_fst, clear_fst]

theorem map_clear_of_fresh (h : key ∉ entries.map Prod.fst) : entries.map (clear key) = entries := by
  calc entries.map (clear key) = entries.map id := by
        apply List.map_congr_left
        intro e he
        apply if_neg
        rintro rfl
        exact h (List.mem_map_of_mem he)
    _ = entries := List.map_id _

theorem map_clear {before after : List (String × Value)} {v : Value}
    (hbefore : key ∉ before.map Prod.fst) (hafter : key ∉ after.map Prod.fst) :
    (before ++ (key, v) :: after).map (clear key) = before ++ (key, .null) :: after := by
  rw [List.map_append, List.map_cons, map_clear_of_fresh hbefore, map_clear_of_fresh hafter, clear,
    if_pos rfl]

theorem keysOf_clear (key : String) (entries : List (String × Value)) :
    keysOf (entries.map (clear key)) = keysOf entries := by
  rw [keysOf, List.map_map, keysOf]
  apply List.map_congr_left
  intro e _
  rw [Function.comp_apply, clear_fst]

theorem encode_null : Value.null.encode = [0xf6] := by decide

theorem Denotes.pairwise {b : Bytes} (h : Denotes b (.map entries)) :
    entries.Pairwise fun e e' => encodeText e.1 < encodeText e'.1 := by
  have hcanonical := h.canonical
  rw [Value.Canonical] at hcanonical
  exact List.pairwise_map.mp hcanonical.2.1

theorem Denotes.fresh_after {b : Bytes} {before after : List (String × Value)} {v : Value}
    (h : Denotes b (.map (before ++ (key, v) :: after))) : key ∉ after.map Prod.fst := by
  intro hmem
  obtain ⟨e, he, hkey⟩ := List.mem_map.mp hmem
  have hpairwise := (List.pairwise_append.mp h.pairwise).2.1
  have hlt := List.rel_of_pairwise_cons hpairwise he
  rw [hkey] at hlt
  exact List.lt_irrefl _ hlt

theorem Denotes.cleared {b : Bytes} (h : Denotes b (.map entries)) (key : String) :
    Denotes (Value.map (entries.map (clear key))).encode (.map (entries.map (clear key))) := by
  have hcanonical := h.canonical
  have hshallow := h.shallow
  rw [Value.Canonical, canonicalEntries_iff] at hcanonical
  constructor
  case canonical =>
    rw [Value.Canonical, List.length_map, keysOf_clear, canonicalEntries_iff]
    refine ⟨hcanonical.1, hcanonical.2.1, ?_⟩
    intro e he
    obtain ⟨e', he', rfl⟩ := List.mem_map.mp he
    unfold clear
    split
    next heq =>
      refine ⟨heq ▸ (hcanonical.2.2 e' he').1, ?_⟩
      simp [Value.Canonical]
    next => exact hcanonical.2.2 e' he'
  case shallow =>
    rw [Value.depth, ← Nat.lt_succ_iff, depthEntries_lt] at hshallow ⊢
    intro e he
    obtain ⟨e', he', rfl⟩ := List.mem_map.mp he
    unfold clear
    split
    next =>
      have hnull : Value.null.depth = 0 := by simp [Value.depth]
      rw [hnull]
      decide
    next => exact hshallow e' he'
  case encode => rfl

/-- The bytes of a map with a null in the place of a span. -/
def withNull (b : Bytes) (span : ℕ × ℕ) : Bytes := b.take span.1 ++ [0xf6] ++ b.drop span.2

theorem withNull_eq {b : Bytes} (h : Denotes b (.map entries)) {span : ℕ × ℕ}
    (hspan : valueSpan b key = .ok (some span)) :
    withNull b span = (Value.map (entries.map (clear key))).encode := by
  obtain ⟨before, v, after, hdenotes, hstart, hstop⟩ := valueSpan_some.mp hspan
  obtain rfl : entries = before ++ (key, v) :: after := Value.map.inj (h.unique hdenotes)
  have hlength : (before ++ (key, Value.null) :: after).length =
      (before ++ (key, v) :: after).length := by
    rw [List.length_append, List.length_append]
    rfl
  rw [map_clear h.key_fresh h.fresh_after, Value.encode, encodeEntries_append_cons, encode_null,
    hlength]
  have hb := h.encode
  rw [Value.encode, encodeEntries_append_cons] at hb
  generalize headBytes 5 (before ++ (key, v) :: after).length = header at hb hstart ⊢
  generalize hfront : header ++ encodeEntries before ++ encodeText key = front at hstart
  have hparts : b = front ++ v.encode ++ encodeEntries after := by
    rw [← hb, ← hfront]
    simp only [List.append_assoc]
  have hend : span.2 = (front ++ v.encode).length := by
    rw [hstop.1, hstart.1, Nat.zero_add, List.length_append]
  have hstart' : span.1 = front.length := by rw [hstart.1, Nat.zero_add]
  have htake : b.take span.1 = front := by
    rw [hparts, hstart', List.append_assoc, List.take_left]
  have hdrop : b.drop span.2 = encodeEntries after := by
    rw [hparts, hend, List.drop_left]
  rw [withNull, htake, hdrop, ← hfront]
  simp only [List.append_assoc]

/-- The entries of a map, up to the value at a key. -/
def SameBut (key : String) (entries entries' : List (String × Value)) : Prop :=
  (∀ other v, other ≠ key → ((other, v) ∈ entries ↔ (other, v) ∈ entries')) ∧
    (key ∈ entries.map Prod.fst ↔ key ∈ entries'.map Prod.fst)

theorem mem_map_clear {e : String × Value} :
    e ∈ entries.map (clear key) ↔
      (e.1 ≠ key ∧ e ∈ entries) ∨ (e = (key, .null) ∧ key ∈ entries.map Prod.fst) := by
  constructor
  · intro h
    obtain ⟨e', he', rfl⟩ := List.mem_map.mp h
    unfold clear
    split
    next heq => exact .inr ⟨rfl, heq ▸ List.mem_map_of_mem he'⟩
    next hne => exact .inl ⟨hne, he'⟩
  · rintro (⟨hne, he⟩ | ⟨rfl, hmem⟩)
    · exact List.mem_map.mpr ⟨e, he, if_neg hne⟩
    · obtain ⟨e, he, hkey⟩ := List.mem_map.mp hmem
      exact List.mem_map.mpr ⟨e, he, if_pos hkey⟩

theorem nodup_of_pairwise (h : entries.Pairwise fun e e' => encodeText e.1 < encodeText e'.1) :
    entries.Nodup := by
  apply h.imp
  rintro e _ hlt rfl
  exact List.lt_irrefl _ hlt

/-- Maps in order are the same once the value of a key is cleared, when they have the same entries
but for it. -/
theorem map_clear_eq_iff {entries' : List (String × Value)}
    (h : entries.Pairwise fun e e' => encodeText e.1 < encodeText e'.1)
    (h' : entries'.Pairwise fun e e' => encodeText e.1 < encodeText e'.1) :
    entries.map (clear key) = entries'.map (clear key) ↔ SameBut key entries entries' := by
  constructor
  · intro heq
    have hmem : ∀ e, e ∈ entries.map (clear key) ↔ e ∈ entries'.map (clear key) := fun e => by rw [heq]
    simp only [mem_map_clear] at hmem
    constructor
    · intro other v hne
      simpa [hne] using hmem (other, v)
    · simpa using hmem (key, .null)
  · rintro ⟨hothers, hkey⟩
    have hclear : ∀ {entries : List (String × Value)},
        (entries.Pairwise fun e e' => encodeText e.1 < encodeText e'.1) →
        (entries.map (clear key)).Pairwise fun e e' => encodeText e.1 < encodeText e'.1 := by
      intro entries hentries
      apply List.Pairwise.map _ _ hentries
      intro e e' hlt
      rwa [clear_fst, clear_fst]
    apply List.Perm.eq_of_pairwise _ (hclear h) (hclear h')
    · apply (List.perm_ext_iff_of_nodup (nodup_of_pairwise (hclear h))
        (nodup_of_pairwise (hclear h'))).mpr
      intro e
      rw [mem_map_clear, mem_map_clear, hkey]
      apply or_congr_left
      apply and_congr_right
      exact hothers e.1 e.2
    · intro e e' _ _ hlt hlt'
      exact absurd hlt' (List.lt_asymm hlt)

end Clear

end Tracefold.DagCbor
