import Mathlib.Tactic.Common
import Tracefold.Cbor.Serde

/-! A struct as a canonical map: what is read of it member by member, and when there is nothing else
in it. -/

namespace Tracefold.DagCbor

open Library

section Record

variable {entries want : List (String × Value)} {key : String} {v : Value}

/-- The entries of a map in the order they are written in. -/
def InOrder (entries : List (String × Value)) : Prop :=
  entries.Pairwise fun e e' => encodeText e.1 < encodeText e'.1

theorem mem_of_member (h : member entries key = some v) : (key, v) ∈ entries := by
  obtain ⟨e, he, rfl⟩ := Option.map_eq_some_iff.mp h
  have hkey : e.1 = key := by simpa using List.find?_some he
  rw [← hkey]
  exact List.mem_of_find?_eq_some he

theorem compare_of_lt {a b : Bytes} (h : a < b) : compare a b = .lt := by
  induction h with
  | nil => rfl
  | rel h =>
    rw [List.compare_eq_compareLex, List.compareLex_cons_cons, Std.compare_eq_lt.mpr h]
    rfl
  | cons h ih =>
    rw [List.compare_eq_compareLex] at ih ⊢
    rw [List.compareLex_cons_cons, Std.compare_self, Ordering.then, ih]

theorem mapOf_inOrder (h : InOrder entries) : mapOf entries = .map entries := by
  apply congrArg Value.map
  apply List.Pairwise.insertionSort_eq
  apply h.imp
  intro e e' hlt
  rw [compareKeys, compare_of_lt hlt]
  rfl

theorem eq_of_members (h : InOrder entries) (hwant : InOrder want)
    (hmembers : ∀ e ∈ want, e ∈ entries) (hlength : entries.length = want.length) :
    entries = want := by
  have hperm : want.Perm entries := by
    have hsub : want.Subperm entries := List.subperm_of_subset (nodup_of_pairwise hwant) hmembers
    exact hsub.perm_of_length_le hlength.le
  apply hperm.symm.eq_of_pairwise _ h hwant
  intro e e' _ _ hlt hlt'
  exact absurd hlt' (List.lt_asymm hlt)

theorem Value.Canonical.inOrder (h : (Value.map entries).Canonical) : InOrder entries := by
  rw [Value.Canonical] at h
  exact List.pairwise_map.mp h.2.1

theorem Value.Canonical.member (h : (Value.map entries).Canonical)
    (hmember : DagCbor.member entries key = some v) : v.Canonical := by
  rw [Value.Canonical, canonicalEntries_iff] at h
  exact (h.2.2 _ (mem_of_member hmember)).2

theorem inOrder_of_keys (h : (keysOf entries).Pairwise (· < ·)) : InOrder entries :=
  List.pairwise_map.mp h

theorem canonical_record (hwant : InOrder want) (hlength : want.length < 2 ^ 64)
    (hentries : ∀ e ∈ want, (utf8 e.1).length < 2 ^ 64 ∧ e.2.Canonical) :
    (Value.map want).Canonical := by
  rw [Value.Canonical, canonicalEntries_iff]
  exact ⟨hlength, List.pairwise_map.mpr hwant, hentries⟩

theorem member_of_mem (h : InOrder entries) (hmem : (key, v) ∈ entries) :
    member entries key = some v := by
  induction entries with
  | nil => cases hmem
  | cons e entries ih =>
    obtain ⟨other, v'⟩ := e
    cases List.mem_cons.mp hmem with
    | inl heq =>
      cases heq
      exact member_self
    | inr hmem =>
      have hne : other ≠ key := by
        rintro rfl
        have hlt := List.rel_of_pairwise_cons h hmem
        exact List.lt_irrefl (encodeText other) hlt
      rw [member_cons hne]
      exact ih (List.Pairwise.of_cons h) hmem

/-- A map is a struct that was written if it has the members of the struct, and no more. -/
theorem map_eq_iff (h : (Value.map entries).Canonical) (hwant : InOrder want) :
    Value.map entries = .map want ↔
      entries.length = want.length ∧ ∀ e ∈ want, member entries e.1 = some e.2 := by
  rw [Value.map.injEq]
  constructor
  · rintro rfl
    exact ⟨rfl, fun e he => member_of_mem hwant he⟩
  · rintro ⟨hlength, hmembers⟩
    exact eq_of_members h.inOrder hwant (fun e he => mem_of_member (hmembers e he)) hlength

/-- How many members a map has. -/
def Value.members : Value → ℕ
  | .map entries => entries.length
  | _ => 0

end Record

section Read

variable {α : Type} {read : Value → Option α} {entries : List (String × Value)} {key : String}

theorem required_eq_some {a : α} : required read entries key = some a ↔
    ∃ v, member entries key = some v ∧ read v = some a := Option.bind_eq_some_iff

theorem ofText_eq_some {v : Value} {s : String} : ofText v = some s ↔ v = .text s := by
  constructor
  · intro h
    cases v with
    | text s' => rw [Option.some.inj h]
    | _ => cases h
  · rintro rfl
    rfl

theorem required_text {s : String} :
    required ofText entries key = some s ↔ member entries key = some (.text s) := by
  rw [required_eq_some]
  constructor
  · rintro ⟨v, hmember, hread⟩
    rw [hmember, ofText_eq_some.mp hread]
  · intro h
    exact ⟨_, h, rfl⟩

theorem mapM_eq_some {items : List Value} {l : List α} : items.mapM read = some l ↔
    List.Forall₂ (fun v a => read v = some a) items l := by
  induction items generalizing l with
  | nil =>
    rw [List.mapM_nil, List.forall₂_nil_left_iff]
    exact ⟨fun h => (Option.some.inj h).symm, fun h => congrArg some h.symm⟩
  | cons v items ih =>
    rw [List.mapM_cons]
    constructor
    · intro h
      obtain ⟨a, ha, h⟩ := Option.bind_eq_some_iff.mp h
      obtain ⟨l', hl', h⟩ := Option.bind_eq_some_iff.mp h
      rw [← Option.some.inj h]
      exact .cons ha (ih.mp hl')
    · intro h
      cases h with
      | cons ha hl => simp [ha, ih.mpr hl]

theorem ofArray_eq_some {v : Value} {l : List α} : ofArray read v = some l ↔
    ∃ items, v = .array items ∧ List.Forall₂ (fun v a => read v = some a) items l := by
  constructor
  · intro h
    cases v with
    | array items => exact ⟨items, rfl, mapM_eq_some.mp h⟩
    | _ => cases h
  · rintro ⟨items, rfl, h⟩
    exact mapM_eq_some.mpr h

theorem required_array {l : List α} : required (ofArray read) entries key = some l ↔
    ∃ items, member entries key = some (.array items) ∧
      List.Forall₂ (fun v a => read v = some a) items l := by
  rw [required_eq_some]
  constructor
  · rintro ⟨v, hmember, hread⟩
    obtain ⟨items, rfl, hitems⟩ := ofArray_eq_some.mp hread
    exact ⟨items, hmember, hitems⟩
  · rintro ⟨items, hmember, hitems⟩
    exact ⟨_, hmember, ofArray_eq_some.mpr ⟨items, rfl, hitems⟩⟩

theorem required_array_exact {value : α → Value} (hread : ∀ v a, read v = some a ↔ v = value a)
    {l : List α} : required (ofArray read) entries key = some l ↔
      member entries key = some (.array (l.map value)) := by
  have hitems : ∀ items : List Value,
      List.Forall₂ (fun v a => read v = some a) items l ↔ items = l.map value := by
    intro items
    simp only [hread]
    rw [← List.forall₂_eq_eq_eq, List.forall₂_map_right_iff]
  rw [required_array]
  constructor
  · rintro ⟨items, hmember, h⟩
    rw [hmember, (hitems items).mp h]
  · intro h
    exact ⟨_, h, (hitems _).mpr rfl⟩

theorem forall₂_values {value : α → Value} {only : Value → Prop} {items : List Value} {l : List α}
    (h : List.Forall₂ (fun v a => read v = some a) items l)
    (hone : ∀ v ∈ items, ∀ a, read v = some a → (only v ↔ v = value a)) :
    (∀ v ∈ items, only v) ↔ items = l.map value := by
  induction h with
  | nil => simp
  | cons hread _ ih =>
    rw [List.forall_mem_cons, List.map_cons, List.cons.injEq,
      hone _ List.mem_cons_self _ hread, ih fun v hv => hone v (List.mem_cons_of_mem _ hv)]

theorem Value.Canonical.items {items : List Value} (h : (Value.array items).Canonical) :
    items.length < 2 ^ 64 ∧ ∀ v ∈ items, v.Canonical := by
  rwa [Value.Canonical, canonicalItems_iff] at h

theorem canonical_array {items : List Value} (hlength : items.length < 2 ^ 64)
    (hitems : ∀ v ∈ items, v.Canonical) : (Value.array items).Canonical := by
  rw [Value.Canonical, canonicalItems_iff]
  exact ⟨hlength, hitems⟩

theorem canonical_values {value : α → Value} {items : List Value} {l : List α}
    (h : List.Forall₂ (fun v a => read v = some a) items l) (hitems : (Value.array items).Canonical)
    (hone : ∀ v ∈ items, v.Canonical → ∀ a, read v = some a → (value a).Canonical) :
    (Value.array (l.map value)).Canonical := by
  obtain ⟨hlength, hcanonical⟩ := hitems.items
  apply canonical_array
  · rwa [List.length_map, ← h.length_eq]
  · intro v hv
    obtain ⟨a, ha, rfl⟩ := List.mem_map.mp hv
    obtain ⟨i, hi, rfl⟩ := List.getElem_of_mem ha
    have hi' : i < items.length := h.length_eq ▸ hi
    exact hone _ (List.getElem_mem hi') (hcanonical _ (List.getElem_mem hi')) _ (h.get hi' hi)

end Read

end Tracefold.DagCbor
