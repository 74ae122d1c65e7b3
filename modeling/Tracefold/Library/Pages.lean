import Mathlib.Order.WithBot
import Mathlib.Tactic.Common

/-! Rows that stand in the order of their keys, read a page at a time while they change. -/

namespace Tracefold.Library.Pages

set_option autoImplicit true

variable [LinearOrder κ]

/-- No key stands twice, and a later row has a greater key. -/
def Ascending (rows : List (κ × α)) : Prop := rows.Pairwise fun a b => a.1 < b.1

/-- The rows past a key. -/
def past (key : WithBot κ) (rows : List (κ × α)) : List (κ × α) :=
  rows.filter fun row => key < (row.1 : WithBot κ)

/-- The first rows past a key, at most so many of them. -/
def page (limit : ℕ) (key : WithBot κ) (rows : List (κ × α)) : List (κ × α) :=
  (past key rows).take limit

/-- The key of the last row of a page, where the next page begins. -/
def lastOf (key : WithBot κ) (rows : List (κ × α)) : WithBot κ :=
  match rows.getLast? with
  | some row => (row.1 : WithBot κ)
  | none => key

variable {rows : List (κ × α)} {row : κ × α} {key : WithBot κ} {k : κ} {limit : ℕ}

theorem mem_past : row ∈ past key rows ↔ row ∈ rows ∧ key < (row.1 : WithBot κ) := by simp [past]

theorem mem_of_mem_page (h : row ∈ page limit key rows) : row ∈ rows ∧ key < (row.1 : WithBot κ) :=
  mem_past.mp (List.mem_of_mem_take h)

theorem Ascending.past (h : Ascending rows) : Ascending (past key rows) :=
  List.Pairwise.sublist List.filter_sublist h

theorem Ascending.page (h : Ascending rows) : Ascending (page limit key rows) :=
  List.Pairwise.sublist (List.take_sublist ..) h.past

omit [LinearOrder κ] in
theorem lastOf_concat : lastOf key (rows ++ [row]) = row.1 := by
  rw [lastOf, List.getLast?_concat]

theorem le_lastOf (h : Ascending rows) (hmem : row ∈ rows) : (row.1 : WithBot κ) ≤ lastOf key rows := by
  rcases List.eq_nil_or_concat rows with rfl | ⟨init, last, rfl⟩
  · cases hmem
  · rw [List.concat_eq_append] at h hmem ⊢
    rw [lastOf_concat, WithBot.coe_le_coe]
    obtain ⟨-, -, hlast⟩ := List.pairwise_append.mp h
    rcases List.mem_append.mp hmem with hmem | hmem
    · exact (hlast row hmem last List.mem_cons_self).le
    · rw [List.mem_singleton.mp hmem]

omit [LinearOrder κ] in
theorem lastOf_cases (key : WithBot κ) (rows : List (κ × α)) :
    lastOf key rows = key ∨ ∃ row ∈ rows, lastOf key rows = (row.1 : WithBot κ) := by
  rcases List.eq_nil_or_concat rows with rfl | ⟨init, last, rfl⟩
  · exact .inl rfl
  · rw [List.concat_eq_append]
    exact .inr ⟨last, by simp, lastOf_concat⟩

theorem le_lastOf_page : key ≤ lastOf key (page limit key rows) := by
  rcases lastOf_cases key (page limit key rows) with h | ⟨row, hmem, h⟩
  · exact h.ge
  · rw [h]
    exact (mem_of_mem_page hmem).2.le

theorem mem_page (h : Ascending rows) (hmem : row ∈ rows) (hlt : key < (row.1 : WithBot κ))
    (hle : (row.1 : WithBot κ) ≤ lastOf key (page limit key rows)) : row ∈ page limit key rows := by
  have hpast : row ∈ past key rows := mem_past.mpr ⟨hmem, hlt⟩
  rw [← List.take_append_drop limit (past key rows)] at hpast
  rcases List.mem_append.mp hpast with htake | hdrop
  · exact htake
  · rcases lastOf_cases key (page limit key rows) with hlast | ⟨last, hin, hlast⟩
    · rw [hlast] at hle
      exact absurd hle hlt.not_ge
    · rw [hlast, WithBot.coe_le_coe] at hle
      have hsorted : Ascending (past key rows) := h.past
      rw [Ascending, ← List.take_append_drop limit (past key rows), List.pairwise_append] at hsorted
      exact absurd hle (hsorted.2.2 last hin row hdrop).not_ge

theorem page_append (limit : ℕ) (key : WithBot κ) (front back : List (κ × α)) :
    page limit key (front ++ back) =
      page limit key front ++ page (limit - (page limit key front).length) key back := by
  rw [page, past, List.filter_append, List.take_append, page, page, past, past, List.length_take]
  congr 2
  omega

theorem page_append_of_le {front back : List (κ × α)} (h : ∀ row ∈ front, (row.1 : WithBot κ) ≤ key) :
    page limit key (front ++ back) = page limit key back := by
  have hpast : past key front = [] := by
    rw [past, List.filter_eq_nil_iff]
    intro row hrow
    simpa using h row hrow
  rw [page, past, List.filter_append, ← past, hpast, List.nil_append, page, past]

theorem mem_page_of_short (hmem : row ∈ rows) (hlt : key < (row.1 : WithBot κ))
    (hshort : (page limit key rows).length < limit) : row ∈ page limit key rows := by
  have hlength : (past key rows).length ≤ limit := by
    rw [page, List.length_take] at hshort
    omega
  rw [page, List.take_of_length_le hlength]
  exact mem_past.mpr ⟨hmem, hlt⟩

section Follow

/-- The rows a reader has who asks for page after page, each behind the last row of the one
before, until one is not full, and whether one was not. -/
def follow : WithBot κ → List (ℕ × List (κ × α)) → List (κ × α) × Bool
  | _, [] => ([], false)
  | key, (limit, rows) :: rest =>
    if (page limit key rows).length < limit then (page limit key rows, true)
    else
      let (more, done) := follow (lastOf key (page limit key rows)) rest
      (page limit key rows ++ more, done)

variable {requests : List (ℕ × List (κ × α))}

theorem lt_of_mem_follow (h : row ∈ (follow key requests).1) : key < (row.1 : WithBot κ) := by
  induction requests generalizing key with
  | nil => cases h
  | cons request rest ih =>
    rw [follow] at h
    split at h
    · exact (mem_of_mem_page h).2
    · rcases List.mem_append.mp h with h | h
      · exact (mem_of_mem_page h).2
      · exact lt_of_le_of_lt le_lastOf_page (ih h)

theorem mem_of_mem_follow (h : row ∈ (follow key requests).1) :
    ∃ request ∈ requests, row ∈ request.2 := by
  induction requests generalizing key with
  | nil => cases h
  | cons request rest ih =>
    rw [follow] at h
    split at h
    · exact ⟨request, List.mem_cons_self, (mem_of_mem_page h).1⟩
    · rcases List.mem_append.mp h with h | h
      · exact ⟨request, List.mem_cons_self, (mem_of_mem_page h).1⟩
      · obtain ⟨other, hother, hmem⟩ := ih h
        exact ⟨other, List.mem_cons_of_mem _ hother, hmem⟩

theorem ascending_follow (h : ∀ request ∈ requests, Ascending request.2) :
    Ascending (follow key requests).1 := by
  induction requests generalizing key with
  | nil => exact .nil
  | cons request rest ih =>
    have hrows := h request List.mem_cons_self
    rw [follow]
    split
    · exact hrows.page
    · apply List.pairwise_append.mpr
      refine ⟨hrows.page, ih fun other hother => h other (List.mem_cons_of_mem _ hother), ?_⟩
      intro a ha b hb
      have hle : (a.1 : WithBot κ) ≤ lastOf key (page request.1 key request.2) := le_lastOf hrows.page ha
      exact WithBot.coe_lt_coe.mp (lt_of_le_of_lt hle (lt_of_mem_follow hb))

/-- A reader who came to the end has every key that stood at every request. -/
theorem follow_complete (h : ∀ request ∈ requests, Ascending request.2) (hlt : key < (k : WithBot κ))
    (hstood : ∀ request ∈ requests, ∃ a, (k, a) ∈ request.2) (hdone : (follow key requests).2 = true) :
    ∃ a, (k, a) ∈ (follow key requests).1 := by
  induction requests generalizing key with
  | nil => cases hdone
  | cons request rest ih =>
    obtain ⟨a, ha⟩ := hstood request List.mem_cons_self
    rw [follow] at hdone ⊢
    split
    next hshort => exact ⟨a, mem_page_of_short ha hlt hshort⟩
    next hshort =>
      rw [if_neg hshort] at hdone
      rcases le_or_gt (k : WithBot κ) (lastOf key (page request.1 key request.2)) with hle | hgt
      · refine ⟨a, List.mem_append_left _ ?_⟩
        exact mem_page (h request List.mem_cons_self) ha hlt hle
      · obtain ⟨b, hb⟩ := ih (fun other hother => h other (List.mem_cons_of_mem _ hother)) hgt
          (fun other hother => hstood other (List.mem_cons_of_mem _ hother)) hdone
        exact ⟨b, List.mem_append_right _ hb⟩

end Follow

theorem length_past_lastOf (h : page limit key rows ≠ []) :
    (past (lastOf key (page limit key rows)) rows).length < (past key rows).length := by
  obtain ⟨row, hmem, hlast⟩ : ∃ row ∈ page limit key rows,
      lastOf key (page limit key rows) = (row.1 : WithBot κ) := by
    obtain ⟨init, last, hpage⟩ := List.eq_nil_or_concat _ |>.resolve_left h
    rw [hpage, List.concat_eq_append]
    exact ⟨last, by simp, lastOf_concat⟩
  obtain ⟨hin, hlt⟩ := mem_of_mem_page hmem
  have hless : past row.1 rows = past row.1 (past key rows) := by
    rw [past, past, past, List.filter_filter]
    apply List.filter_congr
    intro other _
    rw [← Bool.decide_and, decide_eq_decide]
    exact ⟨fun hother => ⟨hother, hlt.trans hother⟩, And.left⟩
  rw [hlast, hless]
  apply List.length_filter_lt_length_iff_exists.mpr
  exact ⟨row, mem_past.mpr ⟨hin, hlt⟩, by simp⟩

section Walk

/-- The rows a reader has who asks for page after page without an end. -/
def walk : WithBot κ → List (ℕ × List (κ × α)) → List (κ × α)
  | _, [] => []
  | key, (limit, rows) :: rest =>
    page limit key rows ++ walk (lastOf key (page limit key rows)) rest

/-- Where such a reader has got to. -/
def reached : WithBot κ → List (ℕ × List (κ × α)) → WithBot κ
  | key, [] => key
  | key, (limit, rows) :: rest => reached (lastOf key (page limit key rows)) rest

variable {requests : List (ℕ × List (κ × α))}

theorem le_reached : key ≤ reached key requests := by
  induction requests generalizing key with
  | nil => exact le_rfl
  | cons request rest ih => exact le_trans le_lastOf_page ih

theorem lt_of_mem_walk (h : row ∈ walk key requests) : key < (row.1 : WithBot κ) := by
  induction requests generalizing key with
  | nil => cases h
  | cons request rest ih =>
    rw [walk] at h
    rcases List.mem_append.mp h with h | h
    · exact (mem_of_mem_page h).2
    · exact lt_of_le_of_lt le_lastOf_page (ih h)

theorem mem_of_mem_walk (h : row ∈ walk key requests) : ∃ request ∈ requests, row ∈ request.2 := by
  induction requests generalizing key with
  | nil => cases h
  | cons request rest ih =>
    rw [walk] at h
    rcases List.mem_append.mp h with h | h
    · exact ⟨request, List.mem_cons_self, (mem_of_mem_page h).1⟩
    · obtain ⟨other, hother, hmem⟩ := ih h
      exact ⟨other, List.mem_cons_of_mem _ hother, hmem⟩

theorem le_reached_of_mem (h : ∀ request ∈ requests, Ascending request.2)
    (hmem : row ∈ walk key requests) : (row.1 : WithBot κ) ≤ reached key requests := by
  induction requests generalizing key with
  | nil => cases hmem
  | cons request rest ih =>
    rw [walk] at hmem
    rcases List.mem_append.mp hmem with hmem | hmem
    · exact le_trans (le_lastOf (h request List.mem_cons_self).page hmem) le_reached
    · exact ih (fun other hother => h other (List.mem_cons_of_mem _ hother)) hmem

theorem ascending_walk (h : ∀ request ∈ requests, Ascending request.2) :
    Ascending (walk key requests) := by
  induction requests generalizing key with
  | nil => exact .nil
  | cons request rest ih =>
    have hrows := h request List.mem_cons_self
    apply List.pairwise_append.mpr
    refine ⟨hrows.page, ih fun other hother => h other (List.mem_cons_of_mem _ hother), ?_⟩
    intro a ha b hb
    have hle : (a.1 : WithBot κ) ≤ lastOf key (page request.1 key request.2) := le_lastOf hrows.page ha
    exact WithBot.coe_lt_coe.mp (lt_of_le_of_lt hle (lt_of_mem_walk hb))

theorem walk_passes (h : ∀ request ∈ requests, Ascending request.2) (hlt : key < (k : WithBot κ))
    (hle : (k : WithBot κ) ≤ reached key requests) :
    ∃ request ∈ requests, (∃ row ∈ request.2, k ≤ row.1) ∧
      ∀ a, (k, a) ∈ walk key requests ↔ (k, a) ∈ request.2 := by
  induction requests generalizing key with
  | nil => exact absurd hle hlt.not_ge
  | cons request rest ih =>
    have hrows := h request List.mem_cons_self
    have hrest := fun other hother => h other (List.mem_cons_of_mem request hother)
    rcases le_or_gt (k : WithBot κ) (lastOf key (page request.1 key request.2)) with hin | hgt
    · refine ⟨request, List.mem_cons_self, ?_, fun a => ?_⟩
      · rcases lastOf_cases key (page request.1 key request.2) with hlast | ⟨row, hrow, hlast⟩
        · exact absurd (hlast ▸ hin) hlt.not_ge
        · exact ⟨row, (mem_of_mem_page hrow).1, WithBot.coe_le_coe.mp (hlast ▸ hin)⟩
      · rw [walk, List.mem_append]
        constructor
        · rintro (hmem | hmem)
          · exact (mem_of_mem_page hmem).1
          · exact absurd hin (lt_of_mem_walk hmem).not_ge
        · intro hmem
          exact .inl (mem_page hrows hmem hlt hin)
    · obtain ⟨other, hother, hpast, hiff⟩ := ih hrest hgt hle
      refine ⟨other, List.mem_cons_of_mem _ hother, hpast, fun a => ?_⟩
      rw [walk, List.mem_append, ← hiff a]
      constructor
      · rintro (hmem | hmem)
        · exact absurd (le_lastOf hrows.page hmem) hgt.not_ge
        · exact hmem
      · exact .inr

end Walk

end Tracefold.Library.Pages
