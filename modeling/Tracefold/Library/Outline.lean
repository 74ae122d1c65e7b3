import Mathlib.Data.List.Range
import Mathlib.Tactic.Common

/-! Entries in a row, some of which are headings of a level: what each stands under, and the stack
on which a reader keeps the headings that are open. -/

namespace Tracefold.Library

/-- The level of each entry that is a heading. -/
abbrev Outline := List (Option ℕ)

namespace Outline

/-- The headings with the places they stand at, the last one first. -/
def headings (outline : Outline) : List (ℕ × ℕ) :=
  (outline.zipIdx.filterMap fun (entry, place) => entry.map (·, place)).reverse

/-- Only headings of a higher level stand under a heading. -/
def fits (level : ℕ) : Option ℕ → Bool
  | none => true
  | some bound => level < bound

/-- The last of some headings that an entry fits under. -/
def nearest (headings : List (ℕ × ℕ)) (entry : Option ℕ) : Option (ℕ × ℕ) :=
  headings.find? fun row => fits row.1 entry

/-- What the entry at a place stands under. -/
def under (outline : Outline) (place : ℕ) : Option ℕ :=
  outline[place]?.bind fun entry => (nearest (headings (outline.take place)) entry).map Prod.snd

/-- The entry at `parent` is the last heading before the one at `place` that this fits under. -/
structure IsParent (outline : Outline) (place parent : ℕ) : Prop where
  earlier : parent < place
  heading : ∃ level, outline[parent]? = some (some level) ∧
    ∀ bound, outline[place]? = some (some bound) → level < bound
  nearest : ∀ between, parent < between → between < place →
    ∀ level, outline[between]? = some (some level) →
      ∃ bound, outline[place]? = some (some bound) ∧ bound ≤ level

/-- The entries before a place that stand under the same. -/
def siblingsBefore (outline : Outline) (place : ℕ) : ℕ :=
  (List.range place).countP fun earlier => under outline earlier = under outline place

/-- The entries that stand directly under a heading, or under none. -/
def children (outline : Outline) (parent : Option ℕ) : ℕ :=
  (List.range outline.length).countP fun place => under outline place = parent

/-- The headings left open by an entry that comes next. -/
def close (stack : List (ℕ × ℕ)) : Option ℕ → List (ℕ × ℕ)
  | none => stack
  | some level => stack.dropWhile (level ≤ ·.1)

/-- The headings still open after some entries, the innermost first. -/
def stack : List (ℕ × ℕ) → List (ℕ × ℕ)
  | [] => []
  | (level, place) :: headings => (level, place) :: close (stack headings) (some level)

theorem headings_append (outline : Outline) (entry : Option ℕ) :
    headings (outline ++ [entry]) = match entry with
      | none => headings outline
      | some level => (level, outline.length) :: headings outline := by
  cases entry <;> simp [headings, List.zipIdx_append]

theorem mem_headings {outline : Outline} {level place : ℕ} :
    (level, place) ∈ headings outline ↔ outline[place]? = some (some level) := by
  simp [headings, List.mem_zipIdx_iff_getElem?]

theorem dropWhile_dropWhile {low high : ℕ} (h : low ≤ high) (rows : List (ℕ × ℕ)) :
    (rows.dropWhile (high ≤ ·.1)).dropWhile (low ≤ ·.1) = rows.dropWhile (low ≤ ·.1) := by
  induction rows with
  | nil => rfl
  | cons row rows ih =>
    by_cases hrow : high ≤ row.1
    · rw [List.dropWhile_cons_of_pos (by simpa using hrow), ih,
        List.dropWhile_cons_of_pos (by simpa using h.trans hrow)]
    · rw [List.dropWhile_cons_of_neg (by simpa using hrow)]

/-- A heading that is not open any more has one of no higher level after it. -/
theorem head_close_stack (headings : List (ℕ × ℕ)) (entry : Option ℕ) :
    (close (stack headings) entry).head? = nearest headings entry := by
  cases entry with
  | none => cases headings <;> rfl
  | some bound =>
    induction headings with
    | nil => rfl
    | cons row headings ih =>
      obtain ⟨level, place⟩ := row
      simp only [close, nearest, fits] at ih ⊢
      by_cases hlevel : bound ≤ level
      · rw [stack, List.dropWhile_cons_of_pos (by simpa using hlevel), close,
          dropWhile_dropWhile hlevel, ih, List.find?_cons_of_neg (by simpa using hlevel)]
      · rw [stack, List.dropWhile_cons_of_neg (by simpa using hlevel),
          List.find?_cons_of_pos (by simpa using hlevel)]
        rfl

theorem under_append (outline more : Outline) {place : ℕ} (h : place < outline.length) :
    under (outline ++ more) place = under outline place := by
  rw [under, under, List.getElem?_append_left h, List.take_append_of_le_length h.le]

theorem under_last (outline : Outline) (entry : Option ℕ) :
    under (outline ++ [entry]) outline.length =
      (nearest (headings outline) entry).map Prod.snd := by
  simp [under]

theorem siblingsBefore_append (outline more : Outline) {place : ℕ} (h : place < outline.length) :
    siblingsBefore (outline ++ more) place = siblingsBefore outline place := by
  rw [siblingsBefore, siblingsBefore]
  apply List.countP_congr
  intro earlier hearlier
  have hlt := List.mem_range.mp hearlier
  rw [under_append outline more h, under_append outline more (hlt.trans h)]

theorem siblingsBefore_last (outline : Outline) (entry : Option ℕ) :
    siblingsBefore (outline ++ [entry]) outline.length =
      children outline ((nearest (headings outline) entry).map Prod.snd) := by
  rw [siblingsBefore, children, under_last]
  apply List.countP_congr
  intro earlier hearlier
  rw [under_append outline [entry] (List.mem_range.mp hearlier)]

theorem children_append (outline : Outline) (entry : Option ℕ) (parent : Option ℕ) :
    children (outline ++ [entry]) parent = children outline parent +
      if (nearest (headings outline) entry).map Prod.snd = parent then 1 else 0 := by
  rw [children, children, List.length_append, List.length_singleton, List.range_succ,
    List.countP_append, List.countP_singleton, under_last]
  congr 1
  · apply List.countP_congr
    intro place hplace
    rw [under_append outline [entry] (List.mem_range.mp hplace)]
  · simp only [decide_eq_true_eq]

theorem under_lt {outline : Outline} {place parent : ℕ} (h : under outline place = some parent) :
    parent < place := by
  rw [under, Option.bind_eq_some_iff] at h
  obtain ⟨entry, _, h⟩ := h
  obtain ⟨row, hrow, rfl⟩ := Option.map_eq_some_iff.mp h
  have hmem : row ∈ headings (outline.take place) := List.mem_of_find?_eq_some hrow
  have hget := mem_headings.mp (show (row.1, row.2) ∈ _ from hmem)
  have hlt := List.getElem?_eq_some_iff.mp hget |>.1
  rw [List.length_take] at hlt
  omega

theorem getElem?_concat {outline : Outline} {last : Option ℕ} {place level : ℕ} :
    (outline ++ [last])[place]? = some (some level) ↔
      outline[place]? = some (some level) ∨ place = outline.length ∧ last = some level := by
  obtain h | rfl | h := lt_trichotomy place outline.length
  · rw [List.getElem?_append_left h]
    constructor
    · exact .inl
    · rintro (hget | ⟨rfl, _⟩)
      · exact hget
      · exact absurd h (Nat.lt_irrefl _)
  · simp
  · rw [List.getElem?_eq_none (by simpa [Nat.succ_le_iff] using h), List.getElem?_eq_none h.le]
    simp only [reduceCtorEq, false_or, false_iff, not_and]
    omega

theorem nearest_cons {row : ℕ × ℕ} {headings : List (ℕ × ℕ)} {entry : Option ℕ} :
    nearest (row :: headings) entry = if fits row.1 entry then some row else nearest headings entry := by
  rw [nearest, List.find?_cons]
  split <;> simp_all [nearest]

theorem nearest_eq_some {outline : Outline} {entry : Option ℕ} {level place : ℕ} :
    nearest (headings outline) entry = some (level, place) ↔
      outline[place]? = some (some level) ∧ fits level entry = true ∧
        ∀ later > place, ∀ other, outline[later]? = some (some other) → fits other entry = false := by
  induction outline using List.reverseRecOn with
  | nil => simp [nearest, headings]
  | append_singleton outline last ih =>
    simp only [headings_append, getElem?_concat]
    cases last with
    | none => simpa using ih
    | some head =>
      have hbound : ∀ {i l : ℕ}, outline[i]? = some (some l) → i < outline.length :=
        fun h => (List.getElem?_eq_some_iff.mp h).1
      rw [nearest_cons]
      split
      · rename_i hfits
        constructor
        · intro h
          obtain ⟨rfl, rfl⟩ := Prod.mk.inj (Option.some.inj h)
          refine ⟨.inr ⟨rfl, rfl⟩, hfits, fun later hlater other h => ?_⟩
          obtain h | ⟨rfl, _⟩ := h
          · exact absurd (hbound h) hlater.le.not_gt
          · exact absurd hlater (Nat.lt_irrefl _)
        · intro ⟨hplace, _, hlast⟩
          obtain hplace | ⟨rfl, hhead⟩ := hplace
          · have hfalse := hlast outline.length (hbound hplace) head (.inr ⟨rfl, rfl⟩)
            rw [hfits] at hfalse
            cases hfalse
          · rw [Option.some.inj hhead]
      · rename_i hfits
        rw [ih]
        constructor
        · intro ⟨hplace, hlevel, hlast⟩
          refine ⟨.inl hplace, hlevel, fun later hlater other h => ?_⟩
          obtain h | ⟨_, h⟩ := h
          · exact hlast later hlater other h
          · rw [← Option.some.inj h]
            simpa using hfits
        · intro ⟨hplace, hlevel, hlast⟩
          refine ⟨?_, hlevel, fun later hlater other h => hlast later hlater other (.inl h)⟩
          obtain hplace | ⟨_, hhead⟩ := hplace
          · exact hplace
          · rw [← Option.some.inj hhead] at hlevel
            exact absurd hlevel hfits

theorem fits_iff {level : ℕ} {entry : Option ℕ} :
    fits level entry = true ↔ ∀ bound, entry = some bound → level < bound := by
  cases entry <;> simp [fits]

theorem not_fits_iff {level : ℕ} {entry : Option ℕ} :
    fits level entry = false ↔ ∃ bound, entry = some bound ∧ bound ≤ level := by
  cases entry <;> simp [fits]

theorem under_eq_some {outline : Outline} {place parent : ℕ} (h : place < outline.length) :
    under outline place = some parent ↔ IsParent outline place parent := by
  have hentry : outline[place]? = some outline[place] := List.getElem?_eq_getElem h
  rw [under, hentry, Option.bind_some, Option.map_eq_some_iff]
  constructor
  · intro ⟨⟨level, row⟩, hrow, heq⟩
    obtain rfl : row = parent := heq
    obtain ⟨hget, hfits, hlast⟩ := nearest_eq_some.mp hrow
    have hlt := (List.getElem?_eq_some_iff.mp hget).1
    rw [List.length_take, Nat.lt_min] at hlt
    rw [List.getElem?_take_of_lt hlt.1] at hget
    refine ⟨hlt.1, ⟨level, hget, ?_⟩, fun between hgt hbelow other hother => ?_⟩
    · intro bound hbound
      rw [hentry, Option.some.injEq] at hbound
      exact fits_iff.mp hfits bound hbound
    · obtain ⟨bound, hbound, hle⟩ := not_fits_iff.mp
        (hlast between hgt other (by rwa [List.getElem?_take_of_lt hbelow]))
      exact ⟨bound, by rw [hentry, hbound], hle⟩
  · intro ⟨hlt, ⟨level, hget, hlevel⟩, hlast⟩
    refine ⟨(level, parent), nearest_eq_some.mpr ⟨?_, ?_, ?_⟩, rfl⟩
    · rwa [List.getElem?_take_of_lt hlt]
    · exact fits_iff.mpr fun bound hbound => hlevel bound (by rw [hentry, hbound])
    · intro later hgt other hother
      have hbelow := (List.getElem?_eq_some_iff.mp hother).1
      rw [List.length_take, Nat.lt_min] at hbelow
      rw [List.getElem?_take_of_lt hbelow.1] at hother
      obtain ⟨bound, hbound, hle⟩ := hlast later hgt hbelow.1 other hother
      rw [hentry, Option.some.injEq] at hbound
      exact not_fits_iff.mpr ⟨bound, hbound, hle⟩

theorem children_of_le {outline : Outline} {parent : ℕ} (h : outline.length ≤ parent) :
    children outline (some parent) = 0 := by
  rw [children, List.countP_eq_zero]
  intro place hplace hunder
  have hparent := under_lt (of_decide_eq_true hunder)
  have hlt := List.mem_range.mp hplace
  omega

theorem exists_numbered (outline : Outline) {parent : Option ℕ} {n : ℕ}
    (h : n < children outline parent) :
    ∃ place < outline.length, siblingsBefore outline place = n := by
  rw [children] at h
  obtain ⟨m, hm⟩ : ∃ m, m ≤ outline.length ∧
      n < (List.range m).countP (fun place => under outline place = parent) := ⟨_, le_rfl, h⟩
  clear h
  induction m with
  | zero => simp at hm
  | succ m ih =>
    by_cases hlt : n < (List.range m).countP (fun place => under outline place = parent)
    · exact ih ⟨by omega, hlt⟩
    · obtain ⟨hle, hm⟩ := hm
      rw [List.range_succ, List.countP_append, List.countP_singleton] at hm
      have hparent : under outline m = parent := by
        by_contra hne
        rw [if_neg (by simpa using hne)] at hm
        omega
      rw [if_pos (by simpa using hparent)] at hm
      refine ⟨m, hle, ?_⟩
      rw [siblingsBefore, hparent]
      omega

theorem siblingsBefore_lt_children {outline : Outline} {place : ℕ} (h : place < outline.length) :
    siblingsBefore outline place < children outline (under outline place) := by
  have hrange : List.range outline.length =
      List.range place ++ (List.range (outline.length - place)).map (place + ·) := by
    rw [← List.range_add]
    congr 1
    omega
  obtain ⟨n, hn⟩ : ∃ n, outline.length - place = n + 1 := ⟨outline.length - place - 1, by omega⟩
  rw [children, hrange, List.countP_append, siblingsBefore, hn, List.range_succ_eq_map]
  simp

end Outline

end Tracefold.Library
