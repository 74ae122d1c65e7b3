import Mathlib.Tactic.Common
import Mathlib.Data.List.Infix
import Mathlib.Data.Multiset.Basic

/-! Splitting a list at the first or the last place of a separator. -/

namespace Tracefold.Library.Text

set_option autoImplicit true

variable [DecidableEq α]

/-- A list cut at the first place of a separator. -/
def splitOnce (sep : α) : List α → Option (List α × List α)
  | [] => none
  | c :: rest =>
    if c = sep then some ([], rest)
    else (splitOnce sep rest).map fun (before, after) => (c :: before, after)

/-- A list cut at the last place of a separator. -/
def rsplitOnce (sep : α) (text : List α) : Option (List α × List α) :=
  (splitOnce sep text.reverse).map fun (after, before) => (before.reverse, after.reverse)

/-- A list cut at the first place of a separator of several characters. -/
def splitInfix (sep : List α) : List α → Option (List α × List α)
  | [] => none
  | c :: rest =>
    if sep.isPrefixOf (c :: rest) then some ([], (c :: rest).drop sep.length)
    else (splitInfix sep rest).map fun (before, after) => (c :: before, after)

theorem splitOnce_append {sep : α} {a b : List α} (h : sep ∉ a) :
    splitOnce sep (a ++ sep :: b) = some (a, b) := by
  induction a with
  | nil => rw [List.nil_append, splitOnce, if_pos rfl]
  | cons c a ih =>
    rw [List.mem_cons, not_or] at h
    rw [List.cons_append, splitOnce, if_neg (Ne.symm h.1), ih h.2]
    rfl

theorem splitOnce_eq_none {sep : α} {text : List α} :
    splitOnce sep text = none ↔ sep ∉ text := by
  induction text with
  | nil => simp [splitOnce]
  | cons c rest ih =>
    rw [splitOnce]
    split
    next h => simp [h]
    next h => rw [Option.map_eq_none_iff, ih, List.mem_cons, not_or, and_iff_right (Ne.symm h)]

theorem splitOnce_eq_some {sep : α} {text a b : List α} (h : splitOnce sep text = some (a, b)) :
    text = a ++ sep :: b ∧ sep ∉ a := by
  induction text generalizing a with
  | nil => cases h
  | cons c rest ih =>
    rw [splitOnce] at h
    split at h
    next hc =>
      cases h
      exact ⟨by rw [hc, List.nil_append], List.not_mem_nil⟩
    next hc =>
      obtain ⟨⟨before, after⟩, hrest, heq⟩ := Option.map_eq_some_iff.mp h
      cases heq
      obtain ⟨rfl, hnot⟩ := ih hrest
      refine ⟨rfl, ?_⟩
      rw [List.mem_cons, not_or]
      exact ⟨Ne.symm hc, hnot⟩

theorem rsplitOnce_append {sep : α} {a b : List α} (h : sep ∉ b) :
    rsplitOnce sep (a ++ sep :: b) = some (a, b) := by
  have hreverse : (a ++ sep :: b).reverse = b.reverse ++ sep :: a.reverse := by simp
  rw [rsplitOnce, hreverse, splitOnce_append (by rwa [List.mem_reverse])]
  simp

theorem rsplitOnce_eq_none {sep : α} {text : List α} :
    rsplitOnce sep text = none ↔ sep ∉ text := by
  rw [rsplitOnce, Option.map_eq_none_iff, splitOnce_eq_none, List.mem_reverse]

theorem rsplitOnce_eq_some {sep : α} {text a b : List α} (h : rsplitOnce sep text = some (a, b)) :
    text = a ++ sep :: b ∧ sep ∉ b := by
  obtain ⟨⟨after, before⟩, hsplit, heq⟩ := Option.map_eq_some_iff.mp h
  cases heq
  obtain ⟨hreverse, hnot⟩ := splitOnce_eq_some hsplit
  refine ⟨?_, by rwa [List.mem_reverse]⟩
  rw [← text.reverse_reverse, hreverse]
  simp

theorem splitInfix_eq_none {sep text : List α} (hsep : sep ≠ []) :
    splitInfix sep text = none ↔ ¬ sep <:+: text := by
  induction text with
  | nil => simp [splitInfix, hsep]
  | cons c rest ih =>
    rw [splitInfix, List.infix_cons_iff, not_or, ← ih, ← List.isPrefixOf_iff_prefix]
    split
    next h => simp [h]
    next h => simp [h]

/-- No place of the separator begins before the end of the list it is put behind. -/
def First (sep a : List α) : Prop := ∀ i < a.length, ¬ sep <+: (a ++ sep).drop i

omit [DecidableEq α] in
theorem prefix_drop_append {sep a b : List α} {i : ℕ} (hi : i ≤ a.length) :
    sep <+: (a ++ sep ++ b).drop i ↔ sep <+: (a ++ sep).drop i := by
  rw [List.drop_append_of_le_length (by rw [List.length_append]; omega)]
  refine ⟨fun h => ?_, fun h => h.trans (List.prefix_append ..)⟩
  refine List.prefix_of_prefix_length_le h (List.prefix_append ..) ?_
  rw [List.length_drop, List.length_append]
  omega

theorem splitInfix_append {sep a b : List α} (hsep : sep ≠ []) (h : First sep a) :
    splitInfix sep (a ++ sep ++ b) = some (a, b) := by
  induction a with
  | nil =>
    obtain ⟨c, rest, rfl⟩ := List.exists_cons_of_ne_nil hsep
    have hprefix : (c :: rest).isPrefixOf (c :: (rest ++ b)) = true :=
      List.isPrefixOf_iff_prefix.mpr (List.prefix_append (c :: rest) b)
    rw [List.nil_append, List.cons_append, splitInfix, if_pos hprefix]
    simp
  | cons c a ih =>
    have hfirst : First sep a := by
      intro i hi
      exact h (i + 1) (by rw [List.length_cons]; omega)
    have hnot : ¬ sep.isPrefixOf (c :: (a ++ sep ++ b)) = true := by
      rw [List.isPrefixOf_iff_prefix]
      intro hprefix
      exact h 0 (by simp) ((prefix_drop_append (Nat.zero_le _)).mp hprefix)
    rw [List.cons_append, List.cons_append, splitInfix, if_neg hnot, ih hfirst]
    rfl

theorem splitInfix_eq_some {sep text a b : List α} (h : splitInfix sep text = some (a, b)) :
    text = a ++ sep ++ b ∧ First sep a := by
  induction text generalizing a with
  | nil => cases h
  | cons c rest ih =>
    rw [splitInfix] at h
    split at h
    next hprefix =>
      cases h
      obtain ⟨after, hafter⟩ := List.isPrefixOf_iff_prefix.mp hprefix
      refine ⟨?_, fun i hi => absurd hi (Nat.not_lt_zero i)⟩
      rw [← hafter, List.drop_left, List.nil_append]
    next hprefix =>
      obtain ⟨⟨before, after⟩, hrest, heq⟩ := Option.map_eq_some_iff.mp h
      cases heq
      obtain ⟨rfl, hfirst⟩ := ih hrest
      refine ⟨rfl, fun i hi => ?_⟩
      cases i with
      | zero =>
        rw [List.isPrefixOf_iff_prefix] at hprefix
        intro hzero
        refine hprefix (hzero.trans ?_)
        exact ⟨b, rfl⟩
      | succ i => exact hfirst i (by simpa using hi)

omit [DecidableEq α] in
theorem First.map {sep a : List α} {f : α → α} (h : First sep a)
    (hf : ∀ x ∈ sep, ∀ y, f y = x ↔ y = x) : First sep (a.map f) := by
  have hkeeps : sep.map f = sep := by
    refine (List.map_congr_left fun x hx => ?_).trans (List.map_id _)
    exact (hf x hx x).mpr rfl
  have hprefix : ∀ {sep' l : List α}, (∀ x ∈ sep', ∀ y, f y = x ↔ y = x) →
      sep' <+: l.map f → sep' <+: l := by
    intro sep' l hf'
    induction sep' generalizing l with
    | nil => exact fun _ => List.nil_prefix
    | cons x sep' ih =>
      cases l with
      | nil => exact fun hl => absurd hl (by simp)
      | cons y l =>
        rw [List.map_cons, List.cons_prefix_cons, List.cons_prefix_cons]
        rintro ⟨hx, hrest⟩
        exact ⟨((hf' x List.mem_cons_self y).mp hx.symm).symm,
          ih (fun z hz => hf' z (List.mem_cons_of_mem _ hz)) hrest⟩
  intro i hi hp
  rw [List.length_map] at hi
  refine h i hi ( hprefix hf ?_)
  rwa [List.map_drop, List.map_append, hkeeps]

omit [DecidableEq α] in
theorem span_append {p : α → Bool} {a b : List α} (ha : ∀ x ∈ a, p x = true)
    (hb : ∀ x, b.head? = some x → p x = false) :
    (a ++ b).takeWhile p = a ∧ (a ++ b).dropWhile p = b := by
  have hb' : b.takeWhile p = [] ∧ b.dropWhile p = b := by
    cases b with
    | nil => exact ⟨rfl, rfl⟩
    | cons x b =>
      have hx := hb x rfl
      exact ⟨List.takeWhile_cons_of_neg (by rw [hx]; nofun),
        List.dropWhile_cons_of_neg (by rw [hx]; nofun)⟩
  refine ⟨?_, ?_⟩
  · rw [List.takeWhile_append_of_pos ha, hb'.1, List.append_nil]
  · rw [List.dropWhile_append_of_pos ha, hb'.2]

omit [DecidableEq α] in
theorem head_dropWhile {p : α → Bool} {text : List α} {x : α}
    (h : (text.dropWhile p).head? = some x) : p x = false := by
  have hnot := List.head?_dropWhile_not p text
  rw [h] at hnot
  exact hnot

omit [DecidableEq α] in
theorem concat_eq_append_cons {a b c : List α} {x y : α} (h : a ++ [x] = b ++ y :: c) :
    (c = [] ∧ x = y ∧ a = b) ∨ ∃ c', c = c' ++ [x] ∧ a = b ++ y :: c' := by
  rcases List.eq_nil_or_concat c with rfl | ⟨c', z, rfl⟩
  · obtain ⟨rfl, hlast⟩ := List.append_inj' h rfl
    exact .inl ⟨rfl, (List.cons.inj hlast).1, rfl⟩
  · rw [List.concat_eq_append, ← List.cons_append, ← List.append_assoc] at h
    obtain ⟨rfl, hlast⟩ := List.append_inj' h rfl
    rw [(List.cons.inj hlast).1, List.concat_eq_append]
    exact .inr ⟨c', rfl, rfl⟩

theorem mem_piece {sep x : α} {text piece : List α} (h : piece ∈ text.splitOn sep)
    (hx : x ∈ piece) : x ∈ text ∧ x ≠ sep := by
  induction text generalizing piece with
  | nil =>
    rw [List.splitOn_nil, List.mem_singleton] at h
    rw [h] at hx
    cases hx
  | cons c rest ih =>
    have hrest : ∀ {piece'}, piece' ∈ rest.splitOn sep → x ∈ piece' → x ∈ c :: rest ∧ x ≠ sep :=
      fun h hx => ⟨List.mem_cons_of_mem _ (ih h hx).1, (ih h hx).2⟩
    rw [List.splitOn_cons_eq_if_modifyHead] at h
    split at h
    next =>
      rcases List.mem_cons.mp h with rfl | h
      · cases hx
      · exact hrest h hx
    next hc =>
      obtain ⟨first, others, hpieces⟩ := List.exists_cons_of_ne_nil (List.splitOn_ne_nil sep rest)
      rw [hpieces] at h hrest
      rcases List.mem_cons.mp h with rfl | h
      · rcases List.mem_cons.mp hx with rfl | hx
        · exact ⟨List.mem_cons_self, fun heq => hc (beq_iff_eq.mpr heq)⟩
        · exact hrest List.mem_cons_self hx
      · exact hrest (List.mem_cons_of_mem _ h) hx

omit [DecidableEq α] in
theorem not_of_mem_piece {p : α → Bool} {x : α} {text piece : List α} (h : piece ∈ text.splitOnP p)
    (hx : x ∈ piece) : p x = false := by
  induction text generalizing piece with
  | nil =>
    rw [List.splitOnP_nil, List.mem_singleton] at h
    rw [h] at hx
    cases hx
  | cons c rest ih =>
    rw [List.splitOnP_cons_eq_if_modifyHead] at h
    split at h
    next =>
      rcases List.mem_cons.mp h with rfl | h
      · cases hx
      · exact ih h hx
    next hc =>
      obtain ⟨first, others, hpieces⟩ := List.exists_cons_of_ne_nil (List.splitOnP_ne_nil p rest)
      rw [hpieces] at h ih
      rcases List.mem_cons.mp h with rfl | h
      · rcases List.mem_cons.mp hx with rfl | hx
        · exact Bool.eq_false_iff.mpr hc
        · exact ih List.mem_cons_self hx
      · exact ih (List.mem_cons_of_mem _ h) hx

theorem flatMap_concat_injective {stop : α} {pieces pieces' : List (List α)}
    (h : ∀ piece ∈ pieces, stop ∉ piece) (h' : ∀ piece ∈ pieces', stop ∉ piece)
    (heq : pieces.flatMap (· ++ [stop]) = pieces'.flatMap (· ++ [stop])) : pieces = pieces' := by
  have hcons : ∀ (piece : List α) (pieces : List (List α)),
      (piece :: pieces).flatMap (· ++ [stop]) = piece ++ stop :: pieces.flatMap (· ++ [stop]) := by
    intro piece pieces
    rw [List.flatMap_cons, List.append_assoc]
    rfl
  induction pieces generalizing pieces' with
  | nil =>
    cases pieces' with
    | nil => rfl
    | cons piece pieces' =>
      rw [hcons] at heq
      exact absurd heq.symm (List.append_ne_nil_of_right_ne_nil _ (List.cons_ne_nil _ _))
  | cons piece pieces ih =>
    cases pieces' with
    | nil =>
      rw [hcons] at heq
      exact absurd heq (List.append_ne_nil_of_right_ne_nil _ (List.cons_ne_nil _ _))
    | cons piece' pieces' =>
      rw [hcons, hcons] at heq
      have hcut := congrArg (splitOnce stop) heq
      rw [splitOnce_append (h piece List.mem_cons_self),
        splitOnce_append (h' piece' List.mem_cons_self)] at hcut
      obtain ⟨rfl, hrest⟩ := Prod.mk.inj (Option.some.inj hcut)
      rw [ih (fun p hp => h p (List.mem_cons_of_mem _ hp))
        (fun p hp => h' p (List.mem_cons_of_mem _ hp)) hrest]

section Join

omit [DecidableEq α]

variable {sep x : α} {pieces : List (List α)}

theorem intercalate_concat (h : pieces ≠ []) (piece : List α) :
    [sep].intercalate (pieces ++ [piece]) = [sep].intercalate pieces ++ sep :: piece := by
  induction pieces with
  | nil => exact absurd rfl h
  | cons first pieces ih =>
    cases pieces with
    | nil => simp [List.intercalate_cons_cons]
    | cons second pieces =>
      have hne : second :: pieces ≠ [] := List.cons_ne_nil _ _
      have hne' : second :: pieces ++ [piece] ≠ [] := List.cons_ne_nil _ _
      rw [List.cons_append, List.intercalate_cons_of_ne_nil hne', ih hne,
        List.intercalate_cons_of_ne_nil hne, List.append_assoc, List.append_assoc,
        List.append_assoc]

theorem mem_intercalate (h : x ∈ [sep].intercalate pieces) :
    x = sep ∨ ∃ piece ∈ pieces, x ∈ piece := by
  induction pieces with
  | nil => cases h
  | cons first pieces ih =>
    cases pieces with
    | nil =>
      rw [List.intercalate_singleton] at h
      exact .inr ⟨first, List.mem_cons_self, h⟩
    | cons second pieces =>
      rw [List.intercalate_cons_cons, List.mem_append, List.mem_append, List.mem_singleton] at h
      rcases h with (h | h) | h
      · exact .inr ⟨first, List.mem_cons_self, h⟩
      · exact .inl h
      · obtain hsep | ⟨piece, hpiece, hmem⟩ := ih h
        · exact .inl hsep
        · exact .inr ⟨piece, List.mem_cons_of_mem _ hpiece, hmem⟩

theorem suffix_of_splitOn [DecidableEq α] {text last : List α}
    (h : (text.splitOn sep).getLast? = some last) : last <:+ text := by
  obtain ⟨before, hpieces⟩ := List.getLast?_eq_some_iff.mp h
  have htext : [sep].intercalate (text.splitOn sep) = text := List.intercalate_splitOn sep
  rw [← htext, hpieces]
  cases before with
  | nil => rw [List.nil_append, List.intercalate_singleton]
  | cons first before =>
    rw [intercalate_concat (List.cons_ne_nil _ _)]
    exact (List.suffix_cons sep last).trans (List.suffix_append _ _)

theorem splitOn_concat [DecidableEq α] {c : α} (hc : c ≠ sep) (text : List α) :
    ∃ before x, (text ++ [c]).splitOn sep = before ++ [x ++ [c]] := by
  induction text with
  | nil =>
    refine ⟨[], [], List.splitOn_eq_singleton ?_⟩
    rw [List.nil_append, List.mem_singleton]
    exact hc.symm
  | cons d text ih =>
    obtain ⟨before, x, hpieces⟩ := ih
    rw [List.cons_append, List.splitOn_cons_eq_if_modifyHead, hpieces]
    split
    next => exact ⟨[] :: before, x, rfl⟩
    next =>
      cases before with
      | nil => exact ⟨[], d :: x, rfl⟩
      | cons first before => exact ⟨(d :: first) :: before, x, rfl⟩

/-- Where two separators stand side by side in a text behind another character, an empty piece
stands between others. -/
theorem pieces_of_infix [DecidableEq α] {c : α} (hc : c ≠ sep)
    (hpieces : ∀ piece ∈ pieces, sep ∉ piece) (h : [c, sep, sep] <:+: [sep].intercalate pieces) :
    ∃ before x after, pieces = before ++ (x ++ [c]) :: [] :: after ∧ after ≠ [] := by
  obtain ⟨a, b, hab⟩ := h
  have hne : pieces ≠ [] := by
    rintro rfl
    simp at hab
  have htext : a ++ [c, sep, sep] ++ b = a ++ [c] ++ sep :: ([] ++ sep :: b) := by simp
  obtain ⟨before, x, hfirst⟩ := splitOn_concat hc a
  refine ⟨before, x, b.splitOn sep, ?_, List.splitOn_ne_nil sep b⟩
  rw [← List.splitOn_intercalate sep hpieces hne, ← hab, htext, List.splitOn_append_cons_self,
    List.splitOn_append_cons_self, hfirst, List.splitOn_nil]
  simp

end Join

omit [DecidableEq α] in
theorem infix_of_append {sep a b : List α} {c : α} (hc : c ∉ sep) (h : sep <:+: a ++ c :: b) :
    sep <:+: a ∨ sep <:+: b := by
  obtain ⟨before, after, h⟩ := h
  rw [List.append_assoc] at h
  rcases List.append_eq_append_iff.mp h with ⟨rest, rfl, hrest⟩ | ⟨rest, rfl, hrest⟩
  · rcases List.append_eq_append_iff.mp hrest with ⟨rest', rfl, hrest'⟩ | ⟨rest', rfl, hrest'⟩
    · exact .inl ⟨before, rest', by simp⟩
    · cases rest' with
      | nil => exact .inl ⟨before, [], by simp⟩
      | cons x rest' =>
        obtain ⟨rfl, _⟩ := List.cons.inj hrest'
        exact absurd (List.mem_append_right _ List.mem_cons_self) hc
  · cases rest with
    | nil =>
      rw [List.nil_append] at hrest
      cases sep with
      | nil => exact .inl List.nil_infix
      | cons x sep =>
        obtain ⟨rfl, _⟩ := List.cons.inj hrest
        exact absurd List.mem_cons_self hc
    | cons x rest =>
      obtain ⟨_, rfl⟩ := List.cons.inj hrest
      exact .inr ⟨rest, after, by simp⟩

section Weld

/-- Pieces put behind pieces, the first of these behind the last of those. -/
def weld : List (List α) → List (List α) → List (List α)
  | [], pieces => pieces
  | [last], pieces => pieces.modifyHead (last ++ ·)
  | piece :: next :: rest, pieces => piece :: weld (next :: rest) pieces

omit [DecidableEq α] in
theorem weld_cons {piece : List α} {rest : List (List α)} (h : rest ≠ []) (pieces : List (List α)) :
    weld (piece :: rest) pieces = piece :: weld rest pieces := by
  cases rest with
  | nil => exact absurd rfl h
  | cons next rest => rfl

theorem splitOn_append (sep : α) (a b : List α) :
    (a ++ b).splitOn sep = weld (a.splitOn sep) (b.splitOn sep) := by
  induction a with
  | nil =>
    rw [List.nil_append, List.splitOn_nil, weld]
    cases b.splitOn sep <;> rfl
  | cons c a ih =>
    rw [List.cons_append, List.splitOn_cons_eq_if_modifyHead, List.splitOn_cons_eq_if_modifyHead, ih]
    have hne := List.splitOn_ne_nil sep a
    split
    next => rw [weld_cons hne]
    next =>
      cases hpieces : a.splitOn sep with
      | nil => exact absurd hpieces hne
      | cons piece rest =>
        cases rest with
        | nil =>
          rw [List.modifyHead_cons, weld, weld]
          cases b.splitOn sep <;> rfl
        | cons next rest => rfl

omit [DecidableEq α] in
theorem weld_ne_nil {next : List (List α)} (h : next ≠ []) (pieces : List (List α)) :
    weld pieces next ≠ [] := by
  cases pieces with
  | nil => exact h
  | cons piece rest =>
    cases rest with
    | nil =>
      obtain ⟨first, next, rfl⟩ := List.exists_cons_of_ne_nil h
      exact List.cons_ne_nil _ _
    | cons => exact List.cons_ne_nil _ _

omit [DecidableEq α] in
theorem map_weld {f : List α → List α} {pieces : List (List α)} (hpieces : pieces ≠ [])
    (h : ∀ last ∈ pieces.getLast?, ∀ piece, f (last ++ piece) = f last ++ f piece)
    (next : List (List α)) : (weld pieces next).map f = weld (pieces.map f) (next.map f) := by
  induction pieces with
  | nil => exact absurd rfl hpieces
  | cons piece rest ih =>
    cases rest with
    | nil =>
      have hpiece := h piece rfl
      cases next with
      | nil => rfl
      | cons first next =>
        rw [weld, List.modifyHead_cons, List.map_cons, hpiece]
        rfl
    | cons piece' rest =>
      rw [weld, List.map_cons, ih (List.cons_ne_nil _ _)]
      · rfl
      · rwa [List.getLast?_cons_cons] at h

theorem mapM_cons_eq {f : γ → Option δ} (c : γ) (rest : List γ) :
    (c :: rest).mapM f = (f c).bind fun d => (rest.mapM f).map (d :: ·) := by
  rw [List.mapM_cons]
  cases f c <;> cases rest.mapM f <;> rfl

/-- What a function gives for each of some things does not depend on their order. -/
theorem mapM_perm {f : γ → Option δ} {cs cs' : List γ} (h : cs.Perm cs') :
    (cs.mapM f).map Multiset.ofList = (cs'.mapM f).map Multiset.ofList := by
  induction h with
  | nil => rfl
  | cons c _ ih =>
    rw [mapM_cons_eq, mapM_cons_eq]
    cases f c with
    | none => rfl
    | some d =>
      have hcons := congrArg (Option.map (Multiset.cons d)) ih
      rw [Option.map_map, Option.map_map] at hcons
      rw [Option.bind_some, Option.bind_some, Option.map_map, Option.map_map]
      exact hcons
  | swap c c' rest =>
    simp only [mapM_cons_eq]
    cases f c <;> cases f c' <;> cases rest.mapM f <;> try rfl
    exact congrArg some (Multiset.coe_eq_coe.mpr (.swap _ _ _))
  | trans _ _ ih ih' => exact ih.trans ih'

omit [DecidableEq α] in
theorem mapM_weld {f : List α → Option (List β)}
    (h : ∀ a b, f (a ++ b) = (f a).bind fun x => (f b).map (x ++ ·))
    (pieces : List (List α)) {next : List (List α)} (hnext : next ≠ []) :
    (weld pieces next).mapM f = (pieces.mapM f).bind fun a => (next.mapM f).map (weld a) := by
  induction pieces with
  | nil =>
    rw [weld, List.mapM_nil]
    exact Option.map_id'.symm
  | cons piece rest ih =>
    cases rest with
    | nil =>
      obtain ⟨first, next, rfl⟩ := List.exists_cons_of_ne_nil hnext
      rw [weld, List.modifyHead_cons, mapM_cons_eq, mapM_cons_eq, mapM_cons_eq, h, List.mapM_nil]
      cases f piece <;> cases f first <;> cases next.mapM f <;> rfl
    | cons piece' rest =>
      rw [weld, mapM_cons_eq piece, ih, mapM_cons_eq piece, mapM_cons_eq piece']
      cases f piece <;> cases f piece' <;> cases rest.mapM f <;> cases next.mapM f <;> rfl

end Weld

end Tracefold.Library.Text
