import Mathlib.Tactic.Common
import Tracefold.Library.Climb
import Tracefold.Locator

/-! The folding of dot segments that the fs and the git locators share: no separator is repeated,
and a `..` takes back the segment before it. -/

namespace Tracefold.Locator.Lexical

open Library Library.Text Library.Pile

/-- What the loop over the segments of a locator does with one. -/
def fateOf (segment : Text) : Fate :=
  if segment = [] ∨ segment = dot then .skip else if segment = dotDot then .pop else .keep

/-- The segments the loop leaves. -/
def folded (rooted : Bool) (text : Text) : List Text :=
  (text.splitOn '/').foldl (Climb.push fateOf dotDot rooted) []

/-- The segments joined again. -/
def fold (rooted : Bool) (text : Text) : Text := ['/'].intercalate (folded rooted text)

/-- Where a text leads. -/
def way (text : Text) : Climb Text := Climb.walk fateOf (text.splitOn '/')

/-- A segment that stays as it is. -/
structure Proper (segment : Text) : Prop where
  nonempty : segment ≠ []
  noDot : segment ≠ dot
  noDotDot : segment ≠ dotDot
  noSeparator : '/' ∉ segment

theorem fateOf_dotDot : fateOf dotDot = .pop := by decide

theorem fateOf_nil : fateOf [] = .skip := by decide

theorem fateOf_eq_keep {segment : Text} (h : fateOf segment = .keep) :
    segment ≠ [] ∧ segment ≠ dot ∧ segment ≠ dotDot := by
  rw [fateOf] at h
  split at h
  · cases h
  next hskip =>
    split at h
    · cases h
    next hpop => exact ⟨fun h => hskip (.inl h), fun h => hskip (.inr h), hpop⟩

theorem Proper.keep {segment : Text} (h : Proper segment) : fateOf segment = .keep := by
  rw [fateOf, if_neg (not_or.mpr ⟨h.nonempty, h.noDot⟩), if_neg h.noDotDot]

theorem proper_way {text segment : Text} (h : segment ∈ (way text).names) : Proper segment := by
  obtain ⟨hmem, hkeep⟩ := Climb.mem_walk h
  obtain ⟨hnil, hdot, hdotDot⟩ := fateOf_eq_keep hkeep
  exact ⟨hnil, hdot, hdotDot, fun hsep => (mem_piece hmem hsep).2 rfl⟩

theorem folded_eq (rooted : Bool) (text : Text) :
    folded rooted text = Climb.spell dotDot rooted (way text) :=
  Climb.foldl_push fateOf_dotDot _

theorem mem_folded {rooted : Bool} {text segment : Text} (h : segment ∈ folded rooted text) :
    segment = dotDot ∨ Proper segment := by
  rw [folded_eq, Climb.spell, List.mem_append] at h
  rcases h with h | h
  · split at h
    · cases h
    · exact .inl (List.eq_of_mem_replicate h)
  · exact .inr (proper_way h)

theorem not_mem_folded {rooted : Bool} {text segment : Text} (h : segment ∈ folded rooted text) :
    segment ≠ [] ∧ '/' ∉ segment := by
  rcases mem_folded h with rfl | h
  · decide
  · exact ⟨h.nonempty, h.noSeparator⟩

theorem way_intercalate {pieces : List Text} (h : ∀ piece ∈ pieces, '/' ∉ piece) :
    way (['/'].intercalate pieces) = Climb.walk fateOf pieces := by
  cases pieces with
  | nil => exact Climb.walk_skip fateOf_nil
  | cons piece pieces =>
    rw [way, List.splitOn_intercalate '/' h (List.cons_ne_nil _ _)]

theorem way_fold (rooted : Bool) (text : Text) :
    way (fold rooted text) = ⟨if rooted then 0 else (way text).ups, (way text).names⟩ := by
  rw [fold, way_intercalate fun piece hpiece => (not_mem_folded hpiece).2, folded_eq]
  exact Climb.walk_spell fateOf_dotDot fun x hx => (proper_way hx).keep

theorem way_append (a b : Text) : way (a ++ '/' :: b) = way a * way b := by
  rw [way, List.splitOn_append_cons_self, Climb.walk_append]
  rfl

theorem way_cons (text : Text) : way ('/' :: text) = way text := by
  rw [← List.nil_append ('/' :: text), way_append]
  exact one_mul (way text)

theorem folded_fold (rooted : Bool) (text : Text) :
    folded rooted (fold rooted text) = folded rooted text := by
  rw [folded_eq, way_fold, folded_eq]
  cases rooted <;> rfl

theorem fold_fold (rooted : Bool) (text : Text) : fold rooted (fold rooted text) = fold rooted text :=
  congrArg ['/'].intercalate (folded_fold rooted text)

theorem fold_eq_nil {rooted : Bool} {text : Text} :
    fold rooted text = [] ↔ folded rooted text = [] := by
  refine ⟨fun h => ?_, fun h => by rw [fold, h]; rfl⟩
  cases hfolded : folded rooted text with
  | nil => rfl
  | cons piece pieces =>
    obtain ⟨hnil, -⟩ := not_mem_folded (hfolded ▸ List.mem_cons_self : piece ∈ folded rooted text)
    rw [fold, hfolded] at h
    cases pieces with
    | nil =>
      rw [List.intercalate_singleton] at h
      exact absurd h hnil
    | cons next pieces =>
      rw [List.intercalate_cons_cons] at h
      simp [hnil] at h

theorem head_fold (rooted : Bool) (text : Text) : (fold rooted text).head? ≠ some '/' := by
  cases hfolded : folded rooted text with
  | nil =>
    rw [fold_eq_nil.mpr hfolded]
    nofun
  | cons piece pieces =>
    obtain ⟨hnil, hsep⟩ := not_mem_folded (hfolded ▸ List.mem_cons_self : piece ∈ folded rooted text)
    cases piece with
    | nil => exact absurd rfl hnil
    | cons c piece =>
      have hhead : (fold rooted text).head? = some c := by
        rw [fold, hfolded]
        cases pieces with
        | nil => rfl
        | cons next pieces =>
          rw [List.intercalate_cons_cons]
          rfl
      rw [hhead]
      intro heq
      exact hsep (Option.some.inj heq ▸ List.mem_cons_self)

theorem mem_fold {rooted : Bool} {text : Text} {c : Char} (h : c ∈ fold rooted text) :
    c = '/' ∨ c = '.' ∨ c ∈ text := by
  rcases mem_intercalate h with hsep | ⟨segment, hsegment, hmem⟩
  · exact .inl hsep
  · rw [folded_eq, Climb.spell, List.mem_append] at hsegment
    rcases hsegment with hsegment | hsegment
    · split at hsegment
      · cases hsegment
      · rw [List.eq_of_mem_replicate hsegment] at hmem
        exact .inr (.inl (by simpa [dotDot] using hmem))
    · exact .inr (.inr (mem_piece (Climb.mem_walk hsegment).1 hmem).1)

end Tracefold.Locator.Lexical
