import Mathlib.Tactic.Common
import Tracefold.Locator.Lexical

/-! The locators of the fs adapter: the representative spelling of one, which is where it leads. -/

namespace Tracefold.Fs

open Library Locator Locator.Lexical

/-- `SEPARATOR`. -/
def separator : Char := '/'

/-- `is_absolute`. -/
def isAbsolute (locator : Text) : Bool := locator.head? = some separator

/-- `normalize`; a relative locator that cancels itself out is spelled `.`. -/
def normalize (locator : Text) : Text :=
  let body := fold (isAbsolute locator) locator
  if isAbsolute locator then separator :: body
  else if body = [] then dot
  else body

/-- Lexical resolution: whether a locator starts at the root, and the way it goes from there. At the
root there is nowhere above to go. -/
structure Place where
  rooted : Bool
  way : Climb Text
  deriving DecidableEq, Repr

def resolve (locator : Text) : Place where
  rooted := isAbsolute locator
  way := ⟨if isAbsolute locator then 0 else (way locator).ups, (way locator).names⟩

/-- The one spelling of a place. -/
def Place.spelling (place : Place) : Text :=
  let body := ['/'].intercalate (Climb.spell dotDot place.rooted place.way)
  if place.rooted then separator :: body
  else if body = [] then dot
  else body

theorem normalize_eq (locator : Text) : normalize locator = (resolve locator).spelling := by
  have hbody : fold (isAbsolute locator) locator = ['/'].intercalate
      (Climb.spell dotDot (isAbsolute locator) (resolve locator).way) := by
    rw [fold, folded_eq, Climb.spell, Climb.spell, resolve]
    cases isAbsolute locator <;> rfl
  rw [normalize, hbody]
  rfl

theorem isAbsolute_normalize (locator : Text) :
    isAbsolute (normalize locator) = isAbsolute locator := by
  rw [normalize]
  cases habsolute : isAbsolute locator with
  | true => exact decide_eq_true rfl
  | false =>
    rw [if_neg Bool.false_ne_true]
    split
    next => rfl
    next => exact decide_eq_false (head_fold false locator)

theorem way_normalize (locator : Text) : way (normalize locator) = (resolve locator).way := by
  rw [normalize, resolve]
  cases habsolute : isAbsolute locator with
  | true =>
    dsimp only
    rw [if_pos rfl]
    exact (way_cons _).trans (way_fold true locator)
  | false =>
    dsimp only
    rw [if_neg Bool.false_ne_true]
    split
    next hnil =>
      have hfold := way_fold false locator
      rw [hnil] at hfold
      exact hfold
    next => exact way_fold false locator

theorem resolve_normalize (locator : Text) : resolve (normalize locator) = resolve locator := by
  have hway := way_normalize locator
  rw [resolve, isAbsolute_normalize, hway]
  rw [resolve]
  cases isAbsolute locator <;> rfl

theorem normalize_normalize (locator : Text) : normalize (normalize locator) = normalize locator := by
  rw [normalize_eq (normalize locator), resolve_normalize, ← normalize_eq]

/-- Two locators have one spelling when they lead to one place, and only then. -/
theorem normalize_inj {a b : Text} : normalize a = normalize b ↔ resolve a = resolve b := by
  refine ⟨fun h => ?_, fun h => ?_⟩
  · rw [← resolve_normalize a, h, resolve_normalize]
  · rw [normalize_eq, h, ← normalize_eq]

theorem normalize_ne_nil (locator : Text) : normalize locator ≠ [] := by
  rw [normalize]
  split
  · exact List.cons_ne_nil _ _
  · split
    next => decide
    next h => exact h

theorem isAbsolute_append {a : Text} (ha : a ≠ []) (b : Text) :
    isAbsolute (a ++ b) = isAbsolute a := by
  rw [isAbsolute, isAbsolute, List.head?_append_of_ne_nil a ha]

theorem resolve_append {a a' : Text} (ha : a ≠ []) (ha' : a' ≠ []) (h : resolve a = resolve a')
    (b : Text) : resolve (a ++ separator :: b) = resolve (a' ++ separator :: b) := by
  have hrooted : isAbsolute a = isAbsolute a' := congrArg Place.rooted h
  have hway : (resolve a).way = (resolve a').way := congrArg Place.way h
  have hnames : (way a).names = (way a').names :=
    congrArg (fun place : Place => place.way.names) h
  rw [resolve, resolve] at hway
  rw [resolve, resolve, isAbsolute_append ha, isAbsolute_append ha', ← hrooted, separator,
    way_append, way_append, Climb.names_mul, Climb.names_mul, Climb.ups_mul, Climb.ups_mul, hnames]
  cases hcase : isAbsolute a with
  | true => rfl
  | false =>
    rw [hrooted] at hcase
    rw [hrooted, hcase] at hway
    rw [show (way a).ups = (way a').ups from congrArg Climb.ups hway]

/-- Normalisation is lexical resolution: it keeps what a locator starts from, does nothing a second
time, leaves only names behind the climb a relative locator begins with, tells two locators apart
exactly when they lead to two places, and goes on as the locator does. -/
theorem normalize_resolves (l : Text) :
    isAbsolute (normalize l) = isAbsolute l ∧ normalize (normalize l) = normalize l ∧
      (isAbsolute l = true → ∃ names : List Text, (∀ name ∈ names, Proper name) ∧
        normalize l = separator :: ['/'].intercalate names) ∧
      (isAbsolute l = false → ∃ (ups : ℕ) (names : List Text), (∀ name ∈ names, Proper name) ∧
        normalize l = if ups = 0 ∧ names = [] then dot
          else ['/'].intercalate (List.replicate ups dotDot ++ names)) ∧
      (∀ l', normalize l = normalize l' ↔
        isAbsolute l = isAbsolute l' ∧ (resolve l).way = (resolve l').way) ∧
      (l ≠ [] → ∀ b, normalize (normalize l ++ separator :: b) = normalize (l ++ separator :: b)) := by
  refine ⟨isAbsolute_normalize l, normalize_normalize l, fun habsolute => ?_, fun hrelative => ?_,
    fun l' => ?_, fun hl b => ?_⟩
  · refine ⟨(way l).names, fun name hname => proper_way hname, ?_⟩
    rw [normalize, habsolute]
    rw [if_pos rfl, fold, folded_eq]
    rfl
  · refine ⟨(way l).ups, (way l).names, fun name hname => proper_way hname, ?_⟩
    have hempty : fold false l = [] ↔ (way l).ups = 0 ∧ (way l).names = [] := by
      rw [fold_eq_nil, folded_eq, Climb.spell, if_neg Bool.false_ne_true, List.append_eq_nil_iff,
        List.replicate_eq_nil_iff]
    rw [normalize, hrelative]
    rw [if_neg Bool.false_ne_true]
    simp only [hempty]
    split
    next => rfl
    next =>
      rw [fold, folded_eq]
      rfl
  · rw [normalize_inj]
    refine ⟨fun h => ⟨congrArg Place.rooted h, congrArg Place.way h⟩, fun h => ?_⟩
    cases hl : resolve l
    cases hl' : resolve l'
    obtain ⟨hrooted, hway⟩ : (resolve l).rooted = (resolve l').rooted ∧ _ := h
    rw [hl, hl'] at hrooted hway
    exact congrArg₂ Place.mk hrooted hway
  · rw [normalize_inj]
    exact resolve_append (normalize_ne_nil l) hl (resolve_normalize l) b

example : normalize "/etc/../../etc/./passwd".toList = "/etc/passwd".toList := by decide

end Tracefold.Fs
