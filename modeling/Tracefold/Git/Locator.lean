import Mathlib.Tactic.Common
import Tracefold.Locator.Lexical

/-! The locators of the git adapter: a repository, a reference and a path in the reference's tree,
each folded, and what a second folding does. -/

namespace Tracefold.Git

open Library Library.Text Library.Pile Locator Locator.Lexical

/-- `REPO_SEPARATOR`, `PATH_SEPARATOR`, `REF_PREFIX`, `BRANCH_PREFIX` and `MAX_PATH_DEPTH`. -/
def repoSeparator : Char := '#'

def pathSeparator : Char := ':'

def refPrefix : Text := "refs/".toList

def branchPrefix : Text := "refs/heads/".toList

def maxPathDepth : ℕ := 1

/-- `fold_path`. -/
def foldPath (text : Text) (rooted : Bool) : Text :=
  if rooted then '/' :: fold true text else fold false text

/-- `fold_repository`. -/
def foldRepository (text : Text) : Text := foldPath text (text.head? = some '/')

/-- `full_reference`: an unqualified name is a branch. -/
def fullReference (reference : Text) : Text :=
  let folded := foldPath reference false
  if folded = [] then []
  else if refPrefix <+: folded then folded
  else if "heads/".toList <+: folded ∨ "tags/".toList <+: folded ∨ "remotes/".toList <+: folded then
    refPrefix ++ folded
  else branchPrefix ++ folded

/-- A reference and the path in its tree, which may be missing. -/
def splitPath (rest : Text) : Text × Text := (splitOnce pathSeparator rest).getD (rest, [])

/-- `locator::normalize`. -/
def normalize (locator : Text) : Text :=
  match splitOnce repoSeparator locator with
  | none => foldRepository locator
  | some (repository, rest) =>
    foldRepository repository ++ repoSeparator :: (fullReference (splitPath rest).1 ++
      pathSeparator :: foldPath (splitPath rest).2 false)

structure Position where
  repository : Text
  reference : Text
  path : Text
  deriving DecidableEq, Repr

namespace Position

/-- `Position::scope`. -/
def scope (position : Position) : Text := position.repository ++ repoSeparator :: position.reference

/-- `Position::locator`. -/
def locator (position : Position) : Text :=
  position.repository ++ repoSeparator :: (position.reference ++ pathSeparator :: position.path)

end Position

/-- `Error::NotAPosition`: the locator, why it is none, and its normal form. -/
structure NotAPosition where
  locator : Text
  why : String
  normalised : Text
  deriving DecidableEq, Repr

/-- `locator::parse`. -/
def parse (locator : Text) : Except NotAPosition Position :=
  let normalised := normalize locator
  let refuse (why : String) : Except NotAPosition Position := .error ⟨locator, why, normalised⟩
  match splitOnce repoSeparator normalised with
  | none => refuse "a git locator names a repository and a reference, separated by `#`"
  | some (repository, rest) =>
    match splitOnce pathSeparator rest with
    | none => refuse "a git locator names a path inside the reference's tree, after a `:`"
    | some (reference, path) =>
      if repository.head? ≠ some '/' then
        refuse "the repository is named from the root; v0.1 names positions absolutely (ASM-69-3)"
      else if reference = refPrefix ∨ reference = [] then refuse "the reference is empty"
      else if path = [] then refuse "the path inside the tree is empty"
      else if maxPathDepth < (path.splitOn '/').length then
        refuse "v0.1 changes one entry of the top-level tree; a nested path rebuilds every tree between the file and the root, which is n object writes for one change (MAX_PATH_DEPTH)"
      else .ok ⟨repository, reference, path⟩

theorem foldPath_foldPath (text : Text) : foldPath (foldPath text false) false = foldPath text false :=
  fold_fold false text

theorem foldRepository_foldRepository (text : Text) :
    foldRepository (foldRepository text) = foldRepository text := by
  by_cases hrooted : text.head? = some '/'
  · have honce : foldRepository text = '/' :: fold true text := by
      rw [foldRepository, hrooted]
      rfl
    have hfold : fold true ('/' :: fold true text) = fold true text := by
      rw [fold, folded_eq, way_cons, ← folded_eq]
      exact fold_fold true text
    rw [honce, foldRepository, List.head?_cons]
    exact congrArg (List.cons '/') hfold
  · have honce : ∀ {t : Text}, t.head? ≠ some '/' → foldRepository t = fold false t := by
      intro t ht
      rw [foldRepository, decide_eq_false ht]
      rfl
    rw [honce hrooted, honce (head_fold false text), fold_fold]

theorem not_mem_foldRepository {c : Char} {text : Text} (hsep : c ≠ '/') (hdot : c ≠ '.')
    (h : c ∉ text) : c ∉ foldRepository text := by
  have hfold : ∀ rooted, c ∉ fold rooted text := by
    intro rooted hmem
    rcases mem_fold hmem with hc | hc | hc
    · exact hsep hc
    · exact hdot hc
    · exact h hc
  rw [foldRepository, foldPath]
  split
  · rw [List.mem_cons, not_or]
    exact ⟨hsep, hfold true⟩
  · exact hfold false

theorem not_mem_fullReference {text : Text} (h : pathSeparator ∉ text) :
    pathSeparator ∉ fullReference text := by
  have hfold : pathSeparator ∉ foldPath text false := by
    intro hmem
    rcases mem_fold hmem with hc | hc | hc
    · exact absurd hc (by decide)
    · exact absurd hc (by decide)
    · exact h hc
  rw [fullReference]
  split
  · exact List.not_mem_nil
  · split
    · exact hfold
    · split
      · rw [List.mem_append, not_or]
        exact ⟨by decide, hfold⟩
      · rw [List.mem_append, not_or]
        exact ⟨by decide, hfold⟩

theorem normalize_parts {repository reference path : Text} (hrepository : repoSeparator ∉ repository)
    (hreference : pathSeparator ∉ reference) :
    normalize (repository ++ repoSeparator :: (reference ++ pathSeparator :: path)) =
      foldRepository repository ++ repoSeparator :: (fullReference reference ++
        pathSeparator :: foldPath path false) := by
  rw [normalize, splitOnce_append hrepository]
  dsimp only
  rw [splitPath, splitOnce_append hreference]
  rfl

theorem not_mem_splitPath (rest : Text) : pathSeparator ∉ (splitPath rest).1 := by
  rw [splitPath]
  cases hsplit : splitOnce pathSeparator rest with
  | none => exact splitOnce_eq_none.mp hsplit
  | some parts => exact (splitOnce_eq_some (a := parts.1) (b := parts.2) hsplit).2

/-- How many segments of a text go up. -/
def dots (text : Text) : ℕ := (text.splitOn '/').count dotDot

theorem dots_cons {segment text : Text} (h : segment ≠ dotDot) (hsep : '/' ∉ segment) :
    dots (segment ++ '/' :: text) = dots text := by
  rw [dots, List.splitOn_append_cons_self, List.splitOn_eq_singleton hsep, List.singleton_append,
    List.count_cons_of_ne (Ne.symm h).symm]
  rfl

theorem dots_fold (text : Text) : dots (fold false text) = (way text).ups := by
  have hnames : (way text).names.count dotDot = 0 :=
    List.count_eq_zero.mpr fun hmem => (proper_way hmem).noDotDot rfl
  have hcount : (folded false text).count dotDot = (way text).ups := by
    rw [folded_eq, Climb.spell, if_neg Bool.false_ne_true, List.count_append, hnames,
      List.count_replicate_self, Nat.add_zero]
  by_cases hnil : folded false text = []
  · rw [dots, fold, hnil]
    rw [hnil] at hcount
    exact hcount
  · rw [dots, fold, List.splitOn_intercalate '/' (fun piece hpiece => (not_mem_folded hpiece).2) hnil]
    exact hcount

theorem dots_refPrefix (text : Text) : dots (refPrefix ++ text) = dots text :=
  @dots_cons "refs".toList text (by decide) (by decide)

theorem dots_branchPrefix (text : Text) : dots (branchPrefix ++ text) = dots text :=
  (dots_refPrefix ("heads/".toList ++ text)).trans
    (@dots_cons "heads".toList text (by decide) (by decide))

theorem dots_fullReference (reference : Text) :
    dots (fullReference reference) = (way reference).ups := by
  rw [← dots_fold]
  rw [fullReference]
  split
  next hnil =>
    rw [show fold false reference = [] from hnil]
  next =>
    split
    next => rfl
    next =>
      split
      next => exact dots_refPrefix _
      next => exact dots_branchPrefix _

/-- A reference that climbs begins with `..`, and is put under the branches with it. -/
theorem fullReference_of_climbs {reference : Text} (h : 0 < (way reference).ups) :
    fullReference reference = branchPrefix ++ fold false reference := by
  obtain ⟨n, hn⟩ := Nat.exists_eq_succ_of_ne_zero (Nat.pos_iff_ne_zero.mp h)
  have hfolded : ∃ rest, folded false reference = dotDot :: rest := by
    refine ⟨List.replicate n dotDot ++ (way reference).names, ?_⟩
    rw [folded_eq, Climb.spell, if_neg Bool.false_ne_true, hn, List.replicate_succ]
    rfl
  obtain ⟨rest, hfolded⟩ := hfolded
  have hhead : ∃ text, fold false reference = '.' :: text := by
    rw [fold, hfolded]
    cases rest with
    | nil => exact ⟨['.'], rfl⟩
    | cons next rest => exact ⟨'.' :: '/' :: ['/'].intercalate (next :: rest), by
        rw [List.intercalate_cons_cons]; rfl⟩
  obtain ⟨text, hhead⟩ := hhead
  have hfold : foldPath reference false = '.' :: text := hhead
  have hbegins : ∀ {before : Text}, before.head?.any (· ≠ '.') → ¬ before <+: ('.' :: text) := by
    intro before hbefore hbegins
    cases before with
    | nil => cases hbefore
    | cons c before => exact of_decide_eq_true hbefore (List.cons_prefix_cons.mp hbegins).1
  rw [fullReference, hfold, hhead]
  rw [if_neg (List.cons_ne_nil _ _), if_neg (hbegins (by decide)), if_neg]
  rintro (hp | hp | hp)
  · exact hbegins (by decide) hp
  · exact hbegins (by decide) hp
  · exact hbegins (by decide) hp

theorem fold_of_proper {names : List Text} (h : ∀ name ∈ names, Proper name) :
    fold false (['/'].intercalate names) = ['/'].intercalate names := by
  rw [fold, folded_eq, way_intercalate fun name hname => (h name hname).noSeparator,
    Climb.walk_names fun name hname => (h name hname).keep]
  rfl

theorem fullReference_names {reference : Text} (h : (way reference).ups = 0) :
    ∃ names : List Text, (∀ name ∈ names, Proper name) ∧
      fullReference reference = ['/'].intercalate names ∧
        (fullReference reference = [] ∨ refPrefix <+: fullReference reference) := by
  have hfold : foldPath reference false = ['/'].intercalate (way reference).names := by
    rw [foldPath, if_neg Bool.false_ne_true, fold, folded_eq, Climb.spell,
      if_neg Bool.false_ne_true, h]
    rfl
  have hproper : ∀ name ∈ (way reference).names, Proper name := fun name hname => proper_way hname
  have hcons : ∀ {segment : Text} {names : List Text}, names ≠ [] →
      segment ++ '/' :: ['/'].intercalate names = ['/'].intercalate (segment :: names) := by
    intro segment names hnames
    rw [List.intercalate_cons_of_ne_nil hnames, List.append_assoc]
    rfl
  have hrefs : Proper "refs".toList := ⟨by decide, by decide, by decide, by decide⟩
  have hheads : Proper "heads".toList := ⟨by decide, by decide, by decide, by decide⟩
  rw [fullReference, hfold]
  split
  next => exact ⟨[], fun _ hmem => absurd hmem List.not_mem_nil, rfl, .inl rfl⟩
  next hne =>
    have hnames : (way reference).names ≠ [] := fun hnil => hne (by rw [hnil]; rfl)
    split
    next hbegins => exact ⟨_, hproper, rfl, .inr hbegins⟩
    next =>
      split
      next =>
        refine ⟨"refs".toList :: (way reference).names, ?_, @hcons "refs".toList _ hnames, .inr ?_⟩
        · exact fun name hname => (List.mem_cons.mp hname).elim (fun heq => heq ▸ hrefs)
            (hproper name)
        · exact List.prefix_append _ _
      next =>
        refine ⟨"refs".toList :: "heads".toList :: (way reference).names, ?_, ?_, .inr ?_⟩
        · intro name hname
          rcases List.mem_cons.mp hname with heq | hname
          · exact heq ▸ hrefs
          · exact (List.mem_cons.mp hname).elim (fun heq => heq ▸ hheads) (hproper name)
        · rw [← hcons (List.cons_ne_nil _ _), ← hcons hnames]
          rfl
        · exact (List.prefix_append refPrefix "heads/".toList).trans (List.prefix_append _ _)

/-- A second spelling out changes a reference exactly when it climbs. -/
theorem fullReference_fullReference (reference : Text) :
    fullReference (fullReference reference) = fullReference reference ↔
      (way reference).ups = 0 := by
  refine ⟨fun h => ?_, fun h => ?_⟩
  · by_contra hne
    have hpos : 0 < (way reference).ups := Nat.pos_of_ne_zero hne
    have hdots := congrArg dots h
    rw [dots_fullReference, dots_fullReference, fullReference_of_climbs hpos] at hdots
    have hway : way (branchPrefix ++ fold false reference) =
        ⟨0, ["refs".toList, "heads".toList]⟩ * way (fold false reference) := by
      rw [show branchPrefix ++ fold false reference =
        "refs/heads".toList ++ '/' :: fold false reference from rfl, way_append]
      exact congrArg (· * way (fold false reference)) (by decide)
    rw [hway, Climb.ups_mul, way_fold] at hdots
    simp only [Bool.false_eq_true, if_false, List.length_cons, List.length_nil] at hdots
    omega
  · obtain ⟨names, hproper, hspelled, hbegins⟩ := fullReference_names h
    have hfold : foldPath (fullReference reference) false = fullReference reference := by
      rw [hspelled]
      exact fold_of_proper hproper
    rw [fullReference, hfold]
    rcases hbegins with hnil | hbegins
    · rw [hnil, if_pos rfl]
    · rw [if_pos hbegins]
      split
      next hnil => exact hnil.symm
      next => rfl

/-- The reference of a locator takes back more than it has named. -/
def climbs (locator : Text) : Bool :=
  match splitOnce repoSeparator locator with
  | none => false
  | some (_, rest) => digs Lexical.fateOf 0 ((splitPath rest).1.splitOn '/')

theorem normalize_normalize (locator : Text) :
    normalize (normalize locator) = normalize locator ↔ climbs locator = false := by
  cases hsplit : splitOnce repoSeparator locator with
  | none =>
    have hnot : repoSeparator ∉ foldRepository locator :=
      not_mem_foldRepository (by decide) (by decide) (splitOnce_eq_none.mp hsplit)
    have hnormal : ∀ {text : Text}, splitOnce repoSeparator text = none →
        normalize text = foldRepository text := by
      intro text htext
      rw [normalize, htext]
    rw [hnormal hsplit, hnormal (splitOnce_eq_none.mpr hnot), foldRepository_foldRepository, climbs,
      hsplit]
    exact iff_of_true rfl rfl
  | some parts =>
    obtain ⟨repository, rest⟩ := parts
    obtain ⟨-, hrepository⟩ := splitOnce_eq_some hsplit
    have hnormal : normalize locator = foldRepository repository ++ repoSeparator ::
        (fullReference (splitPath rest).1 ++ pathSeparator :: foldPath (splitPath rest).2 false) := by
      rw [normalize, hsplit]
    rw [hnormal, normalize_parts
      (not_mem_foldRepository (by decide) (by decide) hrepository)
      (not_mem_fullReference (not_mem_splitPath rest)), foldRepository_foldRepository,
      foldPath_foldPath, List.append_cancel_left_eq, List.cons.injEq, and_iff_right rfl,
      List.append_cancel_right_eq, fullReference_fullReference, climbs, hsplit, way,
      ← Bool.not_eq_true, Climb.digs_iff]
    omega

theorem parse_eq_ok {locator : Text} {position : Position} (h : parse locator = .ok position) :
    position.locator = normalize locator := by
  simp only [parse] at h
  split at h
  · cases h
  next repository rest hrest =>
    split at h
    · cases h
    next reference path hpath =>
      split at h
      · cases h
      · split at h
        · cases h
        · split at h
          · cases h
          · split at h
            · cases h
            · cases h
              rw [(splitOnce_eq_some hrest).1, (splitOnce_eq_some hpath).1]
              rfl

theorem parse_congr {a b : Text} (h : normalize a = normalize b) {position : Position}
    (hparse : parse a = .ok position) : parse b = .ok position := by
  simp only [parse, h] at hparse ⊢
  split at hparse
  · cases hparse
  · split at hparse
    · cases hparse
    · split at hparse
      · cases hparse
      next hrooted =>
        rw [if_neg hrooted]
        split at hparse
        · cases hparse
        next href =>
          rw [if_neg href]
          split at hparse
          · cases hparse
          next hpath =>
            rw [if_neg hpath]
            split at hparse
            · cases hparse
            next hdepth =>
              rw [if_neg hdepth]
              exact hparse

theorem parse_reference {locator repository rest : Text} {position : Position}
    (hsplit : splitOnce repoSeparator locator = some (repository, rest))
    (h : parse locator = .ok position) : position.reference = fullReference (splitPath rest).1 := by
  have hrepository : repoSeparator ∉ foldRepository repository :=
    not_mem_foldRepository (by decide) (by decide) (splitOnce_eq_some hsplit).2
  have hreference : pathSeparator ∉ fullReference (splitPath rest).1 :=
    not_mem_fullReference (not_mem_splitPath rest)
  have hnormal : normalize locator = foldRepository repository ++ repoSeparator ::
      (fullReference (splitPath rest).1 ++ pathSeparator :: foldPath (splitPath rest).2 false) := by
    rw [normalize, hsplit]
  simp only [parse, hnormal, splitOnce_append hrepository, splitOnce_append hreference] at h
  split at h
  · cases h
  · split at h
    · cases h
    · split at h
      · cases h
      · split at h
        · cases h
        · cases h
          rfl

/-- A position whose reference does not go up is read back from its own locator. -/
theorem parse_locator {locator : Text} {position : Position} (h : parse locator = .ok position)
    (hdown : dotDot ∉ position.reference.splitOn '/') : parse position.locator = .ok position := by
  have hclimbs : climbs locator = false := by
    cases hsplit : splitOnce repoSeparator locator with
    | none =>
      rw [climbs, hsplit]
    | some parts =>
      obtain ⟨repository, rest⟩ := parts
      have hcount : dots position.reference = 0 := List.count_eq_zero.mpr hdown
      rw [parse_reference hsplit h, dots_fullReference] at hcount
      rw [climbs, hsplit, ← Bool.not_eq_true, Climb.digs_iff]
      exact Nat.not_lt.mpr (Nat.le_of_eq hcount)
  rw [parse_eq_ok h]
  exact parse_congr ((normalize_normalize locator).mpr hclimbs).symm h

/-- Normalising is done at once, and a position is read back from its own locator, exactly where the
reference of the locator does not climb above its start. -/
theorem position_is_a_fixed_point (locator : Text) :
    (normalize (normalize locator) = normalize locator ∧
      ∀ position, parse locator = .ok position → parse position.locator = .ok position) ↔
      climbs locator = false := by
  rw [← normalize_normalize]
  refine ⟨fun h => h.1, fun h => ⟨h, fun position hparse => ?_⟩⟩
  rw [parse_eq_ok hparse]
  exact parse_congr h.symm hparse

/-- The branch `..` is spelled `refs/heads/..`, and that one `refs/heads/refs`. -/
theorem second_pass_moves_a_reference :
    ¬ ∀ locator : Text, normalize (normalize locator) = normalize locator ∧
      ∀ position, parse locator = .ok position → parse position.locator = .ok position := by
  intro h
  have heq := (h "/srv/repo#..:a.txt".toList).1
  revert heq
  decide

end Tracefold.Git
