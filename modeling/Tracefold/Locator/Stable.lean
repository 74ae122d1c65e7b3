import Mathlib.Tactic.Common
import Tracefold.Locator.Authority
import Tracefold.Locator.Segments

/-! Law L7: the locators that normalising once has given their representative. -/

namespace Tracefold.Locator

open Library.Text Library.Pile

/-- What a pass does with a segment as it is written. -/
def fateWritten (segment : Text) : Fate := fateOf (normalizePercent segment)

/-- The first segment is taken back by a `..`. -/
def takesBack (path : Text) : Bool := digs fateWritten 0 (segments path).tail

/-- Behind a segment that ends in `:`, dot segments and what they take back are all that stands
before an empty one: without them the two read `://`. -/
def bares : List Text → Bool
  | [] => false
  | segment :: rest =>
    (segment.getLast? = some ':' && meets fateWritten [] 0 rest) || bares rest

/-- No clause makes work for another one. -/
def calm (uri : Text) : Bool :=
  match splitScheme uri with
  | some (_, rest) =>
    !late (rest.takeWhile (!isDelimiter ·)) && !late (rest.dropWhile (!isDelimiter ·)) &&
      !((rest.dropWhile (!isDelimiter ·)).head? = some serverSeparator &&
        takesBack (rest.dropWhile (!isDelimiter ·)))
  | none => !late uri && !bares (segments uri)

/-- A locator both parts of which are so. -/
def Calm (locator : Text) : Prop :=
  (match splitOnce serverSeparator locator with
  | some (server, resource) => calm server && calm resource
  | none => calm locator) = true

instance (locator : Text) : Decidable (Calm locator) := inferInstanceAs (Decidable (_ = true))

theorem bares_of_append {before rest : List Text} {segment : Text}
    (hlast : segment.getLast? = some ':') (hmeets : meets fateWritten [] 0 rest = true) :
    bares (before ++ segment :: rest) = true := by
  induction before with
  | nil =>
    rw [List.nil_append, bares, hlast, hmeets]
    rfl
  | cons first before ih =>
    rw [List.cons_append, bares, ih, Bool.or_true]

theorem normalizePercent_eq_nil {text : Text} : normalizePercent text = [] ↔ text = [] := by
  constructor
  · intro h
    cases text using percentInduction with
    | nil => rfl
    | decoded a b rest hi lo ha hb hd =>
      rw [normalizePercent_decoded ha hb hd] at h
      cases h
    | spelled a b rest hi lo ha hb hd =>
      rw [normalizePercent_spelled ha hb hd] at h
      cases h
    | lone c rest hlone =>
      rw [normalizePercent_lone hlone] at h
      cases h
  · rintro rfl
    rfl

theorem getLast_of_normalizePercent {c : Char} (hc : Separates c) {text before : Text}
    (h : normalizePercent text = before ++ [c]) : text.getLast? = some c := by
  by_cases hmem : c ∈ text
  · obtain ⟨⟨a, b⟩, hsplit⟩ := Option.ne_none_iff_exists'.mp
      (mt rsplitOnce_eq_none.mp (not_not.mpr hmem))
    obtain ⟨rfl, hnot⟩ := rsplitOnce_eq_some hsplit
    rw [normalizePercent_append hc] at h
    rcases concat_eq_append_cons h.symm with ⟨hnil, _, _⟩ | ⟨tail, htail, _⟩
    · rw [normalizePercent_eq_nil.mp hnil, List.getLast?_append_cons, List.getLast?_singleton]
    · have hmem' : c ∈ normalizePercent b := by
        rw [htail]
        exact List.mem_append_right _ List.mem_cons_self
      exact absurd hmem' (not_mem_normalizePercent hc hnot)
  · have hnot := not_mem_normalizePercent hc hmem
    rw [h] at hnot
    exact absurd (List.mem_append_right _ List.mem_cons_self) hnot

theorem separates_scheme {c : Char} (h : c ∈ schemeSeparator) : Separates c := by
  simp only [schemeSeparator, List.mem_cons, List.not_mem_nil, or_false] at h
  rcases h with rfl | rfl | rfl <;> decide

theorem schemeSeparator_ne_nil : schemeSeparator ≠ [] := List.cons_ne_nil _ _

theorem not_infix_front {text front : Text} {items kept : List Text}
    (htidied : Tidied (normalizePercent text) front kept) (hkept : kept = pile fateOf items)
    (hitems : items = segments (normalizePercent text) ∨
      items = segments (normalizePercent text) ++ [[]] ∧
        ∀ before, segments (normalizePercent text) ≠ before ++ [[]])
    (hbares : bares (segments text) = false) : ¬ schemeSeparator <:+: front := by
  intro hinfix
  have hjoin : schemeSeparator <:+: ['/'].intercalate kept := by
    rw [htidied.front_eq, leadOf] at hinfix
    split at hinfix
    next =>
      rcases List.infix_cons_iff.mp hinfix with hprefix | hinfix
      · rw [schemeSeparator, List.cons_prefix_cons] at hprefix
        cases hprefix.1
      · exact hinfix
    next => exact hinfix
  obtain ⟨before, x, after, hpieces, hafter⟩ :=
    pieces_of_infix (by decide) (fun piece hpiece => (htidied.not_mem hpiece).1) hjoin
  rw [hkept] at hpieces
  have hpiled : Piled fateOf (fun _ => True) items (before ++ (x ++ [':']) :: [] :: after) := by
    rw [← hpieces]
    exact piled_pile items
  obtain ⟨A, D, B, heq, hD, hB⟩ := hpiled.adjacent
  obtain ⟨B', hB', hsegments⟩ : ∃ B', B' ≠ [] ∧
      segments (normalizePercent text) = A ++ (x ++ [':']) :: (D ++ [] :: B') := by
    rcases hitems with rfl | ⟨rfl, hlast⟩
    · exact ⟨B, hB hafter, by rw [heq]; simp⟩
    · rcases concat_eq_append_cons heq with ⟨hnil, _, _⟩ | ⟨B', rfl, hsegments⟩
      · exact absurd hnil (hB hafter)
      · refine ⟨B', ?_, by rw [hsegments]; simp⟩
        rintro rfl
        exact hlast _ hsegments
  rw [segments_normalizePercent] at hsegments
  obtain ⟨A', rest, hA', _, hrest⟩ := List.map_eq_append_iff.mp hsegments
  obtain ⟨y, rest', rfl, hy, hrest'⟩ := List.map_eq_cons_iff.mp hrest
  have hmeets : meets fateWritten [] 0 rest' = true := by
    have hmap : meets fateOf (normalizePercent []) 0 (rest'.map normalizePercent) =
        meets fateWritten [] 0 rest' :=
      meets_map fun s => normalizePercent_eq_nil
    rw [← hmap, hrest']
    apply meets_cancels hD
    rw [meets]
    cases B' with
    | nil => exact absurd rfl hB'
    | cons first B' => rfl
  rw [hA', bares_of_append (getLast_of_normalizePercent (by decide) hy) hmeets] at hbares
  cases hbares

theorem normalizeUri_schemeless {uri : Text} (hscheme : splitScheme uri = none)
    (hlate : late uri = false) (hbares : bares (segments uri) = false) :
    normalizeUri (normalizeUri uri) = normalizeUri uri := by
  obtain ⟨items, front, kept, htidied, hkept, hitems⟩ := exists_tidied (normalizePercent uri)
  have hsettled := htidied.settled (settled_normalizePercent hlate)
  have huri : normalizeUri uri = removeDotSegments (normalizePercent uri) := by
    rw [normalizeUri, hscheme]
  have hnone : splitScheme (removeDotSegments (normalizePercent uri)) = none := by
    refine (splitInfix_eq_none schemeSeparator_ne_nil).mpr fun hinfix => ?_
    have hfront := not_infix_front htidied hkept hitems hbares
    rw [htidied.result] at hinfix
    rcases cut_query (normalizePercent uri) with ⟨htail, _⟩ | ⟨tail, htail, htext⟩
    · rw [htail, List.append_nil] at hinfix
      exact hfront hinfix
    · rw [htail] at hinfix
      rcases infix_of_append (by decide) hinfix with hinfix | hinfix
      · exact hfront hinfix
      · have hpass : schemeSeparator <:+: normalizePercent uri := by
          rw [htext]
          exact hinfix.trans ⟨(normalizePercent uri).takeWhile (· ≠ '?') ++ ['?'], [], by simp⟩
        exact (splitInfix_eq_none schemeSeparator_ne_nil).mp hscheme
          (infix_of_normalizePercent (fun _ => separates_scheme) schemeSeparator_ne_nil hpass)
  rw [huri, normalizeUri, hnone]
  dsimp only
  rw [show normalizePercent _ = _ from hsettled, htidied.removeDotSegments]

theorem head_tidied_hash {rest : Text} (htakes : takesBack (serverSeparator :: rest) = false) :
    ∃ rest', removeDotSegments (normalizePercent (serverSeparator :: rest)) =
      serverSeparator :: rest' := by
  obtain ⟨items, front, kept, htidied, hkept, hitems⟩ :=
    exists_tidied (normalizePercent (serverSeparator :: rest))
  have hpass : normalizePercent (serverSeparator :: rest) =
      serverSeparator :: normalizePercent rest := normalizePercent_lone (.of_ne (by decide))
  have hpath : (serverSeparator :: normalizePercent rest).takeWhile (· ≠ '?') =
      serverSeparator :: (normalizePercent rest).takeWhile (· ≠ '?') :=
    List.takeWhile_cons_of_pos (by decide)
  have hlead : leadOf ((normalizePercent (serverSeparator :: rest)).takeWhile (· ≠ '?')) = [] := by
    rw [hpass, hpath]
    rfl
  obtain ⟨first, others, hsegments⟩ : ∃ first others,
      segments (normalizePercent (serverSeparator :: rest)) = (serverSeparator :: first) :: others := by
    obtain ⟨first, others, hpieces⟩ := List.exists_cons_of_ne_nil
      (List.splitOn_ne_nil '/' ((normalizePercent rest).takeWhile (· ≠ '?')))
    refine ⟨first, others, ?_⟩
    have hbody : bodyOf (serverSeparator :: (normalizePercent rest).takeWhile (· ≠ '?')) =
        serverSeparator :: (normalizePercent rest).takeWhile (· ≠ '?') := rfl
    rw [segments, hpass, hpath, hbody, List.splitOn_cons_eq_if_modifyHead, if_neg (by decide),
      hpieces]
    rfl
  have hdigs : digs fateOf 0 others = false := by
    have htail : (segments (normalizePercent (serverSeparator :: rest))).tail = others := by
      rw [hsegments]
      rfl
    rw [← htail, segments_normalizePercent, ← List.map_tail, digs_map]
    exact htakes
  have hkeep : fateOf (serverSeparator :: first) = .keep := by
    rw [fateOf_eq_keep]
    exact ⟨fun h => absurd (List.cons.inj h).1 (by decide),
      fun h => absurd (List.cons.inj h).1 (by decide)⟩
  obtain ⟨more, hitems, hmore⟩ : ∃ more, items = (serverSeparator :: first) :: more ∧
      digs fateOf 0 more = false := by
    rcases hitems with rfl | ⟨rfl, _⟩
    · exact ⟨others, hsegments, hdigs⟩
    · refine ⟨others ++ [[]], by rw [hsegments]; rfl, ?_⟩
      rw [digs_concat fateOf_nil]
      exact hdigs
  rw [hitems, pile_cons hkeep hmore] at hkept
  rw [htidied.result, htidied.front_eq, hlead, List.nil_append, hkept]
  generalize pile fateOf more = below
  cases below with
  | nil => exact ⟨_, by rw [List.intercalate_singleton]; rfl⟩
  | cons second below => exact ⟨_, by rw [List.intercalate_cons_cons]; rfl⟩

theorem head_tidied {path : Text} (hpath : ∀ c, path.head? = some c → isDelimiter c = true)
    (htakes : ¬ (path.head? = some serverSeparator ∧ takesBack path = true)) {c : Char}
    (hc : (removeDotSegments (normalizePercent path)).head? = some c) : isDelimiter c = true := by
  cases path with
  | nil => cases hc
  | cons d rest =>
    have hd := hpath d rfl
    simp only [isDelimiter, decide_eq_true_eq] at hd
    rcases hd with rfl | rfl | rfl
    · obtain ⟨items, front, kept, htidied, _, _⟩ := exists_tidied (normalizePercent ('/' :: rest))
      have hpass : normalizePercent ('/' :: rest) = '/' :: normalizePercent rest :=
        normalizePercent_lone (.of_ne (by decide))
      have hlead : leadOf ((normalizePercent ('/' :: rest)).takeWhile (· ≠ '?')) = ['/'] := by
        rw [hpass, List.takeWhile_cons_of_pos (by decide)]
        rfl
      rw [htidied.result, htidied.front_eq, hlead] at hc
      cases hc
      rfl
    · have hpass : normalizePercent ('?' :: rest) = [] ++ '?' :: normalizePercent rest :=
        normalizePercent_lone (.of_ne (by decide))
      have hquery := @removeDotSegments_of_keep [] ('?' :: normalizePercent rest) List.not_mem_nil
        (fun c hc => (Option.some.inj hc).symm) (by decide)
      rw [hpass, hquery] at hc
      cases hc
      rfl
    · have htakes' : takesBack ('#' :: rest) = false := by
        rw [← Bool.not_eq_true]
        exact fun h => htakes ⟨rfl, h⟩
      obtain ⟨rest', heq⟩ := head_tidied_hash htakes'
      rw [show ('#' :: rest : Text) = serverSeparator :: rest from rfl, heq] at hc
      cases hc
      rfl

/-- Law L7 for a text that names a scheme. -/
theorem normalizeUri_scheme {uri scheme rest : Text}
    (hscheme : splitScheme uri = some (scheme, rest))
    (hauthority : late (rest.takeWhile (!isDelimiter ·)) = false)
    (hpath : late (rest.dropWhile (!isDelimiter ·)) = false)
    (htakes : ¬ ((rest.dropWhile (!isDelimiter ·)).head? = some serverSeparator ∧
      takesBack (rest.dropWhile (!isDelimiter ·)) = true)) :
    normalizeUri (normalizeUri uri) = normalizeUri uri := by
  have hfirst : First schemeSeparator (toAsciiLowercase scheme) := by
    refine (splitInfix_eq_some hscheme).2.map fun c hc d => ?_
    simp only [schemeSeparator, List.mem_cons, List.not_mem_nil, or_false] at hc
    rcases hc with rfl | rfl | rfl <;> exact toLower_eq_iff (by decide) (by decide) d
  have huri : normalizeUri uri = toAsciiLowercase scheme ++ schemeSeparator ++
      (normalizeAuthority (rest.takeWhile (!isDelimiter ·)) ++
        removeDotSegments (normalizePercent (rest.dropWhile (!isDelimiter ·)))) := by
    rw [normalizeUri, hscheme]
    dsimp only
    rw [List.append_assoc]
  have hplain : ∀ c ∈ normalizeAuthority (rest.takeWhile (!isDelimiter ·)),
      (!isDelimiter c) = true := by
    intro c hc
    rw [Bool.not_eq_true', ← Bool.not_eq_true]
    intro hdelimiter
    have hnot : c ∉ rest.takeWhile (!isDelimiter ·) := by
      intro hmem
      have hkept := List.all_eq_true.mp List.all_takeWhile c hmem
      rw [hdelimiter] at hkept
      cases hkept
    simp only [isDelimiter, decide_eq_true_eq] at hdelimiter
    refine not_mem_normalizeAuthority ?_ ?_ ?_ hnot hc <;>
      rcases hdelimiter with rfl | rfl | rfl <;> decide
  obtain ⟨items, front, kept, htidied, _, _⟩ :=
    exists_tidied (normalizePercent (rest.dropWhile (!isDelimiter ·)))
  have hsettled := htidied.settled (settled_normalizePercent hpath)
  have hspan := @span_append _ (!isDelimiter ·)
    (normalizeAuthority (rest.takeWhile (!isDelimiter ·)))
    (removeDotSegments (normalizePercent (rest.dropWhile (!isDelimiter ·)))) hplain
    fun c hc => by
      have hhead := head_tidied (fun d hd => by simpa using head_dropWhile hd) htakes hc
      simp [hhead]
  rw [huri, normalizeUri, splitScheme, splitInfix_append schemeSeparator_ne_nil hfirst]
  dsimp only
  rw [hspan.1, hspan.2, toAsciiLowercase_toAsciiLowercase,
    normalizeAuthority_normalizeAuthority hauthority, show normalizePercent _ = _ from hsettled,
    htidied.removeDotSegments, List.append_assoc]

theorem normalizeUri_normalizeUri {uri : Text} (h : calm uri = true) :
    normalizeUri (normalizeUri uri) = normalizeUri uri := by
  rw [calm] at h
  split at h
  next scheme rest hscheme =>
    simp only [Bool.and_eq_true, Bool.not_eq_true', Bool.and_eq_false_iff, decide_eq_false_iff_not]
      at h
    obtain ⟨⟨hauthority, hpath⟩, htakes⟩ := h
    refine normalizeUri_scheme hscheme hauthority hpath fun hboth => ?_
    rcases htakes with htakes | htakes
    · exact htakes hboth.1
    · rw [hboth.2] at htakes
      cases htakes
  next hscheme =>
    simp only [Bool.and_eq_true, Bool.not_eq_true'] at h
    exact normalizeUri_schemeless hscheme h.1 h.2

theorem not_mem_normalizeUri {uri : Text} (h : serverSeparator ∉ uri) :
    serverSeparator ∉ normalizeUri uri := by
  have hpath : ∀ {text : Text}, serverSeparator ∉ text →
      serverSeparator ∉ removeDotSegments (normalizePercent text) := by
    intro text hnot hmem
    obtain ⟨items, front, kept, htidied, _, _⟩ := exists_tidied (normalizePercent text)
    rcases htidied.mem_of_mem hmem with hslash | hmem
    · cases hslash
    · exact not_mem_normalizePercent (by decide) hnot hmem
  rw [normalizeUri]
  split
  next scheme rest hscheme =>
    obtain ⟨rfl, _⟩ := splitInfix_eq_some hscheme
    simp only [List.mem_append, not_or] at h ⊢
    refine ⟨⟨⟨?_, h.1.2⟩, ?_⟩, ?_⟩
    · rw [mem_toAsciiLowercase (by decide) (by decide)]
      exact h.1.1
    · refine not_mem_normalizeAuthority (by decide) (by decide) (by decide) fun hmem => ?_
      exact h.2 (List.takeWhile_subset _ hmem)
    · exact hpath fun hmem => h.2 ((List.dropWhile_suffix _).subset hmem)
  next => exact hpath h

/-- Law L7. -/
theorem normalize_normalize {locator : Text} (h : Calm locator) :
    normalize (normalize locator) = normalize locator := by
  rw [Calm] at h
  rw [normalize.eq_def locator]
  cases hsplit : splitOnce serverSeparator locator with
  | some halves =>
    obtain ⟨server, resource⟩ := halves
    have hserver := not_mem_normalizeUri (splitOnce_eq_some hsplit).2
    rw [hsplit] at h
    dsimp only at h ⊢
    rw [normalize, splitOnce_append hserver]
    dsimp only
    rw [Bool.and_eq_true] at h
    rw [normalizeUri_normalizeUri h.1, normalizeUri_normalizeUri h.2]
  | none =>
    have hlocator := not_mem_normalizeUri (splitOnce_eq_none.mp hsplit)
    rw [hsplit] at h
    dsimp only at h ⊢
    rw [normalize, splitOnce_eq_none.mpr hlocator]
    exact normalizeUri_normalizeUri h

theorem parse_locator {locator : Text} (h : Calm locator) {position : Position}
    (hparse : parse locator = .ok position) :
    position.locator = normalize locator ∧ parse position.locator = .ok position := by
  have hlocator : position.locator = normalize locator := by
    rw [parse] at hparse
    split at hparse
    next => cases hparse
    next server resource hsplit =>
      obtain ⟨heq, _⟩ := splitOnce_eq_some hsplit
      have hposition : position = ⟨server, resource⟩ := by
        split_ifs at hparse
        cases hparse
        rfl
      rw [heq, hposition]
      rfl
  refine ⟨hlocator, ?_⟩
  rw [hlocator, parse, normalize_normalize h]
  exact hparse

end Tracefold.Locator
