import Mathlib.Tactic.Common
import Tracefold.Locator.Percent

/-! The segments of a path: which of them a pass keeps, and that a second one keeps them all. -/

namespace Tracefold.Locator

open Library.Text Library.Pile

/-- The segments of the text up to the first `?`. -/
def segments (text : Text) : List Text := (bodyOf (text.takeWhile (· ≠ '?'))).splitOn '/'

/-- The separator a path begins with, if it does. -/
def leadOf (path : Text) : Text := if path.head? = some '/' then ['/'] else []

theorem leadOf_append_bodyOf (path : Text) : leadOf path ++ bodyOf path = path := by
  rw [leadOf, bodyOf]
  split
  next h =>
    cases path with
    | nil => cases h
    | cons c path =>
      cases h
      rfl
  next => rfl

theorem fateOf_eq_keep {segment : Text} :
    fateOf segment = .keep ↔ segment ≠ dot ∧ segment ≠ dotDot := by
  rw [fateOf]
  split
  next h => simp [h]
  next h =>
    split
    next h' => simp [h']
    next h' => simp [h, h']

/-- Whether a path ends in a dot segment. -/
abbrev Ends (body : Text) : Prop :=
  body = dot ∨ body = dotDot ∨ ('/' :: dot) <:+ body ∨ ('/' :: dotDot) <:+ body

theorem Ends.concat_dot {body : Text} (h : Ends body) : ∃ before, body = before ++ ['.'] := by
  rcases h with rfl | rfl | ⟨before, rfl⟩ | ⟨before, rfl⟩
  · exact ⟨[], rfl⟩
  · exact ⟨['.'], rfl⟩
  · exact ⟨before ++ ['/'], by simp [dot]⟩
  · exact ⟨before ++ ['/', '.'], by simp [dotDot]⟩

theorem Ends.last_ne_nil {body : Text} (h : Ends body) {before : List Text} :
    body.splitOn '/' ≠ before ++ [[]] := by
  intro hsegments
  obtain ⟨front, hdot⟩ := h.concat_dot
  have hjoin : ['/'].intercalate (body.splitOn '/') = body := List.intercalate_splitOn '/'
  rw [hsegments] at hjoin
  cases before with
  | nil => simp [← hjoin] at hdot
  | cons first before =>
    rw [intercalate_concat (List.cons_ne_nil _ _), hdot] at hjoin
    have hlast := (List.append_inj' hjoin rfl).2
    simp at hlast

/-- The segments a pass puts on the pile: those of the text, and an empty one behind a dot segment
that is the last. -/
theorem removeDotSegments_eq (text : Text) :
    ∃ items, (items = segments text ∨
        items = segments text ++ [[]] ∧ ∀ before, segments text ≠ before ++ [[]]) ∧
      removeDotSegments text = leadOf (text.takeWhile (· ≠ '?')) ++
        ['/'].intercalate (pile fateOf items) ++ text.dropWhile (· ≠ '?') := by
  rw [removeDotSegments]
  dsimp only
  split
  next hclean =>
    refine ⟨segments text, .inl rfl, ?_⟩
    have hkept : pile fateOf (segments text) = segments text :=
      pile_of_keep fun s hs => fateOf_eq_keep.mpr (hclean s hs)
    rw [hkept, segments, List.intercalate_splitOn, leadOf_append_bodyOf]
  next =>
    by_cases hends : Ends (bodyOf (text.takeWhile (· ≠ '?')))
    · refine ⟨segments text ++ [[]], .inr ⟨rfl, fun before => Ends.last_ne_nil hends⟩, ?_⟩
      rw [if_pos hends, List.splitOn_append_cons_self, List.splitOn_nil]
      rfl
    · refine ⟨segments text, .inl rfl, ?_⟩
      rw [if_neg hends]
      rfl

theorem bodyOf_subset (path : Text) : bodyOf path ⊆ path := by
  rw [bodyOf]
  split
  next => exact List.tail_subset path
  next => exact List.Subset.refl path

theorem not_mem_segments {text segment : Text} (h : segment ∈ segments text) :
    '/' ∉ segment ∧ '?' ∉ segment := by
  constructor
  · intro hmem
    exact (mem_piece h hmem).2 rfl
  · intro hmem
    exact not_mem_takeWhile (bodyOf_subset _ (mem_piece h hmem).1)

theorem removeDotSegments_of_keep {front tail : Text} (hfront : '?' ∉ front)
    (htail : ∀ c, tail.head? = some c → c = '?')
    (hkeep : ∀ segment ∈ front.splitOn '/', fateOf segment = .keep) :
    removeDotSegments (front ++ tail) = front ++ tail := by
  have hspan := @span_append _ (· ≠ '?') front tail
    (fun x hx => decide_eq_true (ne_of_mem_of_not_mem hx hfront))
    (fun x hx => by simp [htail x hx])
  have hbody : ∀ segment ∈ (bodyOf front).splitOn '/', fateOf segment = .keep := by
    intro segment hsegment
    apply hkeep
    rw [bodyOf] at hsegment
    split at hsegment
    next hhead =>
      cases front with
      | nil => cases hhead
      | cons c rest =>
        cases hhead
        rw [List.splitOn_cons_eq_if_modifyHead, if_pos (beq_self_eq_true _)]
        exact List.mem_cons_of_mem _ hsegment
    next => exact hsegment
  rw [removeDotSegments, hspan.1, hspan.2]
  exact if_pos fun segment hsegment => fateOf_eq_keep.mp (hbody segment hsegment)

/-- What a pass over the segments of a text makes of it. -/
structure Tidied (text : Text) (front : Text) (kept : List Text) : Prop where
  result : removeDotSegments text = front ++ text.dropWhile (· ≠ '?')
  front_eq : front = leadOf (text.takeWhile (· ≠ '?')) ++ ['/'].intercalate kept
  kept_mem : ∀ segment ∈ kept, segment = [] ∨ segment ∈ segments text
  kept_keep : ∀ segment ∈ kept, fateOf segment = .keep

theorem fateOf_nil : fateOf [] = .keep := rfl

theorem exists_tidied (text : Text) :
    ∃ items front kept, Tidied text front kept ∧ kept = pile fateOf items ∧
      (items = segments text ∨
        items = segments text ++ [[]] ∧ ∀ before, segments text ≠ before ++ [[]]) := by
  obtain ⟨items, hitems, heq⟩ := removeDotSegments_eq text
  refine ⟨items, _, pile fateOf items, ⟨heq, rfl, ?_, ?_⟩, rfl, hitems⟩
  · intro segment hsegment
    have hmem := (mem_pile hsegment).1
    rcases hitems with rfl | ⟨rfl, _⟩
    · exact .inr hmem
    · rcases List.mem_append.mp hmem with hmem | hmem
      · exact .inr hmem
      · exact .inl (List.mem_singleton.mp hmem)
  · intro segment hsegment
    exact (mem_pile hsegment).2

namespace Tidied

variable {text front : Text} {kept : List Text}

theorem not_mem (h : Tidied text front kept) {segment : Text} (hsegment : segment ∈ kept) :
    '/' ∉ segment ∧ '?' ∉ segment := by
  rcases h.kept_mem segment hsegment with rfl | hmem
  · exact ⟨List.not_mem_nil, List.not_mem_nil⟩
  · exact not_mem_segments hmem

theorem not_mem_front (h : Tidied text front kept) : '?' ∉ front := by
  rw [h.front_eq, List.mem_append, not_or]
  constructor
  · rw [leadOf]
    split <;> decide
  · intro hmem
    rcases mem_intercalate hmem with hsep | ⟨segment, hsegment, hmem⟩
    · cases hsep
    · exact (h.not_mem hsegment).2 hmem

theorem mem_of_mem (h : Tidied text front kept) {c : Char}
    (hc : c ∈ Locator.removeDotSegments text) : c = '/' ∨ c ∈ text := by
  rw [h.result, List.mem_append] at hc
  rcases hc with hc | hc
  · rw [h.front_eq, List.mem_append] at hc
    rcases hc with hc | hc
    · rw [leadOf] at hc
      split at hc
      next => exact .inl (List.mem_singleton.mp hc)
      next => cases hc
    · rcases mem_intercalate hc with hslash | ⟨segment, hsegment, hmem⟩
      · exact .inl hslash
      · rcases h.kept_mem segment hsegment with rfl | hsegment
        · cases hmem
        · have hbody := bodyOf_subset _ (mem_piece hsegment hmem).1
          exact .inr (List.takeWhile_subset _ hbody)
  · exact .inr ((List.dropWhile_suffix _).subset hc)

theorem splitOn_front (h : Tidied text front kept) {segment : Text}
    (hsegment : segment ∈ front.splitOn '/') : fateOf segment = .keep := by
  have hjoin : ∀ {s}, s ∈ (['/'].intercalate kept).splitOn '/' → fateOf s = .keep := by
    intro s hs
    by_cases hnil : kept = []
    · rw [hnil, List.intercalate_nil, List.splitOn_nil, List.mem_singleton] at hs
      rw [hs]
      rfl
    · rw [List.splitOn_intercalate '/' (fun s hs => (h.not_mem hs).1) hnil] at hs
      exact h.kept_keep s hs
  rw [h.front_eq, leadOf] at hsegment
  split at hsegment
  next =>
    rw [List.singleton_append, List.splitOn_cons_eq_if_modifyHead,
      if_pos (beq_self_eq_true _)] at hsegment
    rcases List.mem_cons.mp hsegment with rfl | hsegment
    · rfl
    · exact hjoin hsegment
  next => exact hjoin hsegment

theorem head_tail {c : Char} (hc : (text.dropWhile (· ≠ '?')).head? = some c) : c = '?' := by
  simpa using head_dropWhile hc

/-- Clause 4 once more changes nothing. -/
theorem removeDotSegments (h : Tidied text front kept) :
    removeDotSegments (Locator.removeDotSegments text) = Locator.removeDotSegments text := by
  rw [h.result]
  exact removeDotSegments_of_keep h.not_mem_front (fun _ => head_tail) fun _ => h.splitOn_front

end Tidied

theorem normalizePercent_intercalate (pieces : List Text) :
    normalizePercent (['/'].intercalate pieces) =
      ['/'].intercalate (pieces.map normalizePercent) := by
  induction pieces with
  | nil => rfl
  | cons first pieces ih =>
    cases pieces with
    | nil => rw [List.intercalate_singleton, List.map_singleton, List.intercalate_singleton]
    | cons second pieces =>
      rw [List.intercalate_cons_cons, List.append_assoc, List.singleton_append,
        normalizePercent_append (by decide), ih]
      simp only [List.map_cons]
      rw [List.intercalate_cons_cons, List.append_assoc, List.singleton_append]

theorem settled_intercalate {pieces : List Text} :
    Settled (['/'].intercalate pieces) ↔ ∀ piece ∈ pieces, Settled piece := by
  induction pieces with
  | nil => exact ⟨fun _ => List.forall_mem_nil _, fun _ => rfl⟩
  | cons first pieces ih =>
    cases pieces with
    | nil => rw [List.intercalate_singleton, List.forall_mem_singleton]
    | cons second pieces =>
      rw [List.intercalate_cons_cons, List.append_assoc, List.singleton_append,
        settled_append (by decide), ih, List.forall_mem_cons (a := first)]

theorem cut_query (text : Text) :
    text.dropWhile (· ≠ '?') = [] ∧ text.takeWhile (· ≠ '?') = text ∨
      ∃ tail, text.dropWhile (· ≠ '?') = '?' :: tail ∧
        text = text.takeWhile (· ≠ '?') ++ '?' :: tail := by
  have happend : text.takeWhile (· ≠ '?') ++ text.dropWhile (· ≠ '?') = text :=
    List.takeWhile_append_dropWhile
  cases htail : text.dropWhile (· ≠ '?') with
  | nil =>
    rw [htail, List.append_nil] at happend
    exact .inl ⟨rfl, happend⟩
  | cons c tail =>
    obtain rfl : c = '?' := Tidied.head_tail (by rw [htail]; rfl)
    rw [htail] at happend
    exact .inr ⟨tail, rfl, happend.symm⟩

theorem settled_cut {text : Text} :
    Settled text ↔ Settled (text.takeWhile (· ≠ '?')) ∧ Settled (text.dropWhile (· ≠ '?')) := by
  rcases cut_query text with ⟨htail, hfront⟩ | ⟨tail, htail, htext⟩
  · rw [htail, hfront]
    exact ⟨fun h => ⟨h, rfl⟩, fun h => h.1⟩
  · have hquery : Settled ('?' :: tail) ↔ Settled tail := by
      have := @settled_append '?' (by decide) [] tail
      rw [List.nil_append] at this
      exact this.trans ⟨fun h => h.2, fun h => ⟨rfl, h⟩⟩
    rw [htail, hquery]
    conv_lhs => rw [htext]
    exact settled_append (by decide)

theorem settled_leadOf {path body : Text} : Settled (leadOf path ++ body) ↔ Settled body := by
  rw [leadOf]
  split
  next =>
    have := @settled_append '/' (by decide) [] body
    exact this.trans ⟨fun h => h.2, fun h => ⟨rfl, h⟩⟩
  next => rw [List.nil_append]

theorem settled_segments {text segment : Text} (h : Settled text)
    (hsegment : segment ∈ segments text) : Settled segment := by
  have hbody := (settled_cut.mp h).1
  rw [← leadOf_append_bodyOf (text.takeWhile _), settled_leadOf] at hbody
  have hjoin : ['/'].intercalate (segments text) = bodyOf (text.takeWhile (· ≠ '?')) :=
    List.intercalate_splitOn '/'
  rw [← hjoin, settled_intercalate] at hbody
  exact hbody segment hsegment

theorem Tidied.settled {text front : Text} {kept : List Text} (h : Tidied text front kept)
    (hsettled : Settled text) : Settled (Locator.removeDotSegments text) := by
  have htail := (settled_cut.mp hsettled).2
  have hfront : Settled front := by
    rw [h.front_eq, settled_leadOf, settled_intercalate]
    intro segment hsegment
    rcases h.kept_mem segment hsegment with rfl | hmem
    · rfl
    · exact settled_segments hsettled hmem
  rw [h.result]
  rcases cut_query text with ⟨hnil, _⟩ | ⟨tail, hcons, _⟩
  · rwa [hnil, List.append_nil]
  · rw [hcons] at htail ⊢
    have hquery := (@settled_append '?' (by decide) [] tail).mp htail
    exact (settled_append (by decide)).mpr ⟨hfront, hquery.2⟩

theorem cons_of_normalizePercent {c : Char} (hc : Separates c) {text rest : Text}
    (h : normalizePercent text = c :: rest) :
    ∃ text', text = c :: text' ∧ rest = normalizePercent text' := by
  cases text using percentInduction with
  | nil => cases h
  | decoded a b tail hi lo ha hb hd =>
    rw [normalizePercent_decoded ha hb hd] at h
    exact absurd (List.cons.inj h).1 ((decoded_ne hd).2 c hc)
  | spelled a b tail hi lo ha hb hd =>
    rw [normalizePercent_spelled ha hb hd] at h
    exact absurd (List.cons.inj h).1.symm hc.percent
  | lone x tail hlone =>
    rw [normalizePercent_lone hlone] at h
    obtain ⟨rfl, rfl⟩ := List.cons.inj h
    exact ⟨tail, rfl, rfl⟩

theorem prefix_of_normalizePercent {sep text : Text} (hsep : ∀ c ∈ sep, Separates c)
    (h : sep <+: normalizePercent text) : sep <+: text := by
  induction sep generalizing text with
  | nil => exact List.nil_prefix
  | cons c sep ih =>
    obtain ⟨rest, hrest⟩ := h
    obtain ⟨text', rfl, hpass⟩ :=
      cons_of_normalizePercent (hsep c List.mem_cons_self) hrest.symm
    rw [List.cons_prefix_cons]
    exact ⟨rfl, ih (fun d hd => hsep d (List.mem_cons_of_mem _ hd)) ⟨rest, hpass⟩⟩

theorem infix_of_normalizePercent {sep text : Text} (hsep : ∀ c ∈ sep, Separates c)
    (hne : sep ≠ []) (h : sep <:+: normalizePercent text) : sep <:+: text := by
  obtain ⟨c, sep, rfl⟩ := List.exists_cons_of_ne_nil hne
  have hc := hsep c List.mem_cons_self
  have hlater : ∀ {d : Char} {rest : Text}, d ≠ c → c :: sep <:+: d :: rest →
      c :: sep <:+: rest := by
    intro d rest hd hinfix
    rcases List.infix_cons_iff.mp hinfix with hprefix | hinfix
    · rw [List.cons_prefix_cons] at hprefix
      exact absurd hprefix.1.symm hd
    · exact hinfix
  induction text using percentInduction with
  | nil => exact h
  | decoded a b rest hi lo ha hb hd ih =>
    rw [normalizePercent_decoded ha hb hd] at h
    have hrest := ih (hlater ((decoded_ne hd).2 c hc) h)
    exact hrest.trans ⟨['%', a, b], [], by simp⟩
  | spelled a b rest hi lo ha hb hd ih =>
    rw [normalizePercent_spelled ha hb hd] at h
    have hrest := ih (hlater ((hiHex_ne (hexValue_eq_some hb).1).2 c hc)
      (hlater ((hiHex_ne (hexValue_eq_some ha).1).2 c hc) (hlater hc.percent.symm h)))
    exact hrest.trans ⟨['%', a, b], [], by simp⟩
  | lone x rest hlone ih =>
    rw [normalizePercent_lone hlone] at h
    rcases List.infix_cons_iff.mp h with hprefix | hinfix
    · rw [← normalizePercent_lone hlone] at hprefix
      exact (prefix_of_normalizePercent hsep hprefix).isInfix
    · exact (ih hinfix).trans ⟨[x], [], by simp⟩

theorem segments_normalizePercent (text : Text) :
    segments (normalizePercent text) = (segments text).map normalizePercent := by
  have hcut : (normalizePercent text).takeWhile (· ≠ '?') =
      normalizePercent (text.takeWhile (· ≠ '?')) := by
    have hnot : '?' ∉ normalizePercent (text.takeWhile (· ≠ '?')) :=
      not_mem_normalizePercent (by decide) not_mem_takeWhile
    have hspan : ∀ tail, (∀ c, tail.head? = some c → c = '?') →
        (normalizePercent (text.takeWhile (· ≠ '?')) ++ tail).takeWhile (· ≠ '?') =
          normalizePercent (text.takeWhile (· ≠ '?')) := fun tail htail =>
      (span_append (fun x hx => decide_eq_true (ne_of_mem_of_not_mem hx hnot))
        fun x hx => by simp [htail x hx]).1
    rcases cut_query text with ⟨_, hfront⟩ | ⟨tail, _, htext⟩
    · have hall := hspan [] nofun
      rw [List.append_nil] at hall
      rwa [hfront] at hall ⊢
    · conv_lhs => rw [htext, normalizePercent_append (by decide)]
      exact hspan _ fun c hc => (Option.some.inj hc).symm
  have hbody : ∀ path, bodyOf (normalizePercent path) = normalizePercent (bodyOf path) := by
    intro path
    rw [bodyOf, bodyOf]
    by_cases hhead : path.head? = some '/'
    · cases path with
      | nil => cases hhead
      | cons c rest =>
        cases hhead
        rw [normalizePercent_lone (.of_ne (by decide))]
        rfl
    · rw [if_neg hhead, if_neg]
      intro hpass
      obtain ⟨rest, hrest⟩ := List.head?_eq_some_iff.mp hpass
      obtain ⟨text', rfl, _⟩ := cons_of_normalizePercent (by decide) hrest
      exact hhead rfl
  rw [segments, segments, hcut, hbody]
  generalize bodyOf (text.takeWhile (· ≠ '?')) = body
  have hjoin : ['/'].intercalate (body.splitOn '/') = body := List.intercalate_splitOn '/'
  conv_lhs => rw [← hjoin, normalizePercent_intercalate]
  refine List.splitOn_intercalate '/' ?_ ?_
  · intro piece hpiece
    obtain ⟨segment, hsegment, rfl⟩ := List.mem_map.mp hpiece
    exact not_mem_normalizePercent (by decide) fun hmem => (mem_piece hsegment hmem).2 rfl
  · rw [Ne, List.map_eq_nil_iff]
    exact List.splitOn_ne_nil '/' body

end Tracefold.Locator
