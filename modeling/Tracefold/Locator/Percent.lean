import Mathlib.Tactic.Common
import Mathlib.Tactic.IntervalCases
import Tracefold.Locator

/-! Percent triplets: where a second pass over them finds nothing to change. -/

namespace Tracefold.Locator

open Library.Text

theorem not_mem_takeWhile {text : Text} {c : Char} : c ∉ text.takeWhile (· ≠ c) := by
  intro h
  have hkept := List.all_eq_true.mp List.all_takeWhile c h
  simp at hkept

theorem toNat_ofNat {n : ℕ} (h : n < 55296) : (Char.ofNat n).toNat = n := by
  have hvalid : n.isValidChar := .inl h
  rw [Char.ofNat, dif_pos hvalid]
  rfl

theorem eq_ofNat {c : Char} {n : ℕ} (h : c.toNat = n) : c = Char.ofNat n := by
  rw [← h, Char.ofNat_toNat]

theorem hexValue_eq_some {c : Char} {v : ℕ} (h : hexValue c = some v) :
    v < 16 ∧ c ≠ '%' ∧ hexValue (hiHex v) = some v ∧ hexValue c.toLower = some v ∧
      (hiHex v).toLower = c.toLower := by
  have hrange : 48 ≤ c.toNat ∧ c.toNat ≤ 57 ∨ 97 ≤ c.toNat ∧ c.toNat ≤ 102 ∨
      65 ≤ c.toNat ∧ c.toNat ≤ 70 := by
    unfold hexValue at h
    split at h
    next hdigit => exact .inl hdigit
    next =>
      split at h
      next hlower => exact .inr (.inl hlower)
      next =>
        split at h
        next hupper => exact .inr (.inr hupper)
        next => cases h
  generalize hn : c.toNat = n at hrange
  obtain rfl := eq_ofNat hn
  rcases hrange with ⟨h₁, h₂⟩ | ⟨h₁, h₂⟩ | ⟨h₁, h₂⟩ <;> interval_cases n <;> cases h <;> decide

theorem upper_or_toLower_eq (c : Char) :
    (65 ≤ c.toNat ∧ c.toNat ≤ 90) ∨ c.toLower = c := by
  by_cases hupper : 65 ≤ c.toNat ∧ c.toNat ≤ 90
  · exact .inl hupper
  · right
    unfold Char.toLower
    rw [dif_neg]
    exact hupper

theorem toLower_toLower (c : Char) : c.toLower.toLower = c.toLower := by
  rcases upper_or_toLower_eq c with ⟨h₁, h₂⟩ | hsame
  · generalize hn : c.toNat = n at h₁ h₂
    obtain rfl := eq_ofNat hn
    clear hn
    interval_cases n <;> decide
  · rw [hsame, hsame]

theorem hexValue_toLower (c : Char) : hexValue c.toLower = hexValue c := by
  cases h : hexValue c with
  | some v => exact (hexValue_eq_some h).2.2.2.1
  | none =>
    rcases upper_or_toLower_eq c with ⟨h₁, h₂⟩ | hsame
    · generalize hn : c.toNat = n at h₁ h₂
      obtain rfl := eq_ofNat hn
      clear hn
      interval_cases n <;> first | rfl | cases h
    · rw [hsame, h]

theorem toLower_eq_iff {c : Char} (hc : ¬ (97 ≤ c.toNat ∧ c.toNat ≤ 122))
    (hc' : ¬ (65 ≤ c.toNat ∧ c.toNat ≤ 90)) (d : Char) : d.toLower = c ↔ d = c := by
  rcases upper_or_toLower_eq d with ⟨h₁, h₂⟩ | hsame
  · constructor
    · rintro rfl
      exfalso
      generalize hn : d.toNat = n at h₁ h₂
      obtain rfl := eq_ofNat hn
      clear hn
      interval_cases n <;> exact hc (by decide)
    · rintro rfl
      exact absurd ⟨h₁, h₂⟩ hc'
  · rw [hsame]

/-- A character that no triplet is made of and no triplet is decoded to. -/
structure Separates (c : Char) : Prop where
  percent : c ≠ '%'
  digit : hexValue c = none
  reserved : isUnreserved c.toNat = false

instance (c : Char) : Decidable (Separates c) :=
  decidable_of_iff (c ≠ '%' ∧ hexValue c = none ∧ isUnreserved c.toNat = false)
    ⟨fun h => ⟨h.1, h.2.1, h.2.2⟩, fun h => ⟨h.percent, h.digit, h.reserved⟩⟩

theorem isUnreserved_lt {n : ℕ} (h : isUnreserved n = true) : n < 128 := by
  simp only [isUnreserved, decide_eq_true_eq] at h
  omega

theorem decoded_ne {n : ℕ} (h : isUnreserved n = true) :
    Char.ofNat n ≠ '%' ∧ ∀ c, Separates c → Char.ofNat n ≠ c := by
  have hnat : (Char.ofNat n).toNat = n := toNat_ofNat (by have := isUnreserved_lt h; omega)
  refine ⟨fun heq => ?_, fun c hc heq => ?_⟩
  · rw [heq] at hnat
    rw [← hnat] at h
    cases h
  · rw [heq] at hnat
    rw [← hnat, hc.reserved] at h
    cases h

theorem hiHex_ne {v : ℕ} (h : v < 16) : hiHex v ≠ '%' ∧ ∀ c, Separates c → hiHex v ≠ c := by
  have hsome : hexValue (hiHex v) = some v := by interval_cases v <;> decide
  refine ⟨(hexValue_eq_some hsome).2.1, fun c hc heq => ?_⟩
  rw [heq, hc.digit] at hsome
  cases hsome

/-- A character that starts no triplet. -/
def Lone (c : Char) (rest : Text) : Prop :=
  ∀ a b rest', c = '%' → rest = a :: b :: rest' → ¬ ((hexValue a).isSome ∧ (hexValue b).isSome)

theorem Lone.of_ne {c : Char} {rest : Text} (h : c ≠ '%') : Lone c rest :=
  fun _ _ _ hc _ => absurd hc h

section Equations

variable {a b c : Char} {hi lo : ℕ} {rest : Text}

theorem normalizePercent_decoded (ha : hexValue a = some hi) (hb : hexValue b = some lo)
    (h : isUnreserved (hi * 16 + lo) = true) :
    normalizePercent ('%' :: a :: b :: rest) =
      Char.ofNat (hi * 16 + lo) :: normalizePercent rest := by
  rw [normalizePercent]
  simp only [ha, hb, h, if_true]

theorem normalizePercent_spelled (ha : hexValue a = some hi) (hb : hexValue b = some lo)
    (h : isUnreserved (hi * 16 + lo) = false) :
    normalizePercent ('%' :: a :: b :: rest) =
      '%' :: hiHex hi :: hiHex lo :: normalizePercent rest := by
  rw [normalizePercent]
  simp only [ha, hb, h, Bool.false_eq_true, if_false]

theorem normalizePercent_lone (h : Lone c rest) :
    normalizePercent (c :: rest) = c :: normalizePercent rest := by
  rw [normalizePercent.eq_def]
  dsimp only
  split
  next a b rest' =>
    split
    next hi lo ha hb => exact absurd ⟨by rw [ha]; rfl, by rw [hb]; rfl⟩ (h a b rest' rfl rfl)
    next => rfl
  next => rfl

end Equations

@[elab_as_elim]
theorem percentInduction {motive : Text → Prop} (nil : motive [])
    (decoded : ∀ a b rest hi lo, hexValue a = some hi → hexValue b = some lo →
      isUnreserved (hi * 16 + lo) = true → motive rest → motive ('%' :: a :: b :: rest))
    (spelled : ∀ a b rest hi lo, hexValue a = some hi → hexValue b = some lo →
      isUnreserved (hi * 16 + lo) = false → motive rest → motive ('%' :: a :: b :: rest))
    (lone : ∀ c rest, Lone c rest → motive rest → motive (c :: rest)) (text : Text) :
    motive text := by
  induction text using normalizePercent.induct with
  | case1 => exact nil
  | case2 a b rest hi lo hb ha h ih => exact decoded a b rest hi lo ha hb h ih
  | case3 a b rest hi lo hb ha h ih =>
    exact spelled a b rest hi lo ha hb (Bool.not_eq_true _ ▸ h) ih
  | case4 a b rest h ih =>
    refine lone '%' _ (fun a' b' rest' _ heq hsome => ?_) ih
    cases heq
    obtain ⟨hi, ha⟩ := Option.isSome_iff_exists.mp hsome.1
    obtain ⟨lo, hb⟩ := Option.isSome_iff_exists.mp hsome.2
    exact h hi lo ha hb
  | case5 c rest h ih => exact lone c rest (fun a b rest' hc heq => (h a b rest' hc heq).elim) ih

variable {text : Text}

theorem length_normalizePercent_le (text : Text) :
    (normalizePercent text).length ≤ text.length := by
  induction text using percentInduction with
  | nil => exact le_rfl
  | decoded a b rest hi lo ha hb h ih =>
    rw [normalizePercent_decoded ha hb h]
    simp only [List.length_cons]
    omega
  | spelled a b rest hi lo ha hb h ih =>
    rw [normalizePercent_spelled ha hb h]
    simp only [List.length_cons]
    omega
  | lone c rest h ih =>
    rw [normalizePercent_lone h]
    simp only [List.length_cons]
    omega

/-- A pass does not reach across a separator. -/
theorem normalizePercent_append {c : Char} (hc : Separates c) (a b : Text) :
    normalizePercent (a ++ c :: b) = normalizePercent a ++ c :: normalizePercent b := by
  induction a using percentInduction with
  | nil => exact normalizePercent_lone (.of_ne hc.percent)
  | decoded x y rest hi lo hx hy h ih =>
    rw [List.cons_append, List.cons_append, List.cons_append, normalizePercent_decoded hx hy h, ih,
      normalizePercent_decoded hx hy h, List.cons_append]
  | spelled x y rest hi lo hx hy h ih =>
    rw [List.cons_append, List.cons_append, List.cons_append, normalizePercent_spelled hx hy h, ih,
      normalizePercent_spelled hx hy h, List.cons_append, List.cons_append, List.cons_append]
  | lone x rest h ih =>
    have hlone : Lone x (rest ++ c :: b) := by
      intro x' y' rest' hx heq hsome
      match rest, heq with
      | [], heq =>
        cases heq
        rw [hc.digit] at hsome
        cases hsome.1
      | [z], heq =>
        cases heq
        rw [hc.digit] at hsome
        cases hsome.2
      | z :: z' :: rest, heq =>
        cases heq
        exact h x' y' rest hx rfl hsome
    rw [List.cons_append, normalizePercent_lone hlone, ih, normalizePercent_lone h, List.cons_append]

theorem not_mem_normalizePercent {c : Char} (hc : Separates c) (h : c ∉ text) :
    c ∉ normalizePercent text := by
  induction text using percentInduction with
  | nil => exact h
  | decoded a b rest hi lo ha hb hd ih =>
    rw [normalizePercent_decoded ha hb hd]
    simp only [List.mem_cons, not_or] at h ⊢
    exact ⟨((decoded_ne hd).2 c hc).symm, ih h.2.2.2⟩
  | spelled a b rest hi lo ha hb hd ih =>
    rw [normalizePercent_spelled ha hb hd]
    simp only [List.mem_cons, not_or] at h ⊢
    exact ⟨hc.percent, ((hiHex_ne (hexValue_eq_some ha).1).2 c hc).symm,
      ((hiHex_ne (hexValue_eq_some hb).1).2 c hc).symm, ih h.2.2.2⟩
  | lone x rest hlone ih =>
    rw [normalizePercent_lone hlone]
    simp only [List.mem_cons, not_or] at h ⊢
    exact ⟨h.1, ih h.2⟩

/-- A text that a pass leaves as it is. -/
def Settled (text : Text) : Prop := normalizePercent text = text

theorem settled_append {c : Char} (hc : Separates c) {a b : Text} :
    Settled (a ++ c :: b) ↔ Settled a ∧ Settled b := by
  unfold Settled
  rw [normalizePercent_append hc]
  refine ⟨fun h => ?_, fun h => by rw [h.1, h.2]⟩
  have hlength := congrArg List.length h
  simp only [List.length_append, List.length_cons] at hlength
  have ha := length_normalizePercent_le a
  have hb := length_normalizePercent_le b
  obtain ⟨h₁, h₂⟩ := List.append_inj h (by omega)
  exact ⟨h₁, (List.cons.inj h₂).2⟩

/-- The first character a pass writes, and what it goes on with. -/
def written : Text → Option (Char × Text)
  | [] => none
  | c :: rest =>
    match c, rest with
    | '%', a :: b :: rest' =>
      match hexValue a, hexValue b with
      | some hi, some lo =>
        some (if isUnreserved (hi * 16 + lo) then Char.ofNat (hi * 16 + lo) else '%', rest')
      | _, _ => some ('%', a :: b :: rest')
    | c, rest => some (c, rest)

/-- Behind a `%` that starts no triplet, a pass writes two digits that make one of it, and one that
a second pass changes. -/
def rejoins (rest : Text) : Bool :=
  match written rest with
  | none => false
  | some (a, rest) =>
    match written rest with
    | none => false
    | some (b, _) =>
      match hexValue a, hexValue b with
      | some hi, some lo => isUnreserved (hi * 16 + lo) || a ≠ hiHex hi || b ≠ hiHex lo
      | _, _ => false

/-- Somewhere a `%` that starts no triplet comes to start one. -/
def late : Text → Bool
  | [] => false
  | c :: rest =>
    match c, rest with
    | '%', a :: b :: rest' =>
      match hexValue a, hexValue b with
      | some _, some _ => late rest'
      | _, _ => rejoins (a :: b :: rest') || late (a :: b :: rest')
    | _, rest => late rest

theorem late_triplet {a b : Char} {rest : Text} {hi lo : ℕ} (ha : hexValue a = some hi)
    (hb : hexValue b = some lo) : late ('%' :: a :: b :: rest) = late rest := by
  rw [late]
  simp only [ha, hb]

theorem late_lone {c : Char} {rest : Text} (h : Lone c rest) (hlate : late (c :: rest) = false) :
    late rest = false ∧ (c = '%' → rejoins rest = false) := by
  rw [late.eq_def] at hlate
  dsimp only at hlate
  split at hlate
  next a b rest' =>
    split at hlate
    next hi lo ha hb => exact absurd ⟨by rw [ha]; rfl, by rw [hb]; rfl⟩ (h a b rest' rfl rfl)
    next =>
      rw [Bool.or_eq_false_iff] at hlate
      exact ⟨hlate.2, fun _ => hlate.1⟩
  next hshort =>
    refine ⟨hlate, fun hc => ?_⟩
    match rest, hshort with
    | [], _ => rfl
    | [x], _ => simp [rejoins, written]
    | a :: b :: rest', hshort => exact (hshort a b rest' hc rfl).elim

theorem written_of_digit {rest : Text} {a : Char} (ha : (hexValue a).isSome)
    (h : normalizePercent text = a :: rest) :
    ∃ text', written text = some (a, text') ∧ rest = normalizePercent text' := by
  have hpercent : a ≠ '%' := by
    rintro rfl
    cases ha
  cases text using percentInduction with
  | nil => cases h
  | decoded x y tail hi lo hx hy hd =>
    rw [normalizePercent_decoded hx hy hd] at h
    obtain ⟨rfl, rfl⟩ := List.cons.inj h
    refine ⟨tail, ?_, rfl⟩
    rw [written]
    simp only [hx, hy, hd, if_true]
  | spelled x y tail hi lo hx hy hd =>
    rw [normalizePercent_spelled hx hy hd] at h
    exact absurd (List.cons.inj h).1.symm hpercent
  | lone c tail hlone =>
    rw [normalizePercent_lone hlone] at h
    obtain ⟨rfl, rfl⟩ := List.cons.inj h
    refine ⟨tail, ?_, rfl⟩
    rw [written.eq_def]
    dsimp only
    split
    next => exact absurd rfl hpercent
    next => rfl

theorem not_rejoins {a b : Char} {rest : Text} {hi lo : ℕ} (h : rejoins text = false)
    (hpass : normalizePercent text = a :: b :: rest) (ha : hexValue a = some hi)
    (hb : hexValue b = some lo) :
    isUnreserved (hi * 16 + lo) = false ∧ a = hiHex hi ∧ b = hiHex lo := by
  obtain ⟨text', hfirst, hrest⟩ := written_of_digit (by rw [ha]; rfl) hpass
  obtain ⟨text'', hsecond, _⟩ := written_of_digit (by rw [hb]; rfl) hrest.symm
  simp only [rejoins, hfirst, hsecond, ha, hb, Bool.or_eq_false_iff] at h
  simpa using and_assoc.mp h

/-- A second pass changes nothing of a text that makes no triplet late. -/
theorem settled_normalizePercent (h : late text = false) : Settled (normalizePercent text) := by
  unfold Settled
  induction text using percentInduction with
  | nil => rfl
  | decoded a b rest hi lo ha hb hd ih =>
    rw [late_triplet ha hb] at h
    rw [normalizePercent_decoded ha hb hd, normalizePercent_lone (.of_ne (decoded_ne hd).1), ih h]
  | spelled a b rest hi lo ha hb hd ih =>
    rw [late_triplet ha hb] at h
    rw [normalizePercent_spelled ha hb hd, normalizePercent_spelled (hexValue_eq_some ha).2.2.1
      (hexValue_eq_some hb).2.2.1 hd, ih h]
  | lone c rest hlone ih =>
    obtain ⟨hrest, hrejoins⟩ := late_lone hlone h
    rw [normalizePercent_lone hlone]
    by_cases hnow : Lone c (normalizePercent rest)
    · rw [normalizePercent_lone hnow, ih hrest]
    · simp only [Lone, not_forall, not_not] at hnow
      obtain ⟨a, b, tail, rfl, htail, hsome⟩ := hnow
      obtain ⟨hi, ha⟩ := Option.isSome_iff_exists.mp hsome.1
      obtain ⟨lo, hb⟩ := Option.isSome_iff_exists.mp hsome.2
      obtain ⟨hd, hhi, hlo⟩ := not_rejoins (hrejoins rfl) htail ha hb
      have hsettled := ih hrest
      rw [htail, normalizePercent_lone (.of_ne (hexValue_eq_some ha).2.1),
        normalizePercent_lone (.of_ne (hexValue_eq_some hb).2.1)] at hsettled
      have htail' := (List.cons.inj (List.cons.inj hsettled).2).2
      rw [htail, normalizePercent_spelled ha hb hd, htail', ← hhi, ← hlo]

/-- Lower case and a pass over a settled text, and lower case again. -/
theorem toAsciiLowercase_settled (h : Settled text) :
    toAsciiLowercase (normalizePercent (toAsciiLowercase text)) = toAsciiLowercase text := by
  unfold Settled at h
  unfold toAsciiLowercase
  have hlower : Char.toLower '%' = '%' := by decide
  induction text using percentInduction with
  | nil => rfl
  | decoded a b rest hi lo ha hb hd ih =>
    have hlength := congrArg List.length h
    rw [normalizePercent_decoded ha hb hd] at hlength
    have hle := length_normalizePercent_le rest
    simp only [List.length_cons] at hlength
    omega
  | spelled a b rest hi lo ha hb hd ih =>
    rw [normalizePercent_spelled ha hb hd] at h
    simp only [List.cons.injEq, true_and] at h
    obtain ⟨_, _, _, ha', haa⟩ := hexValue_eq_some ha
    obtain ⟨_, _, _, hb', hbb⟩ := hexValue_eq_some hb
    rw [List.map_cons, List.map_cons, List.map_cons, hlower, normalizePercent_spelled ha' hb' hd,
      List.map_cons, List.map_cons, List.map_cons, hlower, ih h.2.2, haa, hbb]
  | lone c rest hlone ih =>
    rw [normalizePercent_lone hlone] at h
    have hlone' : Lone c.toLower (rest.map Char.toLower) := by
      intro a b tail hc heq hsome
      match rest, heq with
      | a' :: b' :: rest', heq =>
        simp only [List.map_cons, List.cons.injEq] at heq
        rw [← heq.1, ← heq.2.1, hexValue_toLower, hexValue_toLower] at hsome
        exact hlone a' b' rest' ((toLower_eq_iff (by decide) (by decide) c).mp hc) rfl hsome
    rw [List.map_cons, normalizePercent_lone hlone', List.map_cons, ih (List.cons.inj h).2,
      toLower_toLower]

end Tracefold.Locator
