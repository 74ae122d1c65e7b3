import Mathlib.Tactic.Common
import Tracefold.Cbor.Scan

/-! Where the value of a key stands in the bytes of a map. -/

namespace Tracefold.DagCbor

open Library Library.Scan

/-- `Scan::text_content_of`: the bytes of an encoded text after its header. -/
def textContentOf (encoded : Bytes) : Option Bytes := do
  let first ← encoded.head?
  if (first >>> 5).toNat ≠ 3 then none
  else
    let header ← width (first &&& 0x1f).toNat
    if header ≤ encoded.length then some (encoded.drop header) else none
where
  width (ai : ℕ) : Option ℕ :=
    if ai ≤ 23 then some 1
    else if ai = 24 then some 2
    else if ai = 25 then some 3
    else if ai = 26 then some 5
    else if ai = 27 then some 9
    else none

section Walk

variable (b : Bytes)

/-- The entries of a map, and the span of the first one whose key is the one looked for. -/
def spanEntries (inner : Scan Error Unit) (key : String) :
    ℕ → Option Bytes → Option (ℕ × ℕ) → Scan Error (Option (ℕ × ℕ))
  | 0, _, found => pure found
  | entries + 1, previous, found => do
    let encodedKey ← mapKey b inner previous
    let valueAt ← get
    inner
    let valueEnd ← get
    spanEntries inner key entries (some encodedKey)
      (if found.isNone ∧ textContentOf encodedKey = some (utf8 key) then some (valueAt, valueEnd)
      else found)

def valueSpanOf (key : String) (room : ℕ) : Scan Error (Option (ℕ × ℕ)) := do
  let (major, arg, start) ← head b
  if major ≠ 5 then throw (.nonTextMapKey start major)
  else spanEntries b (item b room) key arg none none

def valueSpan (key : String) : Except Error (Option (ℕ × ℕ)) :=
  whole b (valueSpanOf b key maxDepth)

end Walk

theorem width_info {n : ℕ} (h : n < 2 ^ 64) :
    textContentOf.width (info n) = some (1 + (extension n).length) := by
  rcases info_cases h with ⟨hlt, hinfo, hext⟩ | ⟨width, low, hwide, _, _, hext⟩
  · rw [hinfo, hext, textContentOf.width, if_pos (by omega)]
    rfl
  · rw [hext, length_beBytes]
    generalize info n = ai at hwide
    cases hwide <;> rfl

theorem textContentOf_encodeText {text : String} (h : (utf8 text).length < 2 ^ 64) :
    textContentOf (encodeText text) = some (utf8 text) := by
  have hfirst : (initial 3 (info (utf8 text).length) >>> 5).toNat = 3 ∧
      (initial 3 (info (utf8 text).length) &&& 0x1f).toNat = info (utf8 text).length :=
    (eq_initial (by decide) (info_lt _)).mp rfl
  have hlength : (headBytes 3 (utf8 text).length).length = 1 + (extension (utf8 text).length).length := by
    rw [headBytes, List.length_cons, Nat.add_comm]
  rw [textContentOf, encodeText, headBytes, List.cons_append, List.head?_cons, Option.bind_eq_bind,
    Option.bind_some, if_neg (not_not.mpr hfirst.1), hfirst.2, width_info h, Option.bind_eq_bind,
    Option.bind_some, ← List.cons_append, ← headBytes, ← hlength, List.drop_left, if_pos]
  rw [List.length_append]
  exact Nat.le_add_right _ _

theorem textContentOf_iff {text key : String} (h : (utf8 text).length < 2 ^ 64) :
    textContentOf (encodeText text) = some (utf8 key) ↔ text = key := by
  rw [textContentOf_encodeText h, Option.some.injEq]
  exact utf8_injective.eq_iff

/-- Where the value of a key stands among entries that start at a position. -/
def spanIn (key : String) : ℕ → List (String × Value) → Option (ℕ × ℕ)
  | _, [] => none
  | i, (text, v) :: entries =>
    let valueAt := i + (encodeText text).length
    if text = key then some (valueAt, valueAt + v.encode.length)
    else spanIn key (valueAt + v.encode.length) entries

section Reads

variable {b : Bytes} {i j n : ℕ} {key : String}

theorem ends_spanEntries {x : Scan Error Unit} {room : ℕ} (hx : ReadsItem b room x)
    {previous : Option Bytes} {found r : Option (ℕ × ℕ)} :
    Ends (spanEntries b x key n previous found) i r j ↔
      ∃ entries : List (String × Value), entries.length = n ∧ EntriesAfter room previous entries ∧
        Stands b i (entries.flatMap encodeEntry) j ∧ found.or (spanIn key i entries) = r := by
  induction n generalizing i previous found with
  | zero =>
    rw [spanEntries, ends_pure]
    constructor
    · rintro ⟨rfl, rfl⟩
      exact ⟨[], rfl, .nil room previous, .nil, Option.or_none⟩
    · rintro ⟨entries, hlength, _, hstands, hspan⟩
      obtain rfl := List.length_eq_zero_iff.mp hlength
      rw [List.flatMap_nil, Stands.nil_iff] at hstands
      rw [spanIn, Option.or_none] at hspan
      exact ⟨hspan, hstands.symm⟩
  | succ n ih =>
    rw [spanEntries]
    simp only [ends_bind, ends_mapKey hx, ends_get, ih]
    have hstep : ∀ {text : String} {v : Value} {entries : List (String × Value)} {k m : ℕ},
        (utf8 text).length < 2 ^ 64 → Stands b i (encodeText text) k → Stands b k v.encode m →
        (if found.isNone ∧ textContentOf (encodeText text) = some (utf8 key) then some (k, m)
          else found).or (spanIn key m entries) = found.or (spanIn key i ((text, v) :: entries)) := by
      rintro text v entries _ _ htext ⟨rfl, _⟩ ⟨rfl, _⟩
      simp only [textContentOf_iff htext, spanIn]
      cases found with
      | some span => simp
      | none =>
        by_cases hkey : text = key
        · simp [hkey]
        · simp [hkey]
    constructor
    · rintro ⟨_, k, ⟨text, hkey, rfl, hstands⟩, _, _, ⟨rfl, rfl⟩, ⟨⟩, m, hitem, _, _, ⟨rfl, rfl⟩,
        entries, hlength, hentries, hrest, rfl⟩
      obtain ⟨v, hfits, hvalue⟩ := (hx _ _).mp hitem
      refine ⟨(text, v) :: entries, by rw [List.length_cons, hlength],
        EntriesAfter.cons_iff.mpr ⟨hkey, hfits, hentries⟩, (hstands.append hvalue).append hrest, ?_⟩
      exact (hstep (Value.fits_text.mp hkey.fits).1 hstands hvalue).symm
    · rintro ⟨entries, hlength, hentries, hstands, rfl⟩
      cases entries with
      | nil => cases hlength
      | cons e entries =>
        obtain ⟨text, v⟩ := e
        obtain ⟨hkey, hfits, hrest⟩ := EntriesAfter.cons_iff.mp hentries
        rw [List.flatMap_cons, encodeEntry, List.append_assoc, Stands.append_iff] at hstands
        obtain ⟨k, htext, hstands⟩ := hstands
        obtain ⟨m, hvalue, hstands⟩ := Stands.append_iff.mp hstands
        exact ⟨_, k, ⟨text, hkey, rfl, htext⟩, k, k, ⟨rfl, rfl⟩, ⟨⟩, m,
          (hx _ _).mpr ⟨v, hfits, hvalue⟩, m, m, ⟨rfl, rfl⟩, entries, Nat.succ.inj hlength, hrest,
          hstands, hstep (Value.fits_text.mp hkey.fits).1 htext hvalue⟩

/-- The walk answers over the bytes of a map, and answers where the first entry of the key is. -/
theorem valueSpan_ok {r : Option (ℕ × ℕ)} : valueSpan b key = .ok r ↔
    ∃ entries, Denotes b (.map entries) ∧
      spanIn key (headBytes 5 entries.length).length entries = r := by
  rw [valueSpan, whole_ok, valueSpanOf]
  simp only [ends_bind, ends_ite, ends_throw, and_false, false_or,
    ends_spanEntries (reads_item b maxDepth), Option.none_or]
  constructor
  · rintro ⟨_, ⟨major, arg, start⟩, k, hhead, hmajor, entries, rfl, hentries, hstands, hspan⟩
    obtain ⟨rfl, _, harg, hhead⟩ := ends_head.mp hhead
    obtain rfl : major = 5 := not_not.mp hmajor
    have hk := hhead.1
    rw [Nat.zero_add] at hk
    rw [← encodeEntries_eq] at hstands
    have hwhole := hhead.append hstands
    refine ⟨entries, denotes_iff.mp ⟨Value.fits_map.mpr ⟨harg, hentries⟩, ?_⟩, hk ▸ hspan⟩
    rw [Value.encode]
    exact hwhole
  · rintro ⟨entries, hdenotes, rfl⟩
    obtain ⟨hfits, hstands⟩ := denotes_iff.mpr hdenotes
    have hne : b ≠ [] := by
      rw [← hdenotes.encode]
      exact Value.encode_ne_nil _
    rw [Value.encode, Stands.append_iff] at hstands
    obtain ⟨k, hhead, hstands⟩ := hstands
    obtain ⟨hlength, hentries⟩ := Value.fits_map.mp hfits
    have hk := hhead.1
    rw [Nat.zero_add] at hk
    rw [encodeEntries_eq] at hstands
    exact ⟨hne, (5, entries.length, 0), k, ends_head.mpr ⟨rfl, by decide, hlength, hhead⟩,
      not_not.mpr rfl, entries, rfl, hentries, hstands, hk ▸ rfl⟩

theorem spanIn_none {entries : List (String × Value)} :
    spanIn key i entries = none ↔ key ∉ entries.map Prod.fst := by
  induction entries generalizing i with
  | nil => simp [spanIn]
  | cons e entries ih =>
    obtain ⟨text, v⟩ := e
    rw [spanIn, List.map_cons, List.mem_cons, not_or]
    by_cases hkey : text = key
    · simp [hkey]
    · rw [if_neg hkey, ih]
      exact (and_iff_right (Ne.symm hkey)).symm

theorem spanIn_some {entries : List (String × Value)} {span : ℕ × ℕ} :
    spanIn key i entries = some span ↔ ∃ before v after, entries = before ++ (key, v) :: after ∧
      key ∉ before.map Prod.fst ∧
      span = (i + (encodeEntries before ++ encodeText key).length,
        i + (encodeEntries before ++ encodeText key ++ v.encode).length) := by
  induction entries generalizing i with
  | nil =>
    constructor
    · intro h
      cases h
    · rintro ⟨before, v, after, h, _⟩
      simp at h
  | cons e entries ih =>
    obtain ⟨text, v⟩ := e
    rw [spanIn]
    by_cases hkey : text = key
    · subst hkey
      rw [if_pos rfl]
      constructor
      · intro h
        refine ⟨[], v, entries, rfl, List.not_mem_nil, ?_⟩
        rw [← Option.some.inj h, encodeEntries, List.nil_append, List.length_append, Nat.add_assoc]
      · rintro ⟨before, w, after, hentries, hbefore, rfl⟩
        cases before with
        | nil =>
          cases hentries
          rw [encodeEntries, List.nil_append, List.length_append, Nat.add_assoc]
        | cons e before =>
          cases hentries
          exact absurd List.mem_cons_self hbefore
    · rw [if_neg hkey, ih]
      constructor
      · rintro ⟨before, w, after, rfl, hbefore, rfl⟩
        refine ⟨(text, v) :: before, w, after, rfl, ?_, ?_⟩
        · rw [List.map_cons, List.mem_cons, not_or]
          exact ⟨Ne.symm hkey, hbefore⟩
        · simp only [encodeEntries, List.length_append, Nat.add_assoc]
      · rintro ⟨before, w, after, hentries, hbefore, rfl⟩
        cases before with
        | nil =>
          cases hentries
          exact absurd rfl hkey
        | cons e before =>
          cases hentries
          rw [List.map_cons, List.mem_cons, not_or] at hbefore
          refine ⟨before, w, after, rfl, hbefore.2, ?_⟩
          simp only [encodeEntries, List.length_append, Nat.add_assoc]

end Reads

/-- The bytes are of a map with an entry of that key, and its value stands at that span. -/
def EntryAt (b : Bytes) (key : String) (span : ℕ × ℕ) : Prop :=
  ∃ before v after, Denotes b (.map (before ++ (key, v) :: after)) ∧
    Stands b 0 (headBytes 5 (before ++ (key, v) :: after).length ++ encodeEntries before ++
      encodeText key) span.1 ∧
    Stands b span.1 v.encode span.2

theorem encodeEntries_append_cons (before after : List (String × Value)) (key : String) (v : Value) :
    encodeEntries (before ++ (key, v) :: after) =
      encodeEntries before ++ encodeText key ++ v.encode ++ encodeEntries after := by
  rw [encodeEntries_eq, encodeEntries_eq, encodeEntries_eq, List.flatMap_append,
    List.flatMap_cons, encodeEntry]
  simp only [List.append_assoc]

theorem Denotes.key_fresh {b : Bytes} {before after : List (String × Value)} {key : String}
    {v : Value} (h : Denotes b (.map (before ++ (key, v) :: after))) :
    key ∉ before.map Prod.fst := by
  have hcanonical := h.canonical
  rw [Value.Canonical] at hcanonical
  obtain ⟨_, hsorted, _⟩ := hcanonical
  rw [keysOf, List.map_append, List.map_cons, List.pairwise_append] at hsorted
  intro hmem
  obtain ⟨e, he, rfl⟩ := List.mem_map.mp hmem
  exact List.lt_irrefl _
    (hsorted.2.2 _ (List.mem_map_of_mem he) _ List.mem_cons_self)

theorem valueSpan_map {b : Bytes} {entries : List (String × Value)} (h : Denotes b (.map entries))
    (key : String) :
    valueSpan b key = .ok (spanIn key (headBytes 5 entries.length).length entries) :=
  valueSpan_ok.mpr ⟨entries, h, rfl⟩

theorem valueSpan_some {b : Bytes} {key : String} {span : ℕ × ℕ} :
    valueSpan b key = .ok (some span) ↔ EntryAt b key span := by
  have hends : ∀ {before : List (String × Value)} {v : Value} {start stop n : ℕ},
      Stands b 0 (headBytes 5 n ++ encodeEntries before ++ encodeText key) start →
      Stands b start v.encode stop →
      (start, stop) = ((headBytes 5 n).length + (encodeEntries before ++ encodeText key).length,
        (headBytes 5 n).length + (encodeEntries before ++ encodeText key ++ v.encode).length) := by
    rintro before v start stop n ⟨rfl, _⟩ ⟨rfl, _⟩
    simp only [List.length_append, Nat.zero_add, Nat.add_assoc]
  rw [valueSpan_ok]
  constructor
  · rintro ⟨entries, hdenotes, hspan⟩
    obtain ⟨before, v, after, rfl, _, rfl⟩ := spanIn_some.mp hspan
    have hstands : Stands b 0 _ b.length := (denotes_iff.mpr hdenotes).2
    rw [Value.encode, encodeEntries_append_cons, ← List.append_assoc, Stands.append_iff] at hstands
    obtain ⟨stop, hstands, _⟩ := hstands
    rw [← List.append_assoc, Stands.append_iff] at hstands
    obtain ⟨start, hbefore, hvalue⟩ := hstands
    rw [← List.append_assoc] at hbefore
    rw [← hends hbefore hvalue]
    exact ⟨before, v, after, hdenotes, hbefore, hvalue⟩
  · rintro ⟨before, v, after, hdenotes, hstart, hstop⟩
    refine ⟨_, hdenotes, spanIn_some.mpr ⟨before, v, after, rfl, hdenotes.key_fresh, ?_⟩⟩
    exact hends hstart hstop

/-- The value span of a key agrees with the strict scan: there is an answer exactly over the
canonical bytes of a map, it is a span exactly if the map has the key, and that span is exactly
where the value of the entry stands. -/
theorem value_span_agrees (b : Bytes) (key : String) :
    ((∃ r, valueSpan b key = .ok r) ↔
      scanStrict b = .ok () ∧ ∃ entries, Denotes b (.map entries)) ∧
    (∀ entries, Denotes b (.map entries) →
      ((∃ span, valueSpan b key = .ok (some span)) ↔ key ∈ entries.map Prod.fst) ∧
      (valueSpan b key = .ok none ↔ key ∉ entries.map Prod.fst)) ∧
    ∀ span, valueSpan b key = .ok (some span) ↔ EntryAt b key span := by
  refine ⟨?_, fun entries hdenotes => ?_, fun span => valueSpan_some⟩
  · rw [scanStrict_ok]
    constructor
    · rintro ⟨r, h⟩
      obtain ⟨entries, hdenotes, _⟩ := valueSpan_ok.mp h
      exact ⟨⟨_, hdenotes⟩, entries, hdenotes⟩
    · rintro ⟨_, entries, hdenotes⟩
      exact ⟨_, valueSpan_map hdenotes key⟩
  · have hnone := @spanIn_none (headBytes 5 entries.length).length key entries
    rw [valueSpan_map hdenotes]
    cases hspan : spanIn key (headBytes 5 entries.length).length entries with
    | none =>
      have hkey := hnone.mp hspan
      simp [hkey]
    | some span =>
      have hkey : key ∈ entries.map Prod.fst := by
        by_contra hkey
        rw [hnone.mpr hkey] at hspan
        cases hspan
      constructor
      · exact iff_of_true ⟨span, rfl⟩ hkey
      · exact iff_of_false (by simp) (not_not.mpr hkey)

/-- A key that ends in the one looked for is another key, and so is one inside a nested map. -/
example : valueSpan [0xa2, 0x61, 0x79, 0xa1, 0x61, 0x78, 0x01, 0x62, 0x78, 0x78, 0x02] "x" =
    .ok none := by
  decide

end Tracefold.DagCbor
