import Mathlib.Tactic.Common
import Tracefold.Cbor.Scan
import Tracefold.Library.Sort
import Tracefold.Library.Text
import Tracefold.Lifecycle

/-! `.gx/VERSION` as what it declares: the bytes that an editor saved, as text, as lines and in the
form that its digest is taken over. -/

namespace Tracefold.Head

open Library
open DagCbor (utf8 fromUtf8 fromUtf8_iff)
open Engine (isWhiteSpace)

section Decode

/-- The words of two bytes, if no byte is left over. -/
def utf16Units (little : Bool) : Bytes → Option (List ℕ)
  | [] => some []
  | [_] => none
  | a :: b :: rest =>
    (utf16Units little rest).map
      ((if little then a.toNat + 256 * b.toNat else 256 * a.toNat + b.toNat) :: ·)

/-- `String::from_utf16`: a surrogate stands only before or behind the other half of its pair. -/
def fromUtf16 : List ℕ → Option (List Char)
  | [] => some []
  | unit :: rest =>
    if unit < 0xD800 ∨ 0xDFFF < unit then (fromUtf16 rest).map (Char.ofNat unit :: ·)
    else if 0xDC00 ≤ unit then none
    else
      match rest with
      | [] => none
      | low :: rest =>
        if 0xDC00 ≤ low ∧ low ≤ 0xDFFF then
          (fromUtf16 rest).map
            (Char.ofNat (0x10000 + 0x400 * (unit - 0xD800) + (low - 0xDC00)) :: ·)
        else none

def byteOrderMark : Char := '\ufeff'

/-- `str::strip_prefix` of a byte-order mark. -/
def withoutMark : List Char → List Char
  | [] => []
  | c :: text => if c = byteOrderMark then text else c :: text

/-- `decode_declaration`. -/
def decodeDeclaration : Bytes → Option (List Char)
  | 0xff :: 0xfe :: rest => (utf16Units true rest).bind fromUtf16
  | 0xfe :: 0xff :: rest => (utf16Units false rest).bind fromUtf16
  | bytes => (fromUtf8 bytes).map fun text => withoutMark text.toList

end Decode

section Lines

/-- `str::trim`. -/
def trim (text : List Char) : List Char :=
  ((text.dropWhile isWhiteSpace).reverse.dropWhile isWhiteSpace).reverse

/-- The bare lines, and the lines that are `key=value`. -/
structure Declaration where
  bare : List (List Char)
  pairs : List (List Char × List Char)
  deriving DecidableEq, Repr

/-- One turn of the loop of `declaration_lines`. -/
def Declaration.line (d : Declaration) (raw : List Char) : Declaration :=
  let line := trim raw
  if line.isEmpty then d
  else
    match Text.splitOnce '=' line with
    | some (key, value) => { d with pairs := d.pairs ++ [(trim key, trim value)] }
    | none => { d with bare := d.bare ++ [line] }

def isLineBreak (c : Char) : Bool := c = '\n' ∨ c = '\r'

/-- `declaration_lines`. -/
def declarationLines (bytes : Bytes) : Option Declaration :=
  (decodeDeclaration bytes).map fun text =>
    (text.splitOnP isLineBreak).foldl Declaration.line ⟨[], []⟩

def joined (pair : List Char × List Char) : List Char := pair.1 ++ '=' :: pair.2

/-- The lines of a normal form, each with its line break. -/
def Declaration.rendered (d : Declaration) : List Char :=
  (d.bare ++ d.pairs.map joined).flatMap (· ++ ['\n'])

/-- `sort_by` on the keys, which is stable. -/
def Declaration.sorted (d : Declaration) : Declaration :=
  { d with pairs := Sort.sortBy (fun a b => compare a.1 b.1) d.pairs }

/-- `normalise_declaration`. -/
def normaliseDeclaration (bytes : Bytes) : Bytes :=
  match declarationLines bytes with
  | none => bytes
  | some d => utf8 (String.ofList d.sorted.rendered)

end Lines

section Rendered

theorem mem_of_mem_trim {text : List Char} {c : Char} (h : c ∈ trim text) : c ∈ text := by
  have hback := (List.dropWhile_sublist _).subset (List.mem_reverse.mp h)
  exact (List.dropWhile_sublist _).subset (List.mem_reverse.mp hback)

/-- Lines as they are read: without a line break, and bare or a pair by whether they have a `=`. -/
structure Declaration.Legible (d : Declaration) : Prop where
  bare : ∀ line ∈ d.bare, '\n' ∉ line ∧ '=' ∉ line
  pairs : ∀ pair ∈ d.pairs, '\n' ∉ pair.1 ∧ '=' ∉ pair.1 ∧ '\n' ∉ pair.2

theorem Declaration.Legible.line {d : Declaration} (h : d.Legible) {raw : List Char}
    (hraw : '\n' ∉ raw) : (d.line raw).Legible := by
  have htrim : '\n' ∉ trim raw := fun hmem => hraw (mem_of_mem_trim hmem)
  unfold Declaration.line
  dsimp only
  split
  next => exact h
  next =>
    split
    next key value hsplit =>
      obtain ⟨hline, hkey⟩ := Text.splitOnce_eq_some hsplit
      constructor
      case bare => exact h.bare
      case pairs =>
        intro pair hpair
        rcases List.mem_append.mp hpair with hpair | hpair
        · exact h.pairs pair hpair
        · obtain rfl := List.mem_singleton.mp hpair
          rw [hline] at htrim
          refine ⟨fun hmem => htrim ?_, fun hmem => hkey (mem_of_mem_trim hmem), fun hmem => htrim ?_⟩
          · exact List.mem_append_left _ (mem_of_mem_trim hmem)
          · exact List.mem_append_right _ (List.mem_cons_of_mem _ (mem_of_mem_trim hmem))
    next hsplit =>
      constructor
      case bare =>
        intro line hline
        rcases List.mem_append.mp hline with hline | hline
        · exact h.bare line hline
        · obtain rfl := List.mem_singleton.mp hline
          exact ⟨htrim, Text.splitOnce_eq_none.mp hsplit⟩
      case pairs => exact h.pairs

theorem legible_of_declarationLines {bytes : Bytes} {d : Declaration}
    (h : declarationLines bytes = some d) : d.Legible := by
  obtain ⟨text, -, rfl⟩ := Option.map_eq_some_iff.mp h
  have hfold : ∀ (raws : List (List Char)) (d : Declaration), d.Legible →
      (∀ raw ∈ raws, '\n' ∉ raw) → (raws.foldl Declaration.line d).Legible := by
    intro raws
    induction raws with
    | nil => exact fun _ hd _ => hd
    | cons raw raws ih =>
      intro d hd hraws
      exact ih _ (hd.line (hraws raw List.mem_cons_self))
        fun raw' hraw' => hraws raw' (List.mem_cons_of_mem _ hraw')
  apply hfold
  · constructor
    case bare => exact fun _ hmem => nomatch hmem
    case pairs => exact fun _ hmem => nomatch hmem
  · intro raw hraw hmem
    have hbreak := Text.not_of_mem_piece hraw hmem
    cases hbreak

theorem Declaration.Legible.sorted {d : Declaration} (h : d.Legible) : d.sorted.Legible where
  bare := h.bare
  pairs := fun pair hpair => h.pairs pair (Sort.mem_sortBy.mp hpair)

theorem Declaration.Legible.cut {d : Declaration} (h : d.Legible) :
    (d.pairs.map joined).map (Text.splitOnce '=') = d.pairs.map some := by
  rw [List.map_map]
  apply List.map_congr_left
  intro pair hpair
  exact Text.splitOnce_append (h.pairs pair hpair).2.1

theorem mem_joined (pair : List Char × List Char) : '=' ∈ joined pair :=
  List.mem_append_right _ List.mem_cons_self

theorem Declaration.Legible.filter {d : Declaration} (h : d.Legible) :
    (d.bare ++ d.pairs.map joined).filter ('=' ∉ ·) = d.bare ∧
      (d.bare ++ d.pairs.map joined).filter ('=' ∈ ·) = d.pairs.map joined := by
  have hbare : ∀ line ∈ d.bare, '=' ∉ line := fun line hline => (h.bare line hline).2
  have hpairs : ∀ line ∈ d.pairs.map joined, '=' ∈ line := by
    intro line hline
    obtain ⟨pair, -, rfl⟩ := List.mem_map.mp hline
    exact mem_joined pair
  constructor
  · rw [List.filter_append, List.filter_eq_self.mpr (by simpa using hbare),
      List.filter_eq_nil_iff.mpr (by simpa using hpairs), List.append_nil]
  · rw [List.filter_append, List.filter_eq_nil_iff.mpr (by simpa using hbare),
      List.filter_eq_self.mpr (by simpa using hpairs), List.nil_append]

/-- A rendered declaration is read in one way. -/
theorem Declaration.rendered_injective {d d' : Declaration} (h : d.Legible) (h' : d'.Legible)
    (heq : d.rendered = d'.rendered) : d = d' := by
  have hlines : ∀ {d : Declaration}, d.Legible →
      ∀ line ∈ d.bare ++ d.pairs.map joined, '\n' ∉ line := by
    intro d hd line hline
    rcases List.mem_append.mp hline with hline | hline
    · exact (hd.bare line hline).1
    · obtain ⟨pair, hpair, rfl⟩ := List.mem_map.mp hline
      obtain ⟨hkey, -, hvalue⟩ := hd.pairs pair hpair
      rw [joined, List.mem_append, List.mem_cons]
      rintro (hmem | hmem | hmem)
      · exact hkey hmem
      · cases hmem
      · exact hvalue hmem
  have hsame := Text.flatMap_concat_injective (hlines h) (hlines h') heq
  have hbare : d.bare = d'.bare := by
    rw [← h.filter.1, hsame, h'.filter.1]
  have hpairs : d.pairs.map joined = d'.pairs.map joined := by
    rw [← h.filter.2, hsame, h'.filter.2]
  have hkeys : d.pairs = d'.pairs := by
    apply List.map_injective_iff.mpr (Option.some_injective _)
    rw [← h.cut, hpairs, h'.cut]
  cases d
  cases d'
  exact congrArg₂ Declaration.mk hbare hkeys

end Rendered

section Bytes

theorem mem_utf8 {text : String} {byte : UInt8} (h : byte ∈ utf8 text) : byte.toNat < 0xfe := by
  rw [← String.ofList_toList (s := text), utf8, String.toByteArray_ofList, List.utf8Encode,
    List.toList_data_toByteArray, List.mem_flatMap] at h
  obtain ⟨c, -, hbyte⟩ := h
  unfold String.utf8EncodeChar at hbyte
  dsimp only at hbyte
  split_ifs at hbyte
  all_goals
    simp only [List.mem_cons, List.not_mem_nil, or_false] at hbyte
  · rw [hbyte, UInt8.toNat_ofNat']
    omega
  · rcases hbyte with rfl | rfl <;> rw [UInt8.toNat_ofNat'] <;> omega
  · rcases hbyte with rfl | rfl | rfl <;> rw [UInt8.toNat_ofNat'] <;> omega
  · rcases hbyte with rfl | rfl | rfl | rfl <;> rw [UInt8.toNat_ofNat'] <;> omega

theorem decodeDeclaration_utf8 (text : String) : (decodeDeclaration (utf8 text)).isSome := by
  unfold decodeDeclaration
  split
  next rest hbytes =>
    have hbyte := @mem_utf8 text 0xff (by rw [hbytes]; exact List.mem_cons_self)
    exact absurd hbyte (by decide)
  next rest hbytes =>
    have hbyte := @mem_utf8 text 0xfe (by rw [hbytes]; exact List.mem_cons_self)
    exact absurd hbyte (by decide)
  next =>
    rw [Option.isSome_map, fromUtf8_iff.mpr rfl]
    rfl

end Bytes

/-- The normal form of a declaration tells its bare lines and, for every key, its values in their
order, and nothing else of it; and no other bytes are the normal form of one. -/
theorem normalise_declaration_tells :
    (∀ bytes bytes' d d', declarationLines bytes = some d → declarationLines bytes' = some d' →
      (normaliseDeclaration bytes = normaliseDeclaration bytes' ↔
        d.bare = d'.bare ∧ ∀ key, Sort.valuesOf key d.pairs = Sort.valuesOf key d'.pairs)) ∧
    ∀ bytes bytes', decodeDeclaration bytes = none → (decodeDeclaration bytes').isSome →
      normaliseDeclaration bytes ≠ normaliseDeclaration bytes' := by
  constructor
  · intro bytes bytes' d d' hd hd'
    rw [normaliseDeclaration, normaliseDeclaration, hd, hd']
    dsimp only
    have hpairs := @Sort.sortBy_key_eq_iff _ _ _ compare _ _ d.pairs d'.pairs
    rw [← hpairs]
    constructor
    · intro h
      have hsorted := Declaration.rendered_injective (legible_of_declarationLines hd).sorted
        (legible_of_declarationLines hd').sorted (String.ofList_injective (DagCbor.utf8_injective h))
      have hbare := congrArg Declaration.bare hsorted
      have hpairs := congrArg Declaration.pairs hsorted
      exact ⟨hbare, hpairs⟩
    · rintro ⟨hbare, hpairs⟩
      rw [Declaration.sorted, Declaration.sorted, hbare, hpairs]
  · intro bytes bytes' hnone hsome h
    obtain ⟨text, htext⟩ := Option.isSome_iff_exists.mp hsome
    have hbytes : normaliseDeclaration bytes = bytes := by
      rw [normaliseDeclaration, declarationLines, hnone]
      rfl
    have hbytes' : ∃ text, normaliseDeclaration bytes' = utf8 text := by
      rw [normaliseDeclaration, declarationLines, htext]
      exact ⟨_, rfl⟩
    obtain ⟨normal, hnormal⟩ := hbytes'
    have haccepted := decodeDeclaration_utf8 normal
    rw [← hnormal, ← h, hbytes, hnone] at haccepted
    cases haccepted

/-- `1` and `a=b`, as an editor saves them in words of two bytes, the lower byte first; and the same
lines in the other order and the other encoding, with spaces. -/
def savedLittle : Bytes := [0xff, 0xfe, 0x31, 0, 0x0a, 0, 0x61, 0, 0x3d, 0, 0x62, 0]

def savedBig : Bytes :=
  [0xfe, 0xff, 0, 0x61, 0, 0x20, 0, 0x3d, 0, 0x62, 0, 0x0d, 0, 0x0a, 0, 0x20, 0, 0x31]

theorem normalise_declaration_tells_saved :
    normaliseDeclaration savedLittle = normaliseDeclaration savedBig ∧
      normaliseDeclaration [0xff, 0xfe, 0x31] ≠ normaliseDeclaration savedBig := by
  have hlittle : declarationLines savedLittle = some ⟨[['1']], [(['a'], ['b'])]⟩ := by decide
  have hbig : declarationLines savedBig = some ⟨[['1']], [(['a'], ['b'])]⟩ := by decide
  exact ⟨(normalise_declaration_tells.1 _ _ _ _ hlittle hbig).mpr ⟨rfl, fun _ => rfl⟩,
    normalise_declaration_tells.2 _ _ (by decide) (by decide)⟩

end Tracefold.Head
