import Mathlib.Tactic.Common
import Tracefold.Cbor.Value
import Tracefold.Library.Scan

/-! gx's own reading of what bytes are canonical, over 64-bit addresses. -/

namespace Tracefold.DagCbor

open Library Library.Scan

inductive Error where
  | truncated (start wanted missing : ℕ)
  | empty
  | nonMinimal (start major ai value : ℕ)
  | indefiniteLength (start : ℕ)
  | reservedAdditionalInfo (start ai : ℕ)
  | tagNotAllowed (start tag : ℕ)
  | floatNotAllowed (start : ℕ)
  | simpleValueNotAllowed (start ai : ℕ)
  | nonTextMapKey (start major : ℕ)
  | unsortedOrDuplicateMapKey (start : ℕ)
  | invalidUtf8 (start : ℕ) (detail : String)
  | trailingBytes (start extra : ℕ)
  | tooDeep (start max : ℕ)
  deriving DecidableEq, Repr

def maxDepth : ℕ := 64

def usizeMax : ℕ := 2 ^ 64 - 1

/-- `Utf8Error`: how far the text is valid, and how long the sequence is that is not, unless the
text ends in it. -/
structure Utf8Error where
  validUpTo : ℕ
  errorLen : Option ℕ

def Utf8Error.detail (e : Utf8Error) : String :=
  match e.errorLen with
  | some length =>
    "invalid utf-8 sequence of " ++ toString length ++ " bytes from index " ++
      toString e.validUpTo
  | none => "incomplete utf-8 byte sequence from index " ++ toString e.validUpTo

def continuation (x : UInt8) : Bool := 0x80 ≤ x && x ≤ 0xbf

/-- The second bytes that may follow a first one of a sequence of three or four. -/
def second (first x : UInt8) : Bool :=
  if first = 0xe0 then 0xa0 ≤ x && x ≤ 0xbf
  else if first = 0xed then 0x80 ≤ x && x ≤ 0x9f
  else if first = 0xf0 then 0x90 ≤ x && x ≤ 0xbf
  else if first = 0xf4 then 0x80 ≤ x && x ≤ 0x8f
  else continuation x

/-- The first fault of a text, read from an index on. -/
def utf8Fault (i : ℕ) : Bytes → Option Utf8Error
  | [] => none
  | a :: l =>
    if a < 0x80 then utf8Fault (i + 1) l
    else if 0xc2 ≤ a ∧ a ≤ 0xdf then
      match l with
      | [] => some ⟨i, none⟩
      | b :: l => if continuation b then utf8Fault (i + 2) l else some ⟨i, some 1⟩
    else if 0xe0 ≤ a ∧ a ≤ 0xef then
      match l with
      | [] => some ⟨i, none⟩
      | b :: l =>
        if second a b then
          match l with
          | [] => some ⟨i, none⟩
          | c :: l => if continuation c then utf8Fault (i + 3) l else some ⟨i, some 2⟩
        else some ⟨i, some 1⟩
    else if 0xf0 ≤ a ∧ a ≤ 0xf4 then
      match l with
      | [] => some ⟨i, none⟩
      | b :: l =>
        if second a b then
          match l with
          | [] => some ⟨i, none⟩
          | c :: l =>
            if continuation c then
              match l with
              | [] => some ⟨i, none⟩
              | d :: l => if continuation d then utf8Fault (i + 4) l else some ⟨i, some 3⟩
            else some ⟨i, some 2⟩
        else some ⟨i, some 1⟩
    else some ⟨i, some 1⟩

/-- The string some bytes are of. -/
def fromUtf8 (raw : Bytes) : Option String := String.fromUTF8? raw.toByteArray

section Scanner

variable (b : Bytes)

def take (n : ℕ) : Scan Error Bytes := do
  let start ← get
  let stop := start + n
  -- a slice is no longer than `usize::MAX`: an end past that is also past the end of the slice
  if b.length < stop then
    throw (.truncated start n (if usizeMax < stop then n else stop - b.length))
  else
    set stop
    return (b.take stop).drop start

/-- `take(1)?[0]`. -/
def byte : Scan Error UInt8 := do
  let raw ← take b 1
  return raw.headD 0

def peek : Scan Error UInt8 := do
  let start ← get
  match b[start]? with
  | some x => return x
  | none => throw (.truncated start 1 1)

/-- The bytes a number is in, big-endian. -/
def number (width : ℕ) : Scan Error ℕ := do
  let raw ← take b width
  return beNat raw

def requireMinimal (value major ai start : ℕ) (ok : Bool) : Scan Error ℕ :=
  if ok then pure value else throw (.nonMinimal start major ai value)

def argument (major ai start : ℕ) : Scan Error ℕ :=
  if ai ≤ 23 then pure ai
  else if ai = 24 then do
    let v ← number b 1
    requireMinimal v major 24 start (24 ≤ v)
  else if ai = 25 then do
    let v ← number b 2
    requireMinimal v major 25 start (2 ^ 8 - 1 < v)
  else if ai = 26 then do
    let v ← number b 4
    requireMinimal v major 26 start (2 ^ 16 - 1 < v)
  else if ai = 27 then do
    let v ← number b 8
    requireMinimal v major 27 start (2 ^ 32 - 1 < v)
  else if ai = 31 then throw (.indefiniteLength start)
  else throw (.reservedAdditionalInfo start ai)

/-- The major type, the argument and the start of a head. -/
def head : Scan Error (ℕ × ℕ × ℕ) := do
  let start ← get
  let first ← byte b
  let arg ← argument b (first >>> 5).toNat (first &&& 0x1f).toNat start
  return ((first >>> 5).toNat, arg, start)

def simpleOrFloat : Scan Error Unit := do
  let start ← get
  let first ← byte b
  let ai := (first &&& 0x1f).toNat
  if 20 ≤ ai ∧ ai ≤ 22 then pure ()
  else if 25 ≤ ai ∧ ai ≤ 27 then throw (.floatNotAllowed start)
  else if ai = 31 then throw (.indefiniteLength start)
  else if 28 ≤ ai ∧ ai ≤ 30 then throw (.reservedAdditionalInfo start ai)
  else throw (.simpleValueNotAllowed start ai)

/-- `core::str::from_utf8` of what was taken. -/
def textOf (raw : Bytes) (start : ℕ) : Scan Error Unit :=
  match fromUtf8 raw with
  | some _ => pure ()
  | none => throw (.invalidUtf8 start ((utf8Fault 0 raw).elim "" Utf8Error.detail))

/-- A text key, after the one before it. -/
def mapKey (item : Scan Error Unit) (previous : Option Bytes) : Scan Error Bytes := do
  let keyAt ← get
  let first ← peek b
  if (first >>> 5).toNat ≠ 3 then throw (.nonTextMapKey keyAt (first >>> 5).toNat)
  else
    item
    let keyEnd ← get
    let key := (b.take keyEnd).drop keyAt
    if previous.any (key ≤ ·) then throw (.unsortedOrDuplicateMapKey keyAt)
    else return key

def map (item : Scan Error Unit) : ℕ → Option Bytes → Scan Error Unit
  | 0, _ => pure ()
  | entries + 1, previous => do
    let key ← mapKey b item previous
    item
    map item entries (some key)

/-- What a head announces; `inner` reads an item one level further in. -/
def content (inner : Scan Error Unit) (major arg start : ℕ) : Scan Error Unit :=
  match major with
  | 0 => pure ()
  | 1 => pure ()
  | 2 => do
    let _ ← take b arg
    return ()
  | 3 => do
    let raw ← take b arg
    textOf raw start
  | 4 => times inner arg
  | 5 => map b inner arg none
  -- a major type is three bits, and 7 does not get here
  | _ => throw (.tagNotAllowed start arg)

/-- An item that may be nested `room` levels deep before it is too deep. -/
def item : ℕ → Scan Error Unit
  | 0 => do
    let start ← get
    throw (.tooDeep start maxDepth)
  | room + 1 => do
    let first ← peek b
    if (first >>> 5).toNat = 7 then simpleOrFloat b
    else
      let (major, arg, start) ← head b
      content b (item room) major arg start

/-- A scan of some bytes that leaves none of them over. -/
def whole {α : Type} (x : Scan Error α) : Except Error α :=
  if b.isEmpty then .error .empty
  else
    match x.run 0 with
    | .error e => .error e
    | .ok (a, stop) =>
      if stop = b.length then .ok a else .error (.trailingBytes stop (b.length - stop))

def scanStrict : Except Error Unit := whole b (item b (maxDepth + 1))

end Scanner

section Reads

variable {b raw : Bytes} {i j n : ℕ}

theorem ends_take : Ends (take b n) i raw j ↔ raw.length = n ∧ j ≤ b.length ∧ Stands b i raw j := by
  rw [take]
  simp only [ends_bind, ends_get, ends_ite, ends_throw, ends_set, ends_pure]
  constructor
  · rintro ⟨_, _, ⟨rfl, rfl⟩, ⟨_, hfalse⟩ | ⟨hstop, _, _, rfl, rfl, rfl⟩⟩
    · exact absurd hfalse id
    · have hstands := Stands.between (l := b) (Nat.le_add_right i n) (Nat.not_lt.mp hstop)
      refine ⟨?_, Nat.not_lt.mp hstop, hstands⟩
      rw [hstands.length, Nat.add_sub_cancel_left]
  · rintro ⟨rfl, hj, hstands⟩
    obtain ⟨rfl, _⟩ := id hstands
    refine ⟨i, i, ⟨rfl, rfl⟩, .inr ⟨Nat.not_lt.mpr hj, ⟨⟩, _, rfl, hstands.slice, rfl⟩⟩

theorem ends_byte {x : UInt8} : Ends (byte b) i x j ↔ Stands b i [x] j := by
  rw [byte]
  simp only [ends_bind, ends_take, ends_pure]
  constructor
  · rintro ⟨raw, _, ⟨hlength, _, hstands⟩, rfl, rfl⟩
    obtain ⟨y, rfl⟩ := List.length_eq_one_iff.mp hlength
    exact hstands
  · intro h
    exact ⟨[x], j, ⟨rfl, h.le_length (by simp), h⟩, rfl, rfl⟩

theorem ends_peek {x : UInt8} : Ends (peek b) i x j ↔ b[i]? = some x ∧ i = j := by
  rw [peek]
  simp only [ends_bind, ends_get]
  constructor
  · rintro ⟨_, _, ⟨rfl, rfl⟩, h⟩
    split at h
    next y hy =>
      rw [ends_pure] at h
      exact ⟨by rw [hy, h.1], h.2⟩
    next => exact absurd h ends_throw
  · rintro ⟨hx, rfl⟩
    refine ⟨i, i, ⟨rfl, rfl⟩, ?_⟩
    rw [hx]
    exact ends_pure.mpr ⟨rfl, rfl⟩

theorem ends_number {width : ℕ} (hwidth : 0 < width) :
    Ends (number b width) i n j ↔ n < 256 ^ width ∧ Stands b i (beBytes width n) j := by
  rw [number]
  simp only [ends_bind, ends_take, ends_pure]
  constructor
  · rintro ⟨raw, _, ⟨rfl, _, hstands⟩, rfl, rfl⟩
    rw [beBytes_beNat]
    exact ⟨beNat_lt raw, hstands⟩
  · rintro ⟨hn, hstands⟩
    refine ⟨beBytes width n, j, ⟨length_beBytes width n, hstands.le_length ?_, hstands⟩,
      beNat_beBytes hn, rfl⟩
    rw [← List.length_pos_iff, length_beBytes]
    exact hwidth

theorem ends_requireMinimal {value major ai start : ℕ} {ok : Bool} :
    Ends (requireMinimal value major ai start ok) i n j ↔ ok = true ∧ value = n ∧ i = j := by
  rw [requireMinimal]
  simp only [ends_ite, ends_throw, ends_pure, and_false, or_false]

theorem ends_wide {major ai width low start : ℕ} {ok : ℕ → Bool} (h : Wide ai width low)
    (hok : ∀ v, ok v = true ↔ low ≤ v) :
    Ends (number b width >>= fun v => requireMinimal v major ai start (ok v)) i n j ↔
      n < 2 ^ 64 ∧ info n = ai ∧ Stands b i (extension n) j := by
  have hwidth : 0 < width := by cases h <;> decide
  simp only [ends_bind, ends_number hwidth, ends_requireMinimal, hok]
  constructor
  · rintro ⟨v, _, ⟨hv, hstands⟩, hlow, rfl, rfl⟩
    obtain ⟨hinfo, hext⟩ := h.info_eq hlow hv
    refine ⟨?_, hinfo, hext ▸ hstands⟩
    cases h <;> omega
  · rintro ⟨hn, rfl, hstands⟩
    rcases info_cases hn with ⟨hlt, hinfo, _⟩ | ⟨width', low', hwide, hlow, hn', hext⟩
    · have := h.le_info
      omega
    · obtain ⟨rfl, rfl⟩ := h.unique hwide
      rw [hext] at hstands
      exact ⟨n, j, ⟨hn', hstands⟩, hlow, rfl, rfl⟩

/-- An argument is read from the shortest head it has. -/
theorem ends_argument {major ai start : ℕ} :
    Ends (argument b major ai start) i n j ↔
      n < 2 ^ 64 ∧ info n = ai ∧ Stands b i (extension n) j := by
  unfold argument
  by_cases h23 : ai ≤ 23
  · rw [if_pos h23, ends_pure]
    constructor
    · rintro ⟨rfl, rfl⟩
      have hlt : ai < 24 := by omega
      rw [info, extension, if_pos hlt, if_pos hlt]
      exact ⟨by omega, rfl, .nil⟩
    · rintro ⟨hn, rfl, hstands⟩
      rcases info_cases hn with ⟨_, hi, hext⟩ | ⟨_, _, hwide, _⟩
      · rw [hext, Stands.nil_iff] at hstands
        exact ⟨hi, hstands.symm⟩
      · have := hwide.le_info
        omega
  rw [if_neg h23]
  by_cases h24 : ai = 24
  · subst h24
    exact ends_wide .one (by simp)
  rw [if_neg h24]
  by_cases h25 : ai = 25
  · subst h25
    exact ends_wide .two (by simp; omega)
  rw [if_neg h25]
  by_cases h26 : ai = 26
  · subst h26
    exact ends_wide .four (by simp; omega)
  rw [if_neg h26]
  by_cases h27 : ai = 27
  · subst h27
    exact ends_wide .eight (by simp; omega)
  rw [if_neg h27]
  have hnone : ¬ (n < 2 ^ 64 ∧ info n = ai ∧ Stands b i (extension n) j) := by
    rintro ⟨hn, hai, _⟩
    rcases info_cases hn with ⟨hlt, hi, _⟩ | ⟨_, _, hwide, _⟩
    · omega
    · rw [hai] at hwide
      cases hwide <;> omega
  simp only [hnone, ends_ite, ends_throw, and_false, or_false]

theorem toNat_major (x : UInt8) : (x >>> 5).toNat = x.toNat / 32 := by
  rw [UInt8.toNat_shiftRight, Nat.shiftRight_eq_div_pow]
  rfl

theorem toNat_ai (x : UInt8) : (x &&& 0x1f).toNat = x.toNat % 32 := by
  rw [UInt8.toNat_and]
  exact Nat.and_two_pow_sub_one_eq_mod x.toNat 5

theorem eq_initial {x : UInt8} {major ai : ℕ} (hm : major < 8) (ha : ai < 32) :
    x = initial major ai ↔ (x >>> 5).toNat = major ∧ (x &&& 0x1f).toNat = ai := by
  have hx := x.toNat_lt
  rw [toNat_major, toNat_ai, ← UInt8.toNat_inj, initial, UInt8.toNat_ofNat']
  omega

theorem ends_head {major arg start : ℕ} : Ends (head b) i (major, arg, start) j ↔
    start = i ∧ major < 8 ∧ arg < 2 ^ 64 ∧ Stands b i (headBytes major arg) j := by
  rw [head]
  simp only [ends_bind, ends_get, ends_byte, ends_argument, ends_pure, Prod.mk.injEq]
  constructor
  · rintro ⟨_, _, ⟨rfl, rfl⟩, x, k, hx, _, _, ⟨harg, hinfo, hext⟩, ⟨rfl, rfl, rfl⟩, rfl⟩
    have hmajor : (x >>> 5).toNat < 8 := by
      have := x.toNat_lt
      rw [toNat_major]
      omega
    refine ⟨rfl, hmajor, harg, ?_⟩
    rw [headBytes, ← (eq_initial hmajor (info_lt _)).mpr ⟨rfl, hinfo.symm⟩]
    exact hx.append hext
  · rintro ⟨rfl, hmajor, harg, hstands⟩
    rw [headBytes, ← List.singleton_append, Stands.append_iff] at hstands
    obtain ⟨k, hx, hext⟩ := hstands
    obtain ⟨hm, hai⟩ := (eq_initial hmajor (info_lt arg)).mp rfl
    exact ⟨start, start, ⟨rfl, rfl⟩, _, k, hx, arg, j, ⟨harg, hai.symm, hext⟩, ⟨hm, rfl, rfl⟩, rfl⟩

theorem fromUtf8_iff {text : String} : fromUtf8 raw = some text ↔ utf8 text = raw := by
  rw [fromUtf8, String.fromUTF8?]
  constructor
  · intro h
    split at h
    next hvalid =>
      cases h
      exact List.toList_data_toByteArray
    next => cases h
  · rintro rfl
    have hbytes : (utf8 text).toByteArray = text.toByteArray := by
      apply ByteArray.ext
      rw [List.data_toByteArray, utf8]
    simp only [hbytes]
    rw [dif_pos text.isValidUTF8]
    rfl

theorem ends_textOf {start : ℕ} :
    Ends (textOf raw start) i () j ↔ (∃ text, utf8 text = raw) ∧ i = j := by
  rw [textOf]
  simp only [← fromUtf8_iff]
  cases fromUtf8 raw with
  | none => simp [ends_throw]
  | some text => simp

theorem ends_simpleOrFloat {x : UInt8} (hx : b[i]? = some x) (hmajor : (x >>> 5).toNat = 7) :
    Ends (simpleOrFloat b) i () j ↔ ∃ n, 20 ≤ n ∧ n ≤ 22 ∧ Stands b i [initial 7 n] j := by
  have hinitial : ∀ n < 32, x = initial 7 n ↔ (x &&& 0x1f).toNat = n := by
    intro n hn
    rw [eq_initial (by decide) hn]
    exact and_iff_right hmajor
  rw [simpleOrFloat]
  simp only [ends_bind, ends_get, ends_byte, ends_ite, ends_throw, ends_pure, and_false, or_false]
  constructor
  · rintro ⟨_, _, ⟨rfl, rfl⟩, y, _, hstands, ⟨hlow, hhigh⟩, _, rfl⟩
    have hy : y = x := Option.some.inj (hstands.head.symm.trans hx)
    subst hy
    refine ⟨_, hlow, hhigh, ?_⟩
    rwa [← (hinitial _ (by omega)).mpr rfl]
  · rintro ⟨n, hlow, hhigh, hstands⟩
    have hx' : x = initial 7 n := Option.some.inj (hx.symm.trans hstands.head)
    have hn := (hinitial n (by omega)).mp hx'
    rw [← hx'] at hstands
    refine ⟨i, i, ⟨rfl, rfl⟩, x, j, hstands, ⟨by omega, by omega⟩, trivial, rfl⟩

theorem Value.first {v : Value} (h : Stands b i v.encode j) :
    ∃ x, b[i]? = some x ∧ (x >>> 5).toNat = v.major := by
  rw [v.encode_eq, headBytes, List.cons_append] at h
  exact ⟨_, h.head, ((eq_initial v.major_lt (info_lt _)).mp rfl).1⟩

/-- A value that is read with `room` levels to go. -/
def Value.Fits (v : Value) (room : ℕ) : Prop := v.Canonical ∧ v.depth < room

/-- The scan moves over the encoding of any one value that fits. -/
def ReadsItem (b : Bytes) (room : ℕ) (x : Scan Error Unit) : Prop :=
  ∀ i j, Ends x i () j ↔ ∃ v : Value, v.Fits room ∧ Stands b i v.encode j

theorem Value.eq_text {v : Value} (h : v.major = 3) : ∃ text, v = .text text := by
  cases v with
  | text text => exact ⟨text, rfl⟩
  | int n => rcases Value.major_int n with ⟨hn, _⟩ | ⟨hn, _⟩ <;> omega
  | _ => cases h

/-- A key that fits, and comes after the one before it. -/
structure KeyAfter (room : ℕ) (previous : Option Bytes) (text : String) : Prop where
  fits : (Value.text text).Fits room
  after : ∀ before, previous = some before → before < encodeText text

theorem any_le {previous : Option Bytes} {key : Bytes} :
    ¬ (previous.any fun before => key ≤ before) = true ↔
      ∀ before, previous = some before → before < key := by
  cases previous with
  | none => simp
  | some before => simp

theorem ends_mapKey {x : Scan Error Unit} {room : ℕ} (hx : ReadsItem b room x)
    {previous : Option Bytes} {key : Bytes} : Ends (mapKey b x previous) i key j ↔
      ∃ text, KeyAfter room previous text ∧ encodeText text = key ∧ Stands b i key j := by
  rw [mapKey]
  simp only [ends_bind, ends_get, ends_peek, ends_ite, ends_throw, ends_pure, and_false, false_or,
    any_le]
  constructor
  · rintro ⟨_, _, ⟨rfl, rfl⟩, y, _, ⟨hy, rfl⟩, hmajor, ⟨⟩, k, hitem, _, _, ⟨rfl, rfl⟩, hafter,
      rfl, rfl⟩
    obtain ⟨v, hfits, hstands⟩ := (hx _ _).mp hitem
    obtain ⟨y', hy', hmajor'⟩ := Value.first hstands
    obtain rfl : y = y' := Option.some.inj (hy.symm.trans hy')
    obtain ⟨text, rfl⟩ := Value.eq_text (hmajor'.symm.trans (not_not.mp hmajor))
    rw [hstands.slice] at hafter ⊢
    rw [Value.encode] at hafter hstands ⊢
    exact ⟨text, ⟨hfits, hafter⟩, rfl, hstands⟩
  · rintro ⟨text, ⟨hfits, hafter⟩, rfl, hstands⟩
    have hencode : (Value.text text).encode = encodeText text := by rw [Value.encode]
    obtain ⟨y, hy, hmajor⟩ := Value.first (v := .text text) (hencode ▸ hstands)
    have hitem := (hx i j).mpr ⟨.text text, hfits, hencode ▸ hstands⟩
    rw [← hstands.slice] at hafter
    exact ⟨i, i, ⟨rfl, rfl⟩, y, i, ⟨hy, rfl⟩, not_not.mpr hmajor, ⟨⟩, j, hitem, j, j, ⟨rfl, rfl⟩,
      hafter, hstands.slice, rfl⟩

/-- Entries that fit, with keys that increase strictly from the one before them. -/
structure EntriesAfter (room : ℕ) (previous : Option Bytes) (entries : List (String × Value)) :
    Prop where
  fits : ∀ e ∈ entries, (Value.text e.1).Fits room ∧ e.2.Fits room
  sorted : (keysOf entries).Pairwise (· < ·)
  after : ∀ before, previous = some before → ∀ key ∈ keysOf entries, before < key

theorem EntriesAfter.nil (room : ℕ) (previous : Option Bytes) : EntriesAfter room previous [] where
  fits := by simp
  sorted := .nil
  after := by simp [keysOf]

theorem EntriesAfter.cons_iff {room : ℕ} {previous : Option Bytes} {text : String} {v : Value}
    {entries : List (String × Value)} : EntriesAfter room previous ((text, v) :: entries) ↔
      KeyAfter room previous text ∧ v.Fits room ∧ EntriesAfter room (some (encodeText text)) entries := by
  constructor
  · rintro ⟨hfits, hsorted, hafter⟩
    obtain ⟨⟨hkey, hvalue⟩, hrest⟩ := List.forall_mem_cons.mp hfits
    obtain ⟨hfirst, hsorted⟩ := List.pairwise_cons.mp hsorted
    refine ⟨⟨hkey, fun before hbefore => ?_⟩, hvalue, hrest, hsorted, ?_⟩
    · exact hafter before hbefore _ List.mem_cons_self
    · rintro _ ⟨⟩
      exact hfirst
  · rintro ⟨⟨hkey, hbefore⟩, hvalue, hrest, hsorted, hafter⟩
    have hfirst := hafter _ rfl
    refine ⟨List.forall_mem_cons.mpr ⟨⟨hkey, hvalue⟩, hrest⟩,
      List.pairwise_cons.mpr ⟨hfirst, hsorted⟩, fun before hp => ?_⟩
    refine List.forall_mem_cons.mpr ⟨hbefore before hp, fun key hmem => ?_⟩
    exact List.lt_trans (hbefore before hp) (hfirst key hmem)

theorem ends_map {x : Scan Error Unit} {room : ℕ} (hx : ReadsItem b room x)
    {previous : Option Bytes} : Ends (map b x n previous) i () j ↔
      ∃ entries : List (String × Value), entries.length = n ∧ EntriesAfter room previous entries ∧
        Stands b i (entries.flatMap encodeEntry) j := by
  induction n generalizing i previous with
  | zero =>
    rw [map, ends_pure]
    constructor
    · rintro ⟨_, rfl⟩
      exact ⟨[], rfl, .nil room previous, .nil⟩
    · rintro ⟨entries, hlength, _, hstands⟩
      rw [List.length_eq_zero_iff.mp hlength, List.flatMap_nil, Stands.nil_iff] at hstands
      exact ⟨rfl, hstands.symm⟩
  | succ n ih =>
    rw [map]
    simp only [ends_bind, ends_mapKey hx, ih]
    constructor
    · rintro ⟨_, k, ⟨text, hkey, rfl, hstands⟩, ⟨⟩, m, hitem, entries, hlength, hentries, hrest⟩
      obtain ⟨v, hfits, hvalue⟩ := (hx _ _).mp hitem
      refine ⟨(text, v) :: entries, by rw [List.length_cons, hlength],
        EntriesAfter.cons_iff.mpr ⟨hkey, hfits, hentries⟩, ?_⟩
      exact (hstands.append hvalue).append hrest
    · rintro ⟨entries, hlength, hentries, hstands⟩
      cases entries with
      | nil => cases hlength
      | cons e entries =>
        obtain ⟨text, v⟩ := e
        obtain ⟨hkey, hfits, hrest⟩ := EntriesAfter.cons_iff.mp hentries
        rw [List.flatMap_cons, encodeEntry, List.append_assoc, Stands.append_iff] at hstands
        obtain ⟨k, htext, hstands⟩ := hstands
        obtain ⟨m, hvalue, hstands⟩ := Stands.append_iff.mp hstands
        exact ⟨_, k, ⟨text, hkey, rfl, htext⟩, ⟨⟩, m, (hx _ _).mpr ⟨v, hfits, hvalue⟩, entries,
          Nat.succ.inj hlength, hrest, hstands⟩

theorem Value.fits_array {items : List Value} {room : ℕ} : (Value.array items).Fits (room + 1) ↔
    items.length < 2 ^ 64 ∧ ∀ v ∈ items, v.Fits room := by
  rw [Fits, Canonical, depth, canonicalItems_iff, depthItems_lt, and_assoc]
  apply and_congr_right
  intro _
  constructor
  · rintro ⟨hcanonical, hdepth⟩ v hv
    exact ⟨hcanonical v hv, hdepth v hv⟩
  · intro h
    exact ⟨fun v hv => (h v hv).1, fun v hv => (h v hv).2⟩

theorem Value.fits_text {text : String} {room : ℕ} :
    (Value.text text).Fits room ↔ (utf8 text).length < 2 ^ 64 ∧ 0 < room := by
  rw [Fits, Canonical, depth]
  all_goals simp

theorem Value.fits_map {entries : List (String × Value)} {room : ℕ} :
    (Value.map entries).Fits (room + 1) ↔
      entries.length < 2 ^ 64 ∧ EntriesAfter room none entries := by
  rw [Fits, Canonical, depth, canonicalEntries_iff, depthEntries_lt, and_assoc, and_assoc]
  apply and_congr_right
  intro _
  constructor
  · rintro ⟨hsorted, hcanonical, hdepth⟩
    refine ⟨fun e he => ?_, hsorted, by simp⟩
    obtain ⟨hkey, hvalue⟩ := hcanonical e he
    exact ⟨Value.fits_text.mpr ⟨hkey, Nat.zero_lt_of_lt (hdepth e he)⟩, hvalue, hdepth e he⟩
  · rintro ⟨hfits, hsorted, _⟩
    refine ⟨hsorted, fun e he => ?_, fun e he => (hfits e he).2.2⟩
    exact ⟨(Value.fits_text.mp (hfits e he).1).1, (hfits e he).2.1⟩

theorem ends_content {x : Scan Error Unit} {room major arg start : ℕ} (hx : ReadsItem b room x)
    (hi : i ≤ b.length) (hmajor : major ≤ 6) (harg : arg < 2 ^ 64) :
    Ends (content b x major arg start) i () j ↔
      ∃ v : Value, v.Fits (room + 1) ∧ v.major = major ∧ v.arg = arg ∧ Stands b i v.body j := by
  constructor
  · intro h
    match major, hmajor with
    | 0, _ =>
      obtain ⟨_, rfl⟩ := ends_pure.mp h
      refine ⟨.int arg, ⟨?_, ?_⟩, ?_, ?_, .nil⟩
      · rw [Value.Canonical]
        omega
      · rw [Value.depth]
        all_goals simp
      · rw [Value.major, if_pos (by omega)]
      · rw [Value.arg, if_pos (by omega), Int.toNat_natCast]
    | 1, _ =>
      obtain ⟨_, rfl⟩ := ends_pure.mp h
      refine ⟨.int (-1 - arg), ⟨?_, ?_⟩, ?_, ?_, .nil⟩
      · rw [Value.Canonical]
        omega
      · rw [Value.depth]
        all_goals simp
      · rw [Value.major, if_neg (by omega)]
      · rw [Value.arg, if_neg (by omega)]
        omega
    | 2, _ =>
      simp only [content, ends_bind, ends_take, ends_pure] at h
      obtain ⟨raw, _, ⟨rfl, _, hstands⟩, _, rfl⟩ := h
      refine ⟨.bytes raw, ⟨?_, ?_⟩, rfl, rfl, hstands⟩
      · rwa [Value.Canonical]
      · rw [Value.depth]
        all_goals simp
    | 3, _ =>
      simp only [content, ends_bind, ends_take, ends_textOf] at h
      obtain ⟨raw, _, ⟨rfl, _, hstands⟩, ⟨text, rfl⟩, rfl⟩ := h
      exact ⟨.text text, Value.fits_text.mpr ⟨harg, Nat.succ_pos room⟩, rfl, rfl, hstands⟩
    | 4, _ =>
      obtain ⟨items, rfl, hitems, hstands⟩ := (ends_times hx arg).mp h
      rw [← encodeItems_eq] at hstands
      exact ⟨.array items, Value.fits_array.mpr ⟨harg, hitems⟩, rfl, rfl, hstands⟩
    | 5, _ =>
      obtain ⟨entries, rfl, hentries, hstands⟩ := (ends_map hx).mp h
      rw [← encodeEntries_eq] at hstands
      exact ⟨.map entries, Value.fits_map.mpr ⟨harg, hentries⟩, rfl, rfl, hstands⟩
    | 6, _ => exact absurd h ends_throw
  · rintro ⟨v, hfits, rfl, rfl, hstands⟩
    cases v with
    | null => exact absurd hmajor (by decide)
    | bool _ => exact absurd hmajor (by simp [Value.major])
    | int n =>
      have hij := Stands.nil_iff.mp hstands
      subst hij
      rcases Value.major_int n with ⟨hn, _⟩ | ⟨hn, _⟩
      · rw [hn]
        exact ends_pure.mpr ⟨rfl, rfl⟩
      · rw [hn]
        exact ends_pure.mpr ⟨rfl, rfl⟩
    | bytes raw =>
      rw [Value.major]
      simp only [content, ends_bind, ends_take, ends_pure]
      exact ⟨raw, j, ⟨rfl, hstands.inside hi, hstands⟩, trivial, rfl⟩
    | text text =>
      rw [Value.major]
      simp only [content, ends_bind, ends_take, ends_textOf]
      exact ⟨utf8 text, j, ⟨rfl, hstands.inside hi, hstands⟩, ⟨text, rfl⟩, rfl⟩
    | array items =>
      rw [Value.body, encodeItems_eq] at hstands
      exact (ends_times hx _).mpr ⟨items, rfl, (Value.fits_array.mp hfits).2, hstands⟩
    | map entries =>
      rw [Value.body, encodeEntries_eq] at hstands
      exact (ends_map hx).mpr ⟨entries, rfl, (Value.fits_map.mp hfits).2, hstands⟩

theorem Value.of_simple {n : ℕ} (hlow : 20 ≤ n) (hhigh : n ≤ 22) :
    ∃ v : Value, v.major = 7 ∧ v.Canonical ∧ v.depth = 0 ∧ v.encode = [initial 7 n] := by
  obtain rfl | rfl | rfl : n = 20 ∨ n = 21 ∨ n = 22 := by omega
  · exact ⟨.bool false, rfl, trivial, rfl, rfl⟩
  · exact ⟨.bool true, rfl, trivial, rfl, rfl⟩
  · exact ⟨.null, rfl, trivial, rfl, rfl⟩

theorem Value.simple {v : Value} (h : v.major = 7) :
    ∃ n, 20 ≤ n ∧ n ≤ 22 ∧ v.encode = [initial 7 n] := by
  cases v with
  | null => exact ⟨22, by decide, by decide, rfl⟩
  | bool b => cases b with
    | false => exact ⟨20, by decide, by decide, rfl⟩
    | true => exact ⟨21, by decide, by decide, rfl⟩
  | int n => rcases Value.major_int n with ⟨hn, _⟩ | ⟨hn, _⟩ <;> omega
  | _ => cases h

/-- An item is read exactly where a value stands that fits. -/
theorem reads_item (b : Bytes) (room : ℕ) : ReadsItem b room (item b room) := by
  induction room with
  | zero =>
    intro i j
    simp only [item, ends_bind, ends_throw]
    constructor
    · rintro ⟨_, _, _, hfalse⟩
      exact absurd hfalse id
    · rintro ⟨v, hfits, _⟩
      exact absurd hfits.2 (Nat.not_lt_zero _)
  | succ room ih =>
    intro i j
    simp only [item, ends_bind, ends_peek, ends_ite]
    constructor
    · rintro ⟨x, _, ⟨hx, rfl⟩, ⟨hseven, h⟩ | ⟨hseven, ⟨major, arg, start⟩, k, hhead, h⟩⟩
      · obtain ⟨n, hlow, hhigh, hstands⟩ := (ends_simpleOrFloat hx hseven).mp h
        obtain ⟨v, _, hcanonical, hdepth, hencode⟩ := Value.of_simple hlow hhigh
        exact ⟨v, ⟨hcanonical, hdepth ▸ Nat.succ_pos room⟩, hencode ▸ hstands⟩
      · obtain ⟨rfl, hlt, harg, hstands⟩ := ends_head.mp hhead
        have hfirst : (x >>> 5).toNat = major := by
          rw [headBytes] at hstands
          obtain rfl : x = _ := Option.some.inj (hx.symm.trans hstands.head)
          exact ((eq_initial hlt (info_lt arg)).mp rfl).1
        obtain ⟨v, hfits, rfl, rfl, hbody⟩ :=
          (ends_content ih (hstands.le_length (by simp [headBytes])) (by omega) harg).mp h
        exact ⟨v, hfits, v.encode_eq ▸ hstands.append hbody⟩
    · rintro ⟨v, hfits, hstands⟩
      obtain ⟨x, hx, hmajor⟩ := Value.first hstands
      refine ⟨x, i, ⟨hx, rfl⟩, ?_⟩
      by_cases hseven : (x >>> 5).toNat = 7
      · left
        obtain ⟨n, hlow, hhigh, hencode⟩ := Value.simple (hmajor.symm.trans hseven)
        exact ⟨hseven, (ends_simpleOrFloat hx hseven).mpr ⟨n, hlow, hhigh, hencode ▸ hstands⟩⟩
      · right
        rw [v.encode_eq, Stands.append_iff] at hstands
        obtain ⟨k, hhead, hbody⟩ := hstands
        have hlt := v.major_lt
        refine ⟨hseven, (v.major, v.arg, i), k,
          ends_head.mpr ⟨rfl, hlt, hfits.1.arg_lt, hhead⟩, ?_⟩
        exact (ends_content ih (hhead.le_length (by simp [headBytes])) (by omega)
          hfits.1.arg_lt).mpr ⟨v, hfits, rfl, rfl, hbody⟩

end Reads

/-- The bytes are the canonical encoding of the value, and it is nested no deeper than allowed. -/
structure Denotes (b : Bytes) (v : Value) : Prop where
  canonical : v.Canonical
  shallow : v.depth ≤ maxDepth
  encode : v.encode = b

theorem Denotes.unique {b : Bytes} {v v' : Value} (h : Denotes b v) (h' : Denotes b v') : v = v' :=
  Value.encode_injective h.canonical h'.canonical (h.encode.trans h'.encode.symm)

theorem whole_ok {α : Type} {b : Bytes} {x : Scan Error α} {a : α} :
    whole b x = .ok a ↔ b ≠ [] ∧ Ends x 0 a b.length := by
  rw [whole, Ends]
  cases b with
  | nil =>
    constructor
    · intro h
      cases h
    · intro h
      exact absurd rfl h.1
  | cons first rest =>
    simp only [List.isEmpty_cons, Bool.false_eq_true, if_false]
    cases hrun : x.run 0 with
    | error e =>
      constructor
      · intro h
        cases h
      · intro h
        cases h.2
    | ok p =>
      obtain ⟨answer, stop⟩ := p
      constructor
      · intro h
        dsimp only at h
        split at h
        next hstop =>
          cases h
          exact ⟨by simp, by rw [hstop]⟩
        next => cases h
      · rintro ⟨_, h⟩
        cases h
        exact if_pos rfl

theorem Value.encode_ne_nil (v : Value) : v.encode ≠ [] := by
  rw [v.encode_eq, headBytes, List.cons_append]
  exact List.cons_ne_nil _ _

/-- The bytes from one end to the other are the encoding of a value that fits. -/
theorem denotes_iff {b : Bytes} {v : Value} :
    v.Fits (maxDepth + 1) ∧ Stands b 0 v.encode b.length ↔ Denotes b v := by
  rw [Stands.whole_iff]
  constructor
  · rintro ⟨hfits, hencode⟩
    exact ⟨hfits.1, Nat.lt_succ_iff.mp hfits.2, hencode⟩
  · rintro ⟨hcanonical, hshallow, hencode⟩
    exact ⟨⟨hcanonical, Nat.lt_succ_iff.mpr hshallow⟩, hencode⟩

theorem scanStrict_ok {b : Bytes} : scanStrict b = .ok () ↔ ∃ v, Denotes b v := by
  rw [scanStrict, whole_ok, reads_item b (maxDepth + 1) 0 b.length]
  simp only [denotes_iff]
  apply and_iff_right_of_imp
  rintro ⟨v, h⟩
  rw [← h.encode]
  exact v.encode_ne_nil

/-- The strict scan accepts the canonical encodings and nothing else, and what it accepts has one
value and is the only encoding of it. -/
theorem scan_accepts_canonical (b : Bytes) : (scanStrict b = .ok () ↔ ∃! v, Denotes b v) ∧
    ∀ b' v, Denotes b v → Denotes b' v → b = b' := by
  constructor
  · rw [scanStrict_ok]
    constructor
    · rintro ⟨v, h⟩
      exact ⟨v, h, fun v' h' => h'.unique h⟩
    · rintro ⟨v, h, _⟩
      exact ⟨v, h⟩
  · intro b' v h h'
    exact h.encode.symm.trans h'.encode

/-- Keys are compared as they are written: a shorter one comes first, whatever its letters. -/
example : scanStrict [0xa2, 0x61, 0x62, 0x01, 0x62, 0x61, 0x61, 0x02] = .ok () ∧
    scanStrict [0xa2, 0x62, 0x61, 0x61, 0x02, 0x61, 0x62, 0x01] =
      .error (.unsortedOrDuplicateMapKey 5) := by
  decide

end Tracefold.DagCbor
