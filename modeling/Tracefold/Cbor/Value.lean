import Mathlib.Data.List.Induction
import Mathlib.Tactic.Common
import Tracefold.Core

/-! The values canonical DAG-CBOR writes down, and the one way it writes each. -/

namespace Tracefold.DagCbor

/-- A value of the IPLD data model, without floats and without links. -/
inductive Value where
  | null
  | bool (b : Bool)
  | int (n : Int)
  | bytes (raw : Bytes)
  | text (s : String)
  | array (items : List Value)
  | map (entries : List (String × Value))

/-- The big-endian bytes of a number, in a given width. -/
def beBytes : ℕ → ℕ → Bytes
  | 0, _ => []
  | width + 1, n => beBytes width (n / 256) ++ [.ofNat n]

/-- The number some big-endian bytes are of. -/
def beNat (raw : Bytes) : ℕ := raw.foldl (fun n x => n * 256 + x.toNat) 0

@[simp]
theorem length_beBytes (width n : ℕ) : (beBytes width n).length = width := by
  induction width generalizing n with
  | zero => rfl
  | succ width ih => rw [beBytes, List.length_append, ih, List.length_singleton]

theorem beNat_concat (raw : Bytes) (x : UInt8) : beNat (raw ++ [x]) = beNat raw * 256 + x.toNat := by
  rw [beNat, List.foldl_append]
  rfl

theorem beNat_lt (raw : Bytes) : beNat raw < 256 ^ raw.length := by
  induction raw using List.reverseRecOn with
  | nil => exact Nat.one_pos
  | append_singleton raw x ih =>
    have hx := x.toNat_lt
    rw [beNat_concat, List.length_append, List.length_singleton, Nat.pow_succ]
    omega

theorem beNat_beBytes {width n : ℕ} (h : n < 256 ^ width) : beNat (beBytes width n) = n := by
  induction width generalizing n with
  | zero =>
    rw [Nat.pow_zero, Nat.lt_one_iff] at h
    rw [h]
    rfl
  | succ width ih =>
    have hdiv : n / 256 < 256 ^ width := by
      rw [Nat.pow_succ] at h
      exact Nat.div_lt_of_lt_mul (by rwa [Nat.mul_comm])
    rw [beBytes, beNat_concat, ih hdiv, UInt8.toNat_ofNat']
    omega

theorem beBytes_beNat (raw : Bytes) : beBytes raw.length (beNat raw) = raw := by
  induction raw using List.reverseRecOn with
  | nil => rfl
  | append_singleton raw x ih =>
    have hx := x.toNat_lt
    have hdiv : (beNat raw * 256 + x.toNat) / 256 = beNat raw := by omega
    have hmod : UInt8.ofNat (beNat raw * 256 + x.toNat) = x := by
      apply UInt8.toNat_inj.mp
      rw [UInt8.toNat_ofNat']
      omega
    rw [List.length_append, List.length_singleton, beNat_concat, beBytes, hdiv, hmod, ih]

/-- The first byte of a head. -/
def initial (major ai : ℕ) : UInt8 := .ofNat (32 * major + ai)

/-- The additional information of the shortest head with an argument. -/
def info (n : ℕ) : ℕ :=
  if n < 24 then n
  else if n < 2 ^ 8 then 24
  else if n < 2 ^ 16 then 25
  else if n < 2 ^ 32 then 26
  else 27

/-- The bytes after the first one of the shortest head with an argument. -/
def extension (n : ℕ) : Bytes :=
  if n < 24 then []
  else if n < 2 ^ 8 then beBytes 1 n
  else if n < 2 ^ 16 then beBytes 2 n
  else if n < 2 ^ 32 then beBytes 4 n
  else beBytes 8 n

/-- The shortest head of a major type and an argument. -/
def headBytes (major n : ℕ) : Bytes := initial major (info n) :: extension n

/-- `str::as_bytes`. -/
def utf8 (text : String) : Bytes := text.toByteArray.data.toList

def encodeText (text : String) : Bytes := headBytes 3 (utf8 text).length ++ utf8 text

mutual

/-- The canonical encoding. -/
def Value.encode : Value → Bytes
  | .null => headBytes 7 22
  | .bool b => headBytes 7 (if b then 21 else 20)
  | .int n => if 0 ≤ n then headBytes 0 n.toNat else headBytes 1 (-1 - n).toNat
  | .bytes raw => headBytes 2 raw.length ++ raw
  | .text s => encodeText s
  | .array items => headBytes 4 items.length ++ encodeItems items
  | .map entries => headBytes 5 entries.length ++ encodeEntries entries

def encodeItems : List Value → Bytes
  | [] => []
  | v :: vs => v.encode ++ encodeItems vs

def encodeEntries : List (String × Value) → Bytes
  | [] => []
  | (key, v) :: entries => encodeText key ++ v.encode ++ encodeEntries entries

end

mutual

/-- How many containers the deepest item of a value stands in. -/
def Value.depth : Value → ℕ
  | .array items => depthItems items
  | .map entries => depthEntries entries
  | _ => 0

def depthItems : List Value → ℕ
  | [] => 0
  | v :: vs => max (v.depth + 1) (depthItems vs)

def depthEntries : List (String × Value) → ℕ
  | [] => 0
  | (_, v) :: entries => max (v.depth + 1) (depthEntries entries)

end

/-- The keys of a map, each as it is written. -/
def keysOf (entries : List (String × Value)) : List Bytes := entries.map fun e => encodeText e.1

mutual

/-- The value has a canonical encoding: its integers and lengths fit a head, and the keys of a map
increase strictly in the bytewise order of their encoded form. -/
def Value.Canonical : Value → Prop
  | .int n => -2 ^ 64 ≤ n ∧ n < 2 ^ 64
  | .bytes raw => raw.length < 2 ^ 64
  | .text s => (utf8 s).length < 2 ^ 64
  | .array items => items.length < 2 ^ 64 ∧ CanonicalItems items
  | .map entries =>
    entries.length < 2 ^ 64 ∧ (keysOf entries).Pairwise (· < ·) ∧ CanonicalEntries entries
  | _ => True

def CanonicalItems : List Value → Prop
  | [] => True
  | v :: vs => v.Canonical ∧ CanonicalItems vs

def CanonicalEntries : List (String × Value) → Prop
  | [] => True
  | (key, v) :: entries => (utf8 key).length < 2 ^ 64 ∧ v.Canonical ∧ CanonicalEntries entries

end

theorem encodeItems_eq (items : List Value) : encodeItems items = items.flatMap Value.encode := by
  induction items with
  | nil => rfl
  | cons v vs ih => rw [encodeItems, ih, List.flatMap_cons]

def encodeEntry (e : String × Value) : Bytes := encodeText e.1 ++ e.2.encode

theorem encodeEntries_eq (entries : List (String × Value)) :
    encodeEntries entries = entries.flatMap encodeEntry := by
  induction entries with
  | nil => rfl
  | cons e entries ih =>
    obtain ⟨key, v⟩ := e
    rw [encodeEntries, ih, List.flatMap_cons]
    rfl

theorem canonicalItems_iff {items : List Value} :
    CanonicalItems items ↔ ∀ v ∈ items, v.Canonical := by
  induction items with
  | nil => simp [CanonicalItems]
  | cons v vs ih => rw [CanonicalItems, ih, List.forall_mem_cons]

theorem canonicalEntries_iff {entries : List (String × Value)} :
    CanonicalEntries entries ↔ ∀ e ∈ entries, (utf8 e.1).length < 2 ^ 64 ∧ e.2.Canonical := by
  induction entries with
  | nil => simp [CanonicalEntries]
  | cons e entries ih =>
    obtain ⟨key, v⟩ := e
    rw [CanonicalEntries, ih, List.forall_mem_cons, and_assoc]

theorem depthItems_lt {items : List Value} {room : ℕ} :
    depthItems items < room + 1 ↔ ∀ v ∈ items, v.depth < room := by
  induction items with
  | nil => simp [depthItems]
  | cons v vs ih =>
    rw [depthItems, Nat.max_lt, ih, List.forall_mem_cons, Nat.add_lt_add_iff_right]

theorem depthEntries_lt {entries : List (String × Value)} {room : ℕ} :
    depthEntries entries < room + 1 ↔ ∀ e ∈ entries, e.2.depth < room := by
  induction entries with
  | nil => simp [depthEntries]
  | cons e entries ih =>
    obtain ⟨key, v⟩ := e
    rw [depthEntries, Nat.max_lt, ih, List.forall_mem_cons, Nat.add_lt_add_iff_right]

/-- The major type of a value. -/
def Value.major : Value → ℕ
  | .null => 7
  | .bool _ => 7
  | .int n => if 0 ≤ n then 0 else 1
  | .bytes _ => 2
  | .text _ => 3
  | .array _ => 4
  | .map _ => 5

/-- The argument in the head of a value. -/
def Value.arg : Value → ℕ
  | .null => 22
  | .bool b => if b then 21 else 20
  | .int n => if 0 ≤ n then n.toNat else (-1 - n).toNat
  | .bytes raw => raw.length
  | .text s => (utf8 s).length
  | .array items => items.length
  | .map entries => entries.length

/-- What follows the head of a value. -/
def Value.body : Value → Bytes
  | .null => []
  | .bool _ => []
  | .int _ => []
  | .bytes raw => raw
  | .text s => utf8 s
  | .array items => encodeItems items
  | .map entries => encodeEntries entries

theorem Value.encode_eq (v : Value) : v.encode = headBytes v.major v.arg ++ v.body := by
  cases v with
  | null => rfl
  | bool b => cases b <;> rfl
  | int n =>
    rw [encode, major, arg, body, List.append_nil]
    split
    · rfl
    · rfl
  | bytes raw => rw [encode, major, arg, body]
  | text s => rw [encode, major, arg, body, encodeText]
  | array items => rw [encode, major, arg, body]
  | map entries => rw [encode, major, arg, body]

theorem Value.major_lt (v : Value) : v.major < 8 := by
  cases v with
  | int n =>
    rw [major]
    split <;> decide
  | _ => simp [major]

theorem Value.Canonical.arg_lt {v : Value} (h : v.Canonical) : v.arg < 2 ^ 64 := by
  cases v with
  | null => decide
  | bool b => cases b <;> decide
  | int n =>
    rw [Canonical] at h
    rw [arg]
    split <;> omega
  | bytes raw => rwa [Canonical] at h
  | text s => rwa [Canonical] at h
  | array items =>
    rw [Canonical] at h
    exact h.1
  | map entries =>
    rw [Canonical] at h
    exact h.1

theorem info_lt (n : ℕ) : info n < 32 := by
  unfold info
  split
  · omega
  · split
    · decide
    · split
      · decide
      · split <;> decide

theorem initial_inj {major major' ai ai' : ℕ} (hm : major < 8) (hm' : major' < 8) (ha : ai < 32)
    (ha' : ai' < 32) (h : initial major ai = initial major' ai') : major = major' ∧ ai = ai' := by
  have hnat := congrArg UInt8.toNat h
  rw [initial, initial, UInt8.toNat_ofNat', UInt8.toNat_ofNat'] at hnat
  omega

/-- How many bytes an additional information announces, and how large their number has to be for
no shorter head to hold it. -/
inductive Wide : ℕ → ℕ → ℕ → Prop where
  | one : Wide 24 1 24
  | two : Wide 25 2 (2 ^ 8)
  | four : Wide 26 4 (2 ^ 16)
  | eight : Wide 27 8 (2 ^ 32)

theorem info_cases {n : ℕ} (h : n < 2 ^ 64) : (n < 24 ∧ info n = n ∧ extension n = []) ∨
    ∃ width low, Wide (info n) width low ∧ low ≤ n ∧ n < 256 ^ width ∧
      extension n = beBytes width n := by
  unfold info extension
  split
  next h24 => exact .inl ⟨h24, rfl, rfl⟩
  next h24 =>
    right
    split
    next h8 => exact ⟨1, 24, .one, by omega, by omega, rfl⟩
    next h8 =>
      split
      next h16 => exact ⟨2, 2 ^ 8, .two, by omega, by omega, rfl⟩
      next h16 =>
        split
        next h32 => exact ⟨4, 2 ^ 16, .four, by omega, by omega, rfl⟩
        next h32 => exact ⟨8, 2 ^ 32, .eight, by omega, by omega, rfl⟩

theorem Wide.info_eq {ai width low n : ℕ} (h : Wide ai width low) (hlow : low ≤ n)
    (hn : n < 256 ^ width) : info n = ai ∧ extension n = beBytes width n := by
  unfold info extension
  cases h with
  | one =>
    have h24 : ¬ n < 24 := by omega
    have h8 : n < 2 ^ 8 := by omega
    rw [if_neg h24, if_pos h8, if_neg h24, if_pos h8]
    exact ⟨rfl, rfl⟩
  | two =>
    have h24 : ¬ n < 24 := by omega
    have h8 : ¬ n < 2 ^ 8 := by omega
    have h16 : n < 2 ^ 16 := by omega
    rw [if_neg h24, if_neg h8, if_pos h16, if_neg h24, if_neg h8, if_pos h16]
    exact ⟨rfl, rfl⟩
  | four =>
    have h24 : ¬ n < 24 := by omega
    have h8 : ¬ n < 2 ^ 8 := by omega
    have h16 : ¬ n < 2 ^ 16 := by omega
    have h32 : n < 2 ^ 32 := by omega
    rw [if_neg h24, if_neg h8, if_neg h16, if_pos h32, if_neg h24, if_neg h8, if_neg h16, if_pos h32]
    exact ⟨rfl, rfl⟩
  | eight =>
    have h24 : ¬ n < 24 := by omega
    have h8 : ¬ n < 2 ^ 8 := by omega
    have h16 : ¬ n < 2 ^ 16 := by omega
    have h32 : ¬ n < 2 ^ 32 := by omega
    rw [if_neg h24, if_neg h8, if_neg h16, if_neg h32, if_neg h24, if_neg h8, if_neg h16, if_neg h32]
    exact ⟨rfl, rfl⟩

theorem Wide.unique {ai width low width' low' : ℕ} (h : Wide ai width low)
    (h' : Wide ai width' low') : width = width' ∧ low = low' := by
  cases h <;> cases h' <;> exact ⟨rfl, rfl⟩

theorem Wide.le_info {ai width low : ℕ} (h : Wide ai width low) : 24 ≤ ai := by
  cases h <;> decide

theorem headBytes_append {major major' n n' : ℕ} {s t : Bytes} (hm : major < 8) (hm' : major' < 8)
    (hn : n < 2 ^ 64) (hn' : n' < 2 ^ 64)
    (h : headBytes major n ++ s = headBytes major' n' ++ t) :
    major = major' ∧ n = n' ∧ s = t := by
  rw [headBytes, headBytes, List.cons_append, List.cons_append, List.cons.injEq] at h
  obtain ⟨hfirst, h⟩ := h
  obtain ⟨rfl, hinfo⟩ := initial_inj hm hm' (info_lt n) (info_lt n') hfirst
  refine ⟨rfl, ?_⟩
  rcases info_cases hn with ⟨hlt, hi, he⟩ | ⟨width, low, hwide, hlow, hlt, he⟩
  · rcases info_cases hn' with ⟨hlt', hi', he'⟩ | ⟨width', low', hwide', _⟩
    · rw [he, he'] at h
      exact ⟨by omega, h⟩
    · have := hwide'.le_info
      omega
  · rcases info_cases hn' with ⟨hlt', hi', he'⟩ | ⟨width', low', hwide', _, hlt', he'⟩
    · have := hwide.le_info
      omega
    · rw [← hinfo] at hwide'
      obtain ⟨rfl, _⟩ := hwide.unique hwide'
      rw [he, he'] at h
      obtain ⟨hext, hrest⟩ := List.append_inj h (by rw [length_beBytes, length_beBytes])
      have hvalue := congrArg beNat hext
      rw [beNat_beBytes hlt, beNat_beBytes hlt'] at hvalue
      exact ⟨hvalue, hrest⟩

theorem utf8_injective : Function.Injective utf8 := by
  intro a b h
  rw [← String.toByteArray_inj]
  exact ByteArray.ext (Array.toList_inj.mp h)

theorem encodeText_append {a b : String} {s t : Bytes} (ha : (utf8 a).length < 2 ^ 64)
    (hb : (utf8 b).length < 2 ^ 64) (h : encodeText a ++ s = encodeText b ++ t) :
    a = b ∧ s = t := by
  rw [encodeText, encodeText, List.append_assoc, List.append_assoc] at h
  obtain ⟨_, hlength, h⟩ := headBytes_append (by decide) (by decide) ha hb h
  obtain ⟨htext, hrest⟩ := List.append_inj h hlength
  exact ⟨utf8_injective htext, hrest⟩

theorem Value.major_int (n : Int) : (Value.int n).major = 0 ∧ 0 ≤ n ∨ (Value.int n).major = 1 ∧ n < 0 := by
  rw [major]
  split
  next h => exact .inl ⟨rfl, h⟩
  next h => exact .inr ⟨rfl, Int.not_le.mp h⟩

theorem Value.not_int {v : Value} {n : Int} (h : v.major = (Value.int n).major) : v.major ≤ 1 := by
  rcases Value.major_int n with ⟨hn, _⟩ | ⟨hn, _⟩ <;> omega

theorem Value.int_inj {n n' : Int} (hmajor : (Value.int n).major = (Value.int n').major)
    (harg : (Value.int n).arg = (Value.int n').arg) : n = n' := by
  rw [arg, arg] at harg
  rcases Value.major_int n with ⟨hn, hpos⟩ | ⟨hn, hneg⟩
  · rcases Value.major_int n' with ⟨hn', hpos'⟩ | ⟨hn', _⟩
    · rw [if_pos hpos, if_pos hpos'] at harg
      omega
    · omega
  · rcases Value.major_int n' with ⟨hn', _⟩ | ⟨hn', hneg'⟩
    · omega
    · rw [if_neg (by omega), if_neg (by omega)] at harg
      omega

/-- The encoding of a value determines it and where it ends. -/
def Value.Delimited (v : Value) : Prop :=
  ∀ (v' : Value) (s t : Bytes), v.Canonical → v'.Canonical →
    v.encode ++ s = v'.encode ++ t → v = v' ∧ s = t

theorem encodeItems_append {items items' : List Value} {s t : Bytes}
    (hone : ∀ v ∈ items, v.Delimited) (hv : CanonicalItems items) (hv' : CanonicalItems items')
    (hlength : items.length = items'.length)
    (h : encodeItems items ++ s = encodeItems items' ++ t) : items = items' ∧ s = t := by
  induction items generalizing items' with
  | nil =>
    obtain rfl := List.eq_nil_of_length_eq_zero hlength.symm
    exact ⟨rfl, h⟩
  | cons v vs ih =>
    obtain ⟨v', vs', rfl⟩ := List.exists_cons_of_length_eq_add_one hlength.symm
    rw [CanonicalItems] at hv hv'
    rw [encodeItems, encodeItems, List.append_assoc, List.append_assoc] at h
    obtain ⟨rfl, hrest⟩ := hone v List.mem_cons_self v' _ _ hv.1 hv'.1 h
    obtain ⟨rfl, hst⟩ := ih (fun w hw => hone w (List.mem_cons_of_mem v hw)) hv.2 hv'.2
      (Nat.succ.inj hlength) hrest
    exact ⟨rfl, hst⟩

theorem encodeEntries_append {entries entries' : List (String × Value)} {s t : Bytes}
    (hone : ∀ e ∈ entries, e.2.Delimited) (hv : CanonicalEntries entries)
    (hv' : CanonicalEntries entries') (hlength : entries.length = entries'.length)
    (h : encodeEntries entries ++ s = encodeEntries entries' ++ t) :
    entries = entries' ∧ s = t := by
  induction entries generalizing entries' with
  | nil =>
    obtain rfl := List.eq_nil_of_length_eq_zero hlength.symm
    exact ⟨rfl, h⟩
  | cons e es ih =>
    obtain ⟨key, v⟩ := e
    obtain ⟨⟨key', v'⟩, es', rfl⟩ := List.exists_cons_of_length_eq_add_one hlength.symm
    rw [CanonicalEntries] at hv hv'
    simp only [encodeEntries, List.append_assoc] at h
    obtain ⟨rfl, hvalue⟩ := encodeText_append hv.1 hv'.1 h
    obtain ⟨rfl, hrest⟩ := hone (key, v) List.mem_cons_self v' _ _ hv.2.1 hv'.2.1 hvalue
    obtain ⟨rfl, hst⟩ := ih (fun w hw => hone w (List.mem_cons_of_mem _ hw)) hv.2.2 hv'.2.2
      (Nat.succ.inj hlength) hrest
    exact ⟨rfl, hst⟩

theorem Value.delimited_of_smaller {v : Value}
    (hsmaller : ∀ w : Value, sizeOf w < sizeOf v → w.Delimited) : v.Delimited := by
  intro v' s t hv hv' h
  rw [v.encode_eq, v'.encode_eq, List.append_assoc, List.append_assoc] at h
  obtain ⟨hmajor, harg, hbody⟩ :=
    headBytes_append v.major_lt v'.major_lt hv.arg_lt hv'.arg_lt h
  cases v with
  | null =>
    cases v' with
    | null => exact ⟨rfl, hbody⟩
    | bool b => cases b <;> cases harg
    | int n => exact absurd (Value.not_int hmajor) (by decide)
    | _ => cases hmajor
  | bool b =>
    cases v' with
    | null => cases b <;> cases harg
    | bool b' => cases b <;> cases b' <;> first | exact ⟨rfl, hbody⟩ | cases harg
    | int n => exact absurd (Value.not_int hmajor) (by simp [Value.major])
    | _ => cases hmajor
  | int n =>
    cases v' with
    | int n' => exact ⟨congrArg Value.int (Value.int_inj hmajor harg), hbody⟩
    | _ => exact absurd (Value.not_int hmajor.symm) (by simp [Value.major])
  | bytes raw =>
    cases v' with
    | bytes raw' =>
      obtain ⟨hraw, hrest⟩ := List.append_inj hbody harg
      exact ⟨congrArg Value.bytes hraw, hrest⟩
    | int n => exact absurd (Value.not_int hmajor) (by simp [Value.major])
    | _ => cases hmajor
  | text a =>
    cases v' with
    | text b =>
      obtain ⟨htext, hrest⟩ := List.append_inj hbody harg
      exact ⟨congrArg Value.text (utf8_injective htext), hrest⟩
    | int n => exact absurd (Value.not_int hmajor) (by simp [Value.major])
    | _ => cases hmajor
  | array items =>
    cases v' with
    | array items' =>
      have hone : ∀ w ∈ items, w.Delimited := by
        intro w hw
        apply hsmaller
        have hlt := List.sizeOf_lt_of_mem hw
        rw [Value.array.sizeOf_spec]
        omega
      rw [Value.Canonical] at hv hv'
      obtain ⟨hitems, hrest⟩ := encodeItems_append hone hv.2 hv'.2 harg hbody
      exact ⟨congrArg Value.array hitems, hrest⟩
    | int n => exact absurd (Value.not_int hmajor) (by simp [Value.major])
    | _ => cases hmajor
  | map entries =>
    cases v' with
    | map entries' =>
      have hone : ∀ e ∈ entries, e.2.Delimited := by
        intro e he
        apply hsmaller
        have hlt := List.sizeOf_lt_of_mem he
        have hpair : sizeOf e = 1 + sizeOf e.1 + sizeOf e.2 := rfl
        rw [Value.map.sizeOf_spec]
        omega
      rw [Value.Canonical] at hv hv'
      obtain ⟨hentries, hrest⟩ := encodeEntries_append hone hv.2.2 hv'.2.2 harg hbody
      exact ⟨congrArg Value.map hentries, hrest⟩
    | int n => exact absurd (Value.not_int hmajor) (by simp [Value.major])
    | _ => cases hmajor

theorem Value.delimited (v : Value) : v.Delimited :=
  Value.delimited_of_smaller fun w _ => w.delimited
termination_by sizeOf v
decreasing_by assumption

/-- A canonical encoding determines its value and where it ends. -/
theorem Value.encode_append {v v' : Value} {s t : Bytes} (hv : v.Canonical) (hv' : v'.Canonical)
    (h : v.encode ++ s = v'.encode ++ t) : v = v' ∧ s = t :=
  v.delimited v' s t hv hv' h

theorem Value.encode_injective {v v' : Value} (hv : v.Canonical) (hv' : v'.Canonical)
    (h : v.encode = v'.encode) : v = v' :=
  (Value.encode_append (s := []) (t := []) hv hv' (by rw [h])).1

end Tracefold.DagCbor
