import Mathlib.Tactic.Common
import Tracefold.Cbor.Encode

/-! What serde reads from canonical DAG-CBOR: the value of some bytes, and the members of a struct. -/

namespace Tracefold.DagCbor

/-- `serde_ipld_dagcbor::from_slice`. -/
class FromSlice where
  fromSlice : Bytes → Option Value

/-- Bytes that are canonical are read as what they are the encoding of. -/
class LawfulFromSlice [FromSlice] : Prop where
  reads : ∀ {b v}, Denotes b v → FromSlice.fromSlice b = some v

section Decode

variable [FromSlice]

/-- `cbor::decode`, up to the value. -/
def decode (b : Bytes) : Option Value :=
  if scanStrict b = .ok () then FromSlice.fromSlice b else none

variable [LawfulFromSlice]

theorem decode_eq_some {b : Bytes} {v : Value} : decode b = some v ↔ Denotes b v := by
  unfold decode
  constructor
  · intro h
    split at h
    next hscan =>
      obtain ⟨v', hv'⟩ := scanStrict_ok.mp hscan
      rw [LawfulFromSlice.reads hv'] at h
      cases h
      exact hv'
    next => cases h
  · intro h
    rw [if_pos (scanStrict_ok.mpr ⟨v, h⟩), LawfulFromSlice.reads h]

theorem decode_encode {b : Bytes} {v : Value} (h : encode v = some b) : decode b = some v :=
  decode_eq_some.mpr (encode_eq_some.mp h)

end Decode

/-- Every reader of bytes that are canonical reads the one value they denote. -/
noncomputable abbrev theReader : FromSlice where
  fromSlice b := open Classical in if h : ∃ v, Denotes b v then some h.choose else none

open Classical in
theorem theReader_lawful : @LawfulFromSlice theReader := by
  apply @LawfulFromSlice.mk theReader
  intro b v h
  have hex : ∃ v, Denotes b v := ⟨v, h⟩
  show (if h : ∃ v, Denotes b v then some h.choose else none) = some v
  rw [dif_pos hex, h.unique hex.choose_spec]

section Members

variable {α : Type} (read : Value → Option α)

/-- The member of a struct. What the struct has no member for is passed over. -/
def member (entries : List (String × Value)) (key : String) : Option Value :=
  (entries.find? fun e => e.1 = key).map Prod.snd

/-- A member that has to be there. -/
def required (entries : List (String × Value)) (key : String) : Option α :=
  (member entries key).bind read

/-- A member of an option type, which may be missing. -/
def optional (entries : List (String × Value)) (key : String) : Option (Option α) :=
  match member entries key with
  | none => some none
  | some .null => some none
  | some v => (read v).map some

def ofBytes : Value → Option Bytes
  | .bytes raw => some raw
  | _ => none

def ofText : Value → Option String
  | .text s => some s
  | _ => none

def ofBool : Value → Option Bool
  | .bool b => some b
  | _ => none

/-- An `i64`. -/
abbrev I64 := { n : Int // -2 ^ 63 ≤ n ∧ n < 2 ^ 63 }

def ofInt : Value → Option I64
  | .int n => if h : -2 ^ 63 ≤ n ∧ n < 2 ^ 63 then some ⟨n, h⟩ else none
  | _ => none

def ofArray : Value → Option (List α)
  | .array items => items.mapM read
  | _ => none

/-- What an option is written as. -/
def optionValue (value : α → Value) : Option α → Value
  | none => .null
  | some a => value a

variable {read} {entries : List (String × Value)} {key : String} {v : Value}

@[simp]
theorem member_self : member ((key, v) :: entries) key = some v := by
  simp [member]

theorem member_cons {other : String} (h : other ≠ key) :
    member ((other, v) :: entries) key = member entries key := by
  simp [member, h]

theorem optional_of_member {value : α → Value} {o : Option α} (hnull : ∀ a, value a ≠ .null)
    (hread : ∀ a, read (value a) = some a) (h : member entries key = some (optionValue value o)) :
    optional read entries key = some o := by
  rw [optional, h]
  cases o with
  | none => rfl
  | some a =>
    rw [optionValue]
    split
    next heq => cases heq
    next heq => exact absurd (Option.some.inj heq) (hnull a)
    next heq =>
      cases heq
      rw [hread]
      rfl

theorem ofInt_int (n : I64) : ofInt (.int n) = some n := dif_pos n.property

end Members

end Tracefold.DagCbor
