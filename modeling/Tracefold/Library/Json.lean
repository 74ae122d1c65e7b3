import Mathlib.Tactic.Common
import Mathlib.Algebra.Ring.Nat
import Mathlib.Algebra.Ring.Int.Defs
import Tracefold.Library.Text

/-! JSON values, the members of an object, and the pointers into a value. -/

namespace Tracefold.Library

/-- A number is held as an integer or as the bits of a float. -/
inductive Json.Number where
  | int (n : Int)
  | float (bits : UInt64)
  deriving DecidableEq, Repr

/-- The members of an object are in the order of the document. -/
inductive Json where
  | null
  | bool (b : Bool)
  | number (n : Json.Number)
  | string (text : List Char)
  | array (items : List Json)
  | object (members : List (List Char × Json))
  deriving Inhabited

namespace Json

section Members

/-- A member is put over one of its name, or behind the others. -/
def insert (key : List Char) (v : Json) : List (List Char × Json) → List (List Char × Json)
  | [] => [(key, v)]
  | (other, w) :: rest =>
    if other = key then (key, v) :: rest else (other, w) :: insert key v rest

variable {key : List Char} {v : Json} {members : List (List Char × Json)}

theorem insert_of_notMem (h : key ∉ members.map Prod.fst) :
    insert key v members = members ++ [(key, v)] := by
  induction members with
  | nil => rfl
  | cons m rest ih =>
    obtain ⟨other, w⟩ := m
    rw [List.map_cons, List.mem_cons, not_or] at h
    rw [insert, if_neg (Ne.symm h.1), ih h.2, List.cons_append]

end Members

section Pointer

/-- Every `~` before a digit, with the letter that the two stand for. -/
def replaced (digit letter : Char) : List Char → List Char
  | [] => []
  | c :: rest =>
    match rest with
    | [] => [c]
    | c' :: rest' =>
      if c = '~' ∧ c' = digit then letter :: replaced digit letter rest'
      else c :: replaced digit letter (c' :: rest')

/-- A token of a pointer as it is spelled, and the name that it spells. -/
def unescape (token : List Char) : List Char := replaced '0' '~' (replaced '1' '/' token)

def escapeWith (letter digit : Char) (text : List Char) : List Char :=
  text.flatMap fun c => if c = letter then ['~', digit] else [c]

def escape (text : List Char) : List Char := escapeWith '/' '1' (escapeWith '~' '0' text)

def isDigit (c : Char) : Bool := '0' ≤ c ∧ c ≤ '9'

/-- The number that decimal digits spell, if there is a digit and nothing else. -/
def decimal (text : List Char) : Option ℕ :=
  if text ≠ [] ∧ text.all isDigit then
    some (text.foldl (fun n c => 10 * n + (c.toNat - '0'.toNat)) 0)
  else none

/-- A decimal of 64 bits. -/
def decimal64 (text : List Char) : Option ℕ := (decimal text).filter fun n => n < 2 ^ 64

/-- An index of an array has no sign and no zero to spare. -/
def index (token : List Char) : Option ℕ :=
  if token.head? = some '0' ∧ token.length ≠ 1 then none else decimal64 token

/-- The value at a token. -/
def step (v : Json) (token : List Char) : Option Json :=
  match v with
  | .object members => members.lookup token
  | .array items => (index token).bind fun i => items[i]?
  | _ => none

/-- The tokens of a pointer: it is empty, or each of them stands behind a slash. -/
def tokens : List Char → Option (List (List Char))
  | [] => some []
  | c :: rest => if c = '/' then some ((rest.splitOn '/').map unescape) else none

/-- The value that some tokens lead to. -/
def follow (v : Json) (path : List (List Char)) : Option Json := path.foldlM step v

/-- The value at a pointer. -/
def pointer (text : List Char) (v : Json) : Option Json := (tokens text).bind (follow v)

end Pointer

section Escape

variable {digit letter : Char} {a : List Char}

theorem getLast?_ne_of_cons {c c' : Char} (h : (c :: a).getLast? ≠ some c') :
    a.getLast? ≠ some c' := by
  intro hlast
  rw [List.getLast?_cons, hlast] at h
  exact h rfl

theorem replaced_ne_nil (h : a ≠ []) : replaced digit letter a ≠ [] := by
  cases a with
  | nil => exact absurd rfl h
  | cons c rest =>
    cases rest with
    | nil => exact List.cons_ne_nil _ _
    | cons c' rest =>
      rw [replaced.eq_3]
      split <;> exact List.cons_ne_nil _ _

theorem replaced_append (h : a.getLast? ≠ some '~') (b : List Char) :
    replaced digit letter (a ++ b) = replaced digit letter a ++ replaced digit letter b := by
  induction a using replaced.induct digit with
  | case1 => rfl
  | case2 c =>
    have hc : c ≠ '~' := by
      rintro rfl
      exact h rfl
    cases b with
    | nil => rfl
    | cons c' b =>
      rw [List.singleton_append, replaced.eq_3, if_neg (fun heq => hc heq.1), replaced.eq_2]
      rfl
  | case3 c c' rest heq ih =>
    have hrest := getLast?_ne_of_cons (getLast?_ne_of_cons h)
    rw [List.cons_append, List.cons_append, replaced.eq_3, if_pos heq, replaced.eq_3, if_pos heq,
      List.cons_append, ih hrest]
  | case4 c c' rest heq ih =>
    rw [List.cons_append, List.cons_append, replaced.eq_3, if_neg heq, replaced.eq_3, if_neg heq,
      List.cons_append, ← List.cons_append, ih (getLast?_ne_of_cons h)]

theorem getLast?_replaced (hletter : letter ≠ '~') (h : a.getLast? ≠ some '~') :
    (replaced digit letter a).getLast? ≠ some '~' := by
  induction a using replaced.induct digit with
  | case1 => exact h
  | case2 c => exact h
  | case3 c c' rest heq ih =>
    have hrest := ih (getLast?_ne_of_cons (getLast?_ne_of_cons h))
    rw [replaced.eq_3, if_pos heq, List.getLast?_cons]
    cases hlast : (replaced digit letter rest).getLast? with
    | none => rwa [Option.getD_none, ne_eq, Option.some.injEq]
    | some last => rwa [Option.getD_some, ← hlast]
  | case4 c c' rest heq ih =>
    have hrest := ih (getLast?_ne_of_cons h)
    rw [replaced.eq_3, if_neg heq, List.getLast?_cons]
    cases hlast : (replaced digit letter (c' :: rest)).getLast? with
    | none => exact absurd (List.getLast?_eq_none_iff.mp hlast) (replaced_ne_nil (List.cons_ne_nil _ _))
    | some last => rwa [Option.getD_some, ← hlast]

theorem unescape_ne_nil (h : a ≠ []) : unescape a ≠ [] := replaced_ne_nil (replaced_ne_nil h)

theorem unescape_append (h : a.getLast? ≠ some '~') (b : List Char) :
    unescape (a ++ b) = unescape a ++ unescape b := by
  rw [unescape, replaced_append h, replaced_append (getLast?_replaced (by decide) h)]
  rfl

theorem escape_cons (c : Char) (text : List Char) :
    escape (c :: text) =
      (if c = '~' then ['~', '0'] else if c = '/' then ['~', '1'] else [c]) ++ escape text := by
  unfold escape escapeWith
  rw [List.flatMap_cons, List.flatMap_append]
  congr 1
  split
  next => rfl
  next => rw [List.flatMap_singleton]

theorem unescape_escape (text : List Char) : unescape (escape text) = text := by
  induction text with
  | nil => rfl
  | cons c text ih =>
    rw [escape_cons, unescape_append, ih]
    · split
      next h =>
        subst h
        rfl
      next =>
        split
        next h =>
          subst h
          rfl
        next => rfl
    · split
      next => decide
      next h =>
        split
        next => decide
        next => rwa [List.getLast?_singleton, ne_eq, Option.some.injEq]

theorem slash_notMem_escape (text : List Char) : '/' ∉ escape text := by
  induction text with
  | nil => exact List.not_mem_nil
  | cons c text ih =>
    rw [escape_cons, List.mem_append, not_or]
    refine ⟨?_, ih⟩
    split
    next => decide
    next =>
      split
      next => decide
      next h => rwa [List.mem_singleton, eq_comm]

theorem getLast?_escape (text : List Char) : (escape text).getLast? ≠ some '~' := by
  induction text with
  | nil => decide
  | cons c text ih =>
    rw [escape_cons, List.getLast?_append]
    cases hlast : (escape text).getLast? with
    | some last => rwa [Option.some_or, ← hlast]
    | none =>
      rw [Option.none_or]
      split
      next => decide
      next h =>
        split
        next => decide
        next => rwa [List.getLast?_singleton, ne_eq, Option.some.injEq]

end Escape

/-- The member of a name. -/
def get (key : List Char) : Json → Option Json
  | .object members => members.lookup key
  | _ => none

def asString : Json → Option (List Char)
  | .string text => some text
  | _ => none

def asObject : Json → Option (List (List Char × Json))
  | .object members => some members
  | _ => none

/-- A number that fits an `i64`. -/
def isI64 : Json → Bool
  | .number (.int n) => -2 ^ 63 ≤ n ∧ n < 2 ^ 63
  | _ => false

end Json

end Tracefold.Library
