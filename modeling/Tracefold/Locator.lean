import Mathlib.Tactic.Common
import Tracefold.Library.Pile
import Tracefold.Library.Text

/-! The locators of the MCP adapter: the representative spelling of one, and the server and the
resource it names. -/

namespace Tracefold.Locator

open Library.Text Library.Pile

/-- A string, as its characters. -/
abbrev Text := List Char

/-- `SERVER_SEPARATOR` and `SCHEME_SEPARATOR`. -/
def serverSeparator : Char := '#'

def schemeSeparator : Text := [':', '/', '/']

/-- `split_once` at `://`. -/
def splitScheme : Text → Option (Text × Text) := splitInfix schemeSeparator

/-- `to_ascii_lowercase`. -/
def toAsciiLowercase (text : Text) : Text := text.map Char.toLower

def hexValue (c : Char) : Option ℕ :=
  if '0' ≤ c ∧ c ≤ '9' then some (c.toNat - 48)
  else if 'a' ≤ c ∧ c ≤ 'f' then some (c.toNat - 97 + 10)
  else if 'A' ≤ c ∧ c ≤ 'F' then some (c.toNat - 65 + 10)
  else none

def hiHex (value : ℕ) : Char := Char.ofNat (if value < 10 then 48 + value else 55 + value)

/-- ALPHA, DIGIT, `-`, `.`, `_` and `~`. -/
def isUnreserved (byte : ℕ) : Bool :=
  (48 ≤ byte ∧ byte ≤ 57) ∨ (65 ≤ byte ∧ byte ≤ 90) ∨ (97 ≤ byte ∧ byte ≤ 122) ∨
    byte = 45 ∨ byte = 46 ∨ byte = 95 ∨ byte = 126

/-- Clause 3: a triplet is spelled in upper case, and one of an unreserved character is decoded.
A `%` that two hexadecimal digits do not follow is left as it is. -/
def normalizePercent : Text → Text
  | [] => []
  | c :: rest =>
    match c, rest with
    | '%', a :: b :: rest' =>
      match hexValue a, hexValue b with
      | some hi, some lo =>
        if isUnreserved (hi * 16 + lo) then Char.ofNat (hi * 16 + lo) :: normalizePercent rest'
        else '%' :: hiHex hi :: hiHex lo :: normalizePercent rest'
      | _, _ => '%' :: normalizePercent (a :: b :: rest')
    | c, rest => c :: normalizePercent rest

/-- The port of a host is looked for behind the bracket that closes an IPv6 literal. -/
def splitPort (hostport : Text) : Text × Text :=
  match rsplitOnce ']' hostport with
  | some (before, after) =>
    (before ++ ']' :: after.takeWhile (· ≠ ':'), after.dropWhile (· ≠ ':'))
  | none => (hostport.takeWhile (· ≠ ':'), hostport.dropWhile (· ≠ ':'))

/-- Clause 2: the host folds to lower case, and nothing else of the authority does. -/
def normalizeAuthority (authority : Text) : Text :=
  match rsplitOnce '@' (normalizePercent authority) with
  | some (userinfo, hostport) => userinfo ++ '@' :: fold hostport
  | none => fold (normalizePercent authority)
where
  fold (hostport : Text) : Text :=
    toAsciiLowercase (splitPort hostport).1 ++ (splitPort hostport).2

def dot : Text := ['.']

def dotDot : Text := ['.', '.']

/-- What the loop over the segments of a path does with one. -/
def fateOf (segment : Text) : Fate :=
  if segment = dot then .skip else if segment = dotDot then .pop else .keep

/-- A path without its leading separator. -/
def bodyOf (path : Text) : Text := if path.head? = some '/' then path.tail else path

/-- Clause 4, over the text up to the first `?`. -/
def removeDotSegments (text : Text) : Text :=
  let path := text.takeWhile (· ≠ '?')
  let tail := text.dropWhile (· ≠ '?')
  let body := bodyOf path
  if ∀ segment ∈ body.splitOn '/', segment ≠ dot ∧ segment ≠ dotDot then path ++ tail
  else
    let body := if body = dot ∨ body = dotDot ∨ ('/' :: dot) <:+ body ∨ ('/' :: dotDot) <:+ body
      then body ++ ['/'] else body
    (if path.head? = some '/' then ['/'] else []) ++
      ['/'].intercalate (pile fateOf (body.splitOn '/')) ++ tail

/-- What ends the authority. -/
def isDelimiter (c : Char) : Bool := c = '/' ∨ c = '?' ∨ c = '#'

/-- `normalize_uri`. -/
def normalizeUri (uri : Text) : Text :=
  match splitScheme uri with
  | some (scheme, rest) =>
    toAsciiLowercase scheme ++ schemeSeparator ++
      normalizeAuthority (rest.takeWhile (!isDelimiter ·)) ++
      removeDotSegments (normalizePercent (rest.dropWhile (!isDelimiter ·)))
  | none => removeDotSegments (normalizePercent uri)

/-- `locator::normalize`. -/
def normalize (locator : Text) : Text :=
  match splitOnce serverSeparator locator with
  | some (server, resource) => normalizeUri server ++ serverSeparator :: normalizeUri resource
  | none => normalizeUri locator

structure Position where
  server : Text
  resource : Text
  deriving DecidableEq, Repr

/-- `Position::locator`. -/
def Position.locator (position : Position) : Text :=
  position.server ++ serverSeparator :: position.resource

/-- Why a locator is not a position. -/
inductive NotAPosition where
  | oneName
  | serverEmpty
  | resourceEmpty
  | twoSeparators
  | noScheme
  deriving DecidableEq, Repr

/-- `locator::parse`. -/
def parse (locator : Text) : Except NotAPosition Position :=
  match splitOnce serverSeparator (normalize locator) with
  | none => .error .oneName
  | some (server, resource) =>
    if server = [] then .error .serverEmpty
    else if resource = [] then .error .resourceEmpty
    else if serverSeparator ∈ resource then .error .twoSeparators
    else if (splitScheme server).isNone then .error .noScheme
    else .ok ⟨server, resource⟩

end Tracefold.Locator
