import Mathlib.Data.List.TakeWhile
import Std.Data.String.ToNat
import Tracefold.Db.Journal
import Tracefold.Library.Outline
import Tracefold.Library.Slice
import Tracefold.Library.Text

/-! What the semantic database takes out of a document: one atom for each block of its lines. -/

namespace Tracefold.Db

open Library Locator

inductive Kind where
  | heading
  | para
  | list
  | tableRow
  | code
  | decision
  | gap
  deriving DecidableEq, Repr

inductive Layer where
  | l0
  | l1
  | l2
  | unknown
  deriving DecidableEq, Repr

inductive Evidence where
  | measured
  | derived
  | ownerSaid
  | unknown
  deriving DecidableEq, Repr

def Kind.name : Kind → Text
  | .heading => "heading".toList
  | .para => "para".toList
  | .list => "list".toList
  | .tableRow => "table_row".toList
  | .code => "code".toList
  | .decision => "decision".toList
  | .gap => "gap".toList

def Kind.isHeading (kind : Kind) : Bool := kind = .heading || kind = .decision

structure Range where
  startLine : ℕ
  endLine : ℕ
  byteStart : ℕ
  byteEnd : ℕ
  deriving DecidableEq, Repr

structure SourceRef where
  document : Text
  path : Text
  anchor : Text
  range : Range
  deriving DecidableEq, Repr

structure SemanticAtom where
  id : Text
  kind : Kind
  content : Text
  layer : Layer
  parent : Option Text
  order : UInt32
  tags : List Text
  source : SourceRef
  deriving DecidableEq, Repr

structure StoredAtom where
  semantic : SemanticAtom
  executor : String
  evidence : Evidence
  band : Text
  deriving DecidableEq, Repr

structure BandManifest where
  id : Text
  executor : Option String

structure DocumentDecl where
  path : Text
  role : String
  executor : Option String

structure DocumentIr where
  documentId : Text
  band : Text
  path : Text
  role : String
  executor : String
  atoms : List StoredAtom
  sourceBytes : ℕ

/-- `char::is_alphanumeric`. -/
class Alphanumeric where
  isAlphanumeric : Char → Bool

def documentExecutor (band : BandManifest) (document : DocumentDecl) : String :=
  (document.executor <|> band.executor).getD "UNKNOWN"

def layerForRole : String → Option Layer
  | "overview" => some .l0
  | "principles" => some .l1
  | "decisions" => some .l1
  | "evidence" => some .l2
  | "raw" => some .l2
  | "reference" => some .l2
  | _ => none

def evidenceForRole : String → Option Evidence
  | "evidence" => some .measured
  | "decisions" => some .derived
  | _ => none

/-- `str::len`. -/
abbrev byteLen (text : Text) : ℕ := extent Char.utf8Size text

structure Line where
  start : ℕ
  stop : ℕ
  body : Text
  deriving DecidableEq, Repr

/-- The loop of `split_lines`, which has read `current` since the byte `start` and is at the byte
`index`. -/
def splitFrom (start index : ℕ) (current : Text) : Text → List Line
  | [] => if start < index then [⟨start, index, current.rdropWhile (· = '\r')⟩] else []
  | c :: rest =>
    if c = '\n' then
      ⟨start, index + 1, current.rdropWhile (· = '\r')⟩ :: splitFrom (index + 1) (index + 1) [] rest
    else splitFrom start (index + c.utf8Size) (current ++ [c]) rest

def splitLines (text : Text) : List Line := splitFrom 0 0 [] text

/-- `str::trim_start`. -/
def trimStart (text : Text) : Text := text.dropWhile Engine.isWhiteSpace

/-- `str::trim_end`. -/
def trimEnd (text : Text) : Text := text.rdropWhile Engine.isWhiteSpace

def isBlank (line : Text) : Bool := (trim line).isEmpty

inductive Fence where
  | backticks
  | tildes
  deriving DecidableEq, Repr

def fenceMarker (line : Text) : Option Fence :=
  if "```".toList.isPrefixOf (trimStart line) then some .backticks
  else if "~~~".toList.isPrefixOf (trimStart line) then some .tildes
  else none

def headingLevel (line : Text) : Option ℕ :=
  let trimmed := trimStart line
  let hashes := (trimmed.takeWhile (· = '#')).length
  if hashes = 0 ∨ 6 < hashes then none
  else match trimmed.drop hashes with
    | ' ' :: _ | '\t' :: _ => some hashes
    | _ => none

def isTableRow (line : Text) : Bool := (trimStart line).head? = some '|'

def isListItem (line : Text) : Bool :=
  let trimmed := trimStart line
  if ["- ", "* ", "+ "].any fun marker => marker.toList.isPrefixOf trimmed then true
  else if trimmed = ['-'] ∨ trimmed = ['*'] ∨ trimmed = ['+'] then true
  else
    let digits := (trimmed.takeWhile Char.isDigit).length
    if digits = 0 then false
    else
      let rest := trimmed.drop digits
      ". ".toList.isPrefixOf rest || ") ".toList.isPrefixOf rest

def isContinuation (line : Text) : Bool :=
  !isBlank line && !((headingLevel line).isSome || isTableRow line || isListItem line) &&
    (fenceMarker line).isNone && (line.head? = some ' ' || line.head? = some '\t')

def isPlain (line : Text) : Bool :=
  !isBlank line && (headingLevel line).isNone && !isTableRow line && !isListItem line &&
    (fenceMarker line).isNone

def headingText (line : Text) : Text :=
  trim ((trimStart line).dropWhile (· = '#'))

def headingLayerTag (text : Text) : Option Layer :=
  let trimmed := trimEnd text
  if "{L0}".toList.isSuffixOf trimmed then some .l0
  else if "{L1}".toList.isSuffixOf trimmed then some .l1
  else if "{L2}".toList.isSuffixOf trimmed then some .l2
  else none

def isDecisionHeading (text : Text) : Bool :=
  let token := match trimStart text with
    | '*' :: '*' :: rest => rest
    | token => token
  match token with
  | 'D' :: '-' :: rest => (rest.take 4).countP Char.isDigit = 4
  | _ => false

/-- The loop of `bracket_tags`, within `depth` brackets. -/
def bracketTagsFrom (tags : List Text) (depth : ℕ) (current : Text) : Text → List Text
  | [] => tags
  | c :: rest =>
    if c = '[' then
      if depth = 0 then bracketTagsFrom tags 1 [] rest
      else bracketTagsFrom tags (depth + 1) (current ++ [c]) rest
    else if c = ']' ∧ 0 < depth then
      if depth = 1 then
        let trimmed := trim current
        bracketTagsFrom (if trimmed ≠ [] ∧ trimmed ∉ tags then tags ++ [trimmed] else tags) 0 [] rest
      else bracketTagsFrom tags (depth - 1) (current ++ [c]) rest
    else bracketTagsFrom tags depth (if 0 < depth then current ++ [c] else current) rest

def bracketTags (text : Text) : List Text := bracketTagsFrom [] 0 [] text

def anchorChars : ℕ := 48

section Slug

variable [Alphanumeric]

/-- The loop of `slug`. -/
def slugFrom (out : Text) (pendingDash : Bool) : Text → Text
  | [] => out
  | c :: rest =>
    if Alphanumeric.isAlphanumeric c then
      let out := (if pendingDash ∧ out ≠ [] then out ++ ['-'] else out) ++ [c]
      if anchorChars ≤ out.length then out else slugFrom out false rest
    else if anchorChars ≤ out.length then out
    else slugFrom out true rest

def slug (text : Text) : Text :=
  let out := slugFrom [] false text
  if out = [] then "section".toList else out

end Slug

def evidenceMarkers : List (Text × Evidence) :=
  [("[MEASURED".toList, .measured), ("[DERIVED".toList, .derived),
    ("[OWNER-SAID".toList, .ownerSaid), ("[OWNER_SAID".toList, .ownerSaid)]

/-- `str::find`. -/
def find (needle text : Text) : Option ℕ := (Library.Text.splitInfix needle text).map fun cut => byteLen cut.1

def evidenceMarker (content : Text) : Option Evidence :=
  (evidenceMarkers.foldl (fun best (needle, verdict) =>
    match find needle content, best with
    | none, best => best
    | some position, some (seen, found) =>
      if seen ≤ position then some (seen, found) else some (position, verdict)
    | some position, none => some (position, verdict)) (none : Option (ℕ × Evidence))).map Prod.snd

structure Block where
  kind : Kind
  first : ℕ
  last : ℕ
  deriving DecidableEq, Repr

/-- The lines up to the one that closes a fence, or all of them. -/
def fenced (marker : Fence) : List Line → ℕ
  | [] => 0
  | line :: rest => if fenceMarker line.body = some marker then 1 else fenced marker rest + 1

/-- The kind of the block that a line opens and how many of the lines after it belong to it. -/
def blockAt (body : Text) (rest : List Line) : Kind × ℕ :=
  if isBlank body then (.gap, (rest.takeWhile fun line => isBlank line.body).length)
  else match fenceMarker body with
    | some marker => (.code, fenced marker rest)
    | none =>
      if (headingLevel body).isSome then
        (if isDecisionHeading (headingText body) then .decision else .heading, 0)
      else if isTableRow body then (.tableRow, 0)
      else if isListItem body then
        (.list, (rest.takeWhile fun line => isContinuation line.body).length)
      else (.para, (rest.takeWhile fun line => isPlain line.body).length)

/-- The loop of `build_blocks` over the lines from `index` on. -/
def blocksFrom (index : ℕ) : List Line → List Block
  | [] => []
  | line :: rest =>
    let (kind, more) := blockAt line.body rest
    ⟨kind, index, index + more⟩ :: blocksFrom (index + more + 1) (rest.drop more)
termination_by lines => lines.length
decreasing_by
  rw [List.length_drop, List.length_cons]
  omega

def buildBlocks (lines : List Line) : List Block := blocksFrom 0 lines

section Extract

variable [Formats]

def atomId (kind : Kind) (path anchor text : Text) : Text :=
  Formats.sha256Hex ([kind.name, path, anchor, text].flatMap (· ++ ['\x00']))

/-- An anchor with the number of an attempt. -/
def attempted (base : Text) (attempt : ℕ) : Text := base ++ '-' :: (Nat.repr attempt).toList

/-- The loop that numbers an anchor until no atom before has it; none when the fuel runs out. -/
def freshFrom (anchors : List Text) (base : Text) : ℕ → ℕ → Text → Option Text
  | 0, _, _ => none
  | fuel + 1, attempt, anchor =>
    if anchor ∈ anchors then
      freshFrom anchors base fuel (attempt + 1) (attempted base attempt)
    else some anchor

def freshAnchor (anchors : List Text) (base : Text) : Option Text :=
  freshFrom anchors base (anchors.length + 2) 2 base

/-- What `extract_document` carries from block to block; the stacks have their tops first. -/
structure Progress where
  atoms : List StoredAtom
  headingStack : List (ℕ × ℕ)
  layerStack : List (ℕ × Layer)
  anchors : List Text
  childCount : List UInt32
  rootChildren : UInt32

def Progress.start : Progress := ⟨[], [], [], [], [], 0⟩

def evidenceOf (document : DocumentDecl) (kind : Kind) (content : Text) : Evidence :=
  if kind = .gap then .unknown
  else (evidenceMarker content <|> evidenceForRole document.role).getD .unknown

def layerOf (document : DocumentDecl) (kind : Kind) (ownTag : Option Layer)
    (layerStack : List (ℕ × Layer)) : Layer :=
  match ownTag, layerStack with
  | some tag, _ => tag
  | none, (_, tag) :: _ => tag
  | none, [] => if kind = .heading then .l0 else (layerForRole document.role).getD .unknown

/-- A title without the tag of its layer, whose four letters take a byte each. -/
def titleClean (title : Text) (ownTag : Option Layer) : Text :=
  if ownTag.isSome then
    let trimmed := trimEnd title
    trimEnd (trimmed.take (trimmed.length - 4))
  else title

/-- The next number under a parent, and the counts with it; a `u32` wraps around. -/
def nextOrder (parentIndex : Option ℕ) (childCount : List UInt32) (rootChildren : UInt32) :
    Option (UInt32 × List UInt32 × UInt32) :=
  match parentIndex with
  | none => some (rootChildren + 1, childCount, rootChildren + 1)
  | some index => childCount[index]?.map fun count =>
    (count + 1, childCount.set index (count + 1), rootChildren)

/-- The atom at an index; a missing one is a panic. -/
def parentAtom (atoms : List StoredAtom) : Option ℕ → Option (Option StoredAtom)
  | none => some none
  | some index => atoms[index]?.map some

def baseAnchor [Alphanumeric] (isHeading : Bool) (titleClean : Text) (parent : Option StoredAtom)
    (order : UInt32) : Text :=
  if isHeading then slug titleClean
  else
    let order := (Nat.repr order.toNat).toList
    match parent with
    | some atom => atom.semantic.source.anchor ++ '.' :: order
    | none => '~' :: '.' :: order

variable [Alphanumeric]

/-- One block of the loop of `extract_document`; none is a panic. -/
def extractBlock (band : BandManifest) (document : DocumentDecl) (text : Text) (lines : List Line)
    (progress : Progress) (block : Block) : Option Progress := do
  let first ← lines[block.first]?
  let last ← lines[block.last]?
  let content ← slice Char.utf8Size text first.start last.stop
  let isHeading := block.kind.isHeading
  let level := (headingLevel first.body).getD 0
  let headingStack := if isHeading then progress.headingStack.dropWhile (level ≤ ·.1)
    else progress.headingStack
  let layerStack := if isHeading then progress.layerStack.dropWhile (level ≤ ·.1)
    else progress.layerStack
  let parentIndex := headingStack.head?.map Prod.snd
  let parent ← parentAtom progress.atoms parentIndex
  let (order, childCount, rootChildren) ←
    nextOrder parentIndex progress.childCount progress.rootChildren
  let title := if isHeading then headingText first.body else []
  let ownTag := if isHeading then headingLayerTag title else none
  let title := titleClean title ownTag
  let layerStack := match ownTag with
    | some tag => (level, tag) :: layerStack
    | none => layerStack
  let anchor ← freshAnchor progress.anchors (baseAnchor isHeading title parent order)
  let atom : StoredAtom :=
    { semantic :=
        { id := atomId block.kind document.path anchor content
          kind := block.kind
          content := content
          layer := layerOf document block.kind ownTag layerStack
          parent := parent.map fun atom => atom.semantic.id
          order := order
          tags := if isHeading then bracketTags title else []
          source := ⟨band.id ++ '/' :: document.path, document.path, anchor,
            ⟨block.first + 1, block.last + 1, first.start, last.stop⟩⟩ }
      executor := documentExecutor band document
      evidence := evidenceOf document block.kind content
      band := band.id }
  some
    { atoms := progress.atoms ++ [atom]
      headingStack := if isHeading then (level, progress.atoms.length) :: headingStack
        else headingStack
      layerStack := layerStack
      anchors := progress.anchors ++ [anchor]
      childCount := childCount ++ [0]
      rootChildren := rootChildren }

def extractDocument (band : BandManifest) (document : DocumentDecl) (text : Text) :
    Option DocumentIr := do
  let lines := splitLines text
  let progress ← (buildBlocks lines).foldlM (extractBlock band document text lines) Progress.start
  some
    { documentId := band.id ++ '/' :: document.path
      band := band.id
      path := document.path
      role := document.role
      executor := documentExecutor band document
      atoms := progress.atoms
      sourceBytes := byteLen text }

end Extract

end Tracefold.Db
