import Mathlib.Tactic.Common
import Tracefold.Cbor.Scan
import Tracefold.Library.Hex
import Tracefold.Library.Json
import Tracefold.Lifecycle
import Tracefold.Mcp
import Tracefold.Spelling

/-! The catalogue of a deployment as it is declared: what undoes a tool, where the prior contents
come from, and how an object is read. -/

namespace Tracefold.Mcp.Declared

open Library Locator
open DagCbor (utf8 fromUtf8)

/-- `serde_json`: its reader and its writer, the value at a pointer, how a member is put into a map,
and the text of a float. -/
class SerdeJson where
  fromSlice : Bytes → Option Json
  toVec : Json → Option Bytes
  pointer : Text → Json → Option Json
  insert : Text → Json → List (Text × Json) → List (Text × Json)
  floatText : UInt64 → Text

/-- A pointer is read as RFC 6901 says. -/
def SerdeJson.ReadsPointers [SerdeJson] : Prop :=
  ∀ text v, SerdeJson.pointer text v = Json.pointer text v

/-- A member of a new name comes to the others, wherever the map puts it. -/
def SerdeJson.InsertsMembers [SerdeJson] : Prop :=
  ∀ name value members, name ∉ members.map Prod.fst →
    (SerdeJson.insert name value members).Perm (members ++ [(name, value)])

/-- SHA-1. -/
class Sha1 where
  digest : Bytes → Bytes

section Template

inductive PointerSegment where
  | literal (text : Text)
  | forward (member : Text)
  deriving DecidableEq, Repr

inductive PriorPointer where
  | literal (pointer : Text)
  | bound (segments : List PointerSegment)
  deriving DecidableEq, Repr

/-- The text of a segment, if the forward call carries one. -/
def PointerSegment.resolve (forward : List (Text × Json)) : PointerSegment → Option Text
  | .literal text => some text
  | .forward member => ((forward.lookup member).bind Json.asString).map Json.escape

/-- `PriorPointer::resolve`. -/
def PriorPointer.resolve (forward : List (Text × Json)) : PriorPointer → Option Text
  | .literal pointer => some pointer
  | .bound segments => (segments.mapM (PointerSegment.resolve forward)).map List.flatten

inductive ArgSource where
  | forward (member : Text)
  | const (text : Text)
  | constJson (value : Json)
  | priorContentsUtf8
  | priorJson (pointer : PriorPointer)
  | gitBlobSha1OfForward (member : Text)
  | doResult (pointer : Text)
  | doResultNumberFrom (pointer : Text)

namespace ArgSource

/-- `is_do_result`. -/
def isDoResult : ArgSource → Bool
  | .doResult _ => true
  | .doResultNumberFrom _ => true
  | _ => false

/-- `is_prior`. -/
def isPrior : ArgSource → Bool
  | .priorContentsUtf8 => true
  | .priorJson _ => true
  | _ => false

/-- `draws_from_outside_the_forward_call`. -/
def drawsFromOutsideTheForwardCall : ArgSource → Bool
  | .forward _ => false
  | .gitBlobSha1OfForward _ => false
  | _ => true

end ArgSource

/-- `git_blob_sha1_hex`. -/
def gitBlobSha1Hex [Sha1] (contents : Bytes) : Text :=
  let header := utf8 "blob " ++ utf8 (toString contents.length) ++ [0]
  (Sha1.digest (header ++ contents)).flatMap fun x => Hex.numeral 2 x.toNat

/-- The entries of a `BTreeMap`, in the order of their keys and each key once. -/
def Ascending {α : Type} (entries : List (Text × α)) : Prop :=
  entries.Pairwise fun a b => compare a.1 b.1 = .lt

/-- Members, each with where its value comes from. -/
structure RestoreTemplate where
  arguments : List (Text × ArgSource)
  ascending : Ascending arguments

variable [SerdeJson] [Sha1]

/-- The value of a source, from the forward call and the prior contents. -/
def ArgSource.resolve (forward : List (Text × Json)) (prior : Bytes) : ArgSource → Option Json
  | .forward member => forward.lookup member
  | .const text => some (.string text)
  | .constJson value => some value
  | .priorContentsUtf8 => (fromUtf8 prior).map fun text => .string text.toList
  | .priorJson pointer => do
    let spelled ← pointer.resolve forward
    let document ← SerdeJson.fromSlice prior
    SerdeJson.pointer spelled document
  | .gitBlobSha1OfForward member => do
    let text ← (forward.lookup member).bind Json.asString
    return .string (gitBlobSha1Hex (utf8 (String.ofList text)))
  | .doResult _ => none
  | .doResultNumberFrom _ => none

/-- The loop of `resolve_split`: the members that have a value, and those that are owed one. -/
def splitMembers (forward : List (Text × Json)) (prior : Bytes) :
    List (Text × ArgSource) → List (Text × Json) → List (Text × ArgSource) →
      Option (List (Text × Json) × List (Text × ArgSource))
  | [], resolved, pending => some (resolved, pending)
  | (name, source) :: rest, resolved, pending =>
    if source.isDoResult then splitMembers forward prior rest resolved (pending ++ [(name, source)])
    else do
      let value ← source.resolve forward prior
      splitMembers forward prior rest (SerdeJson.insert name value resolved) pending

/-- `RestoreTemplate::resolve_split`. -/
def RestoreTemplate.resolveSplit (template : RestoreTemplate) (forwardArguments prior : Bytes) :
    Option (Bytes × List (Text × ArgSource)) := do
  let forward ← (SerdeJson.fromSlice forwardArguments).bind Json.asObject
  let (resolved, pending) ← splitMembers forward prior template.arguments [] []
  let arguments ← SerdeJson.toVec (.object resolved)
  return (arguments, pending)

end Template

section Identity

variable [SerdeJson]

inductive IdentityPart where
  | literal (text : Text)
  | answer (pointer : Text)
  | forward (member : Text)
  deriving DecidableEq, Repr

structure ObjectIdentity where
  parts : List IdentityPart
  deriving DecidableEq, Repr

inductive IdentityFault where
  | unread
  | answerNotRead
  deriving DecidableEq, Repr

/-- `ObjectIdentity::names_the_answer`. -/
def ObjectIdentity.namesTheAnswer (identity : ObjectIdentity) : Bool :=
  identity.parts.any fun
    | .answer _ => true
    | _ => false

/-- `ObjectIdentity::soundness`. -/
def ObjectIdentity.sound (identity : ObjectIdentity) : Bool :=
  !identity.parts.isEmpty && identity.namesTheAnswer

/-- `Number::to_string`. -/
def numberText : Json.Number → Text
  | .int n => (toString n).toList
  | .float bits => SerdeJson.floatText bits

/-- `identity_text`. -/
def identityText : Json → Option Text
  | .string text => some text
  | .number n => some (numberText n)
  | _ => none

/-- The text of a part, if there is one. -/
def IdentityPart.text (answered forward : Json) : IdentityPart → Option Text
  | .literal text => some text
  | .answer pointer => (SerdeJson.pointer pointer answered).bind identityText
  | .forward member => (forward.get member).bind identityText

/-- The loop of `resource_from`: what has been spelled, and whether an answer spelled any of it. -/
def spellParts (answered forward : Json) :
    List IdentityPart → Text → Bool → Except IdentityFault (Text × Bool)
  | [], spelled, read => .ok (spelled, read)
  | part :: rest, spelled, read =>
    match part.text answered forward with
    | none => .error .unread
    | some text =>
      let read := match part with
        | .answer _ => read || !text.isEmpty
        | _ => read
      spellParts answered forward rest (spelled ++ text) read

/-- `ObjectIdentity::resource_from`. -/
def ObjectIdentity.resourceFrom (identity : ObjectIdentity) (answer forwardArguments : Bytes) :
    Except IdentityFault Text :=
  match SerdeJson.fromSlice answer with
  | none => .error .unread
  | some answered =>
    match SerdeJson.fromSlice forwardArguments with
    | none => .error .unread
    | some forward =>
      match spellParts answered forward identity.parts [] false with
      | .error fault => .error fault
      | .ok (spelled, read) => if read then .ok spelled else .error .answerNotRead

end Identity

section Names

/-- `INVISIBLE_SCALAR_RANGES`. -/
def invisibleScalarRanges : List (ℕ × ℕ) :=
  [(0x00AD, 0x00AD), (0x034F, 0x034F), (0x0600, 0x0605), (0x061C, 0x061C), (0x06DD, 0x06DD),
    (0x070F, 0x070F), (0x0890, 0x0891), (0x08E2, 0x08E2), (0x115F, 0x1160), (0x17B4, 0x17B5),
    (0x180B, 0x180F), (0x200B, 0x200F), (0x202A, 0x202E), (0x2060, 0x206F), (0x3164, 0x3164),
    (0xFE00, 0xFE0F), (0xFEFF, 0xFEFF), (0xFFA0, 0xFFA0), (0xFFF0, 0xFFFB), (0x110BD, 0x110BD),
    (0x110CD, 0x110CD), (0x13430, 0x1343F), (0x1BCA0, 0x1BCA3), (0x1D173, 0x1D17A),
    (0xE0000, 0xE0FFF)]

/-- `NO_ASSIGNED_APPEARANCE_RANGES`. -/
def noAssignedAppearanceRanges : List (ℕ × ℕ) :=
  [(0x0000, 0x001F), (0x007F, 0x009F), (0xE000, 0xF8FF), (0xF0000, 0xFFFFD), (0x100000, 0x10FFFD)]

def inRanges (ranges : List (ℕ × ℕ)) (c : Char) : Bool :=
  ranges.any fun range => range.1 ≤ c.toNat ∧ c.toNat ≤ range.2

/-- `is_invisible_at_an_edge`. -/
def isInvisibleAtAnEdge (c : Char) : Bool :=
  Engine.isWhiteSpace c || inRanges invisibleScalarRanges c || inRanges noAssignedAppearanceRanges c

/-- `names_nothing`: nothing is left once both ends are trimmed. -/
def namesNothing (name : Text) : Bool :=
  ((name.dropWhile isInvisibleAtAnEdge).reverse.dropWhile isInvisibleAtAnEdge).isEmpty

end Names

section Restore

structure PriorRead where
  byTool : Text
  arguments : RestoreTemplate
  identity : ObjectIdentity

/-- `PriorRead::soundness`. -/
def PriorRead.sound (read : PriorRead) : Bool :=
  !namesNothing read.byTool &&
    read.arguments.arguments.all (fun member => !member.2.isPrior && !member.2.isDoResult) &&
    read.identity.sound

/-- `PriorRead::arguments_from_forward`. -/
def PriorRead.argumentsFromForward [SerdeJson] [Sha1] (read : PriorRead)
    (forwardArguments : Bytes) : Option Bytes :=
  if read.sound then (read.arguments.resolveSplit forwardArguments []).map Prod.fst else none

structure RestoreSpec where
  restoredBy : Text
  arguments : Option RestoreTemplate
  readBy : Option PriorRead

inductive DeclarationFace where
  | restoreFace
  | template
  | readFace
  deriving DecidableEq, Repr

/-- `RestoreSpec::fault`. -/
def RestoreSpec.fault (spec : RestoreSpec) : Except DeclarationFace Unit :=
  if namesNothing spec.restoredBy then .error .restoreFace
  else
    match spec.readBy, spec.arguments with
    | some _, none => .error .readFace
    | some read, some template =>
      if template.arguments.any (fun member => member.2.isPrior) then
        if read.sound then .ok () else .error .readFace
      else .error .readFace
    | none, some template =>
      if template.arguments.any (fun member => member.2.drawsFromOutsideTheForwardCall) then .ok ()
      else .error .template
    | none, none => .ok ()

end Restore

section Cas

inductive CasArgSource where
  | const (text : Text)
  | constJson (value : Json)
  | resource
  | resourceSuffix
  | resourceSuffixNumber
  | server

/-- Members, each with where its value comes from. -/
structure CasTemplate where
  arguments : List (Text × CasArgSource)
  ascending : Ascending arguments

/-- What a prefix leaves of a resource. -/
def suffixOf (resource matchedPrefix : Text) : Text :=
  (resource.dropPrefix? matchedPrefix).getD resource

variable [SerdeJson]

/-- The value of a source, from the locator. -/
def CasArgSource.resolve (server resource matchedPrefix : Text) : CasArgSource → Option Json
  | .const text => some (.string text)
  | .constJson value => some value
  | .resource => some (.string resource)
  | .resourceSuffix => some (.string (suffixOf resource matchedPrefix))
  | .resourceSuffixNumber =>
    (SerdeJson.fromSlice (utf8 (String.ofList (suffixOf resource matchedPrefix)))).filter Json.isI64
  | .server => some (.string server)

/-- The loop of `CasTemplate::resolve`. -/
def casMembers (server resource matchedPrefix : Text) :
    List (Text × CasArgSource) → List (Text × Json) → Option (List (Text × Json))
  | [], resolved => some resolved
  | (name, source) :: rest, resolved => do
    let value ← source.resolve server resource matchedPrefix
    casMembers server resource matchedPrefix rest (SerdeJson.insert name value resolved)

/-- `CasTemplate::resolve`. -/
def CasTemplate.resolve (template : CasTemplate) (server resource matchedPrefix : Text) :
    Option Bytes := do
  let resolved ← casMembers server resource matchedPrefix template.arguments []
  SerdeJson.toVec (.object resolved)

structure CasRead where
  byTool : Text
  arguments : CasTemplate

/-- `CasRead::soundness`. -/
def CasRead.sound (read : CasRead) : Bool := !namesNothing read.byTool

/-- `prefix_governs`. -/
def prefixGoverns (pattern resource : Text) : Bool :=
  match resource.dropPrefix? pattern with
  | none => false
  | some rest =>
    rest.isEmpty || pattern.getLast? = some '/' || pattern.getLast? = some ':' ||
      rest.head? = some '/'

end Cas

/-- What a catalogue declares. -/
structure Catalogue where
  restores : List (Text × RestoreSpec)
  restores_ascending : Ascending restores
  onReadFailureRefuses : Bool
  casReads : List (Text × CasRead)
  casReads_ascending : Ascending casReads

inductive WritesBecause where
  | effect
  | inverse (effect : Text)
  deriving DecidableEq, Repr

namespace Catalogue

variable (c : Catalogue)

/-- `Catalogue::writes_per_this_file`. -/
def writesPerThisFile (tool : Text) : Option WritesBecause :=
  if (c.restores.lookup tool).isSome then some .effect
  else (c.restores.find? fun entry => entry.2.restoredBy = tool).map fun entry => .inverse entry.1

/-- `Catalogue::spec_for`. -/
def specFor (tool : Text) : Option RestoreSpec := c.restores.lookup tool

/-- `Catalogue::entry_fault`. -/
def entryFault (tool : Text) : Except DeclarationFace Unit :=
  match c.restores.lookup tool with
  | none => .ok ()
  | some spec =>
    match spec.fault with
    | .error face => .error face
    | .ok () =>
      match spec.readBy with
      | none => .ok ()
      | some read => if (c.writesPerThisFile read.byTool).isSome then .error .readFace else .ok ()

/-- `str::len`. -/
def byteLength (text : Text) : ℕ := (utf8 (String.ofList text)).length

/-- `max_by_key` of the lengths: the last of the longest. -/
def longest : List (Text × CasRead) → Option (Text × CasRead) → Option (Text × CasRead)
  | [], best => best
  | entry :: rest, best =>
    longest rest
      (match best with
      | none => some entry
      | some held => if byteLength held.1 ≤ byteLength entry.1 then some entry else some held)

/-- `Catalogue::cas_read_for`. -/
def casReadFor (resource : Text) : Option (Text × CasRead) :=
  longest (c.casReads.filter fun entry => prefixGoverns entry.1 resource) none

/-- `Catalogue::cas_read_soundness`. -/
def casReadSound (pattern : Text) : Bool :=
  match c.casReads.lookup pattern with
  | none => true
  | some read =>
    !pattern.isEmpty && read.sound && (c.writesPerThisFile read.byTool).isNone

end Catalogue

section Deployment

variable [Canon] [SerdeJson] [Sha1]

/-- `verify_content_address`. -/
def bindsContent (d : Deployment) (pattern resource : Text) (contents : Bytes) : Bool :=
  match Spelling.fromText (suffixOf resource pattern) with
  | .error _ => true
  | .ok expected => d.contentDigest contents = ⟨Spelling.numbers expected.toList⟩

/-- The read of `read_subject` for an entry of `$cas_read`. -/
def Catalogue.casRead (c : Catalogue) (d : Deployment) (entry : Text × CasRead) : Mcp.CasRead where
  byTool := entry.2.byTool
  arguments server resource :=
    if c.casReadSound entry.1 then entry.2.arguments.resolve server resource entry.1 else none
  binds := bindsContent d entry.1

def PriorRead.declared (read : PriorRead) : Mcp.PriorRead where
  byTool := read.byTool
  argumentsFromForward := read.argumentsFromForward
  resourceFrom contents arguments := (read.identity.resourceFrom contents arguments).toOption

/-- How a member that is owed is written down. -/
def ArgSource.owed : ArgSource → Text
  | .doResult pointer => "do_result:".toList ++ pointer
  | .doResultNumberFrom pointer => "do_result_number_from:".toList ++ pointer
  | _ => []

def RestoreSpec.declared (spec : RestoreSpec) : Mcp.RestoreSpec where
  restoredBy := spec.restoredBy
  readBy := spec.readBy.map PriorRead.declared
  template := spec.arguments.map fun template arguments contents =>
    (template.resolveSplit arguments contents).map fun split =>
      (split.1, split.2.map fun member => (member.1, member.2.owed))

/-- A deployment that declares this catalogue. -/
def Catalogue.deployed (c : Catalogue) (d : Deployment) : Deployment :=
  { d with
    casReadFor := fun resource => (c.casReadFor resource).map (c.casRead d)
    specFor := fun tool => (c.specFor tool).map RestoreSpec.declared
    entrySound := fun tool => (c.entryFault tool).toOption.isSome
    onReadFailureRefuses := c.onReadFailureRefuses }

end Deployment

end Tracefold.Mcp.Declared
