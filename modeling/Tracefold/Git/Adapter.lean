import Mathlib.Tactic.Common
import Tracefold.Adapter
import Tracefold.Git.Locator
import Tracefold.Git.Objects
import Tracefold.Library.Prog

/-! The git adapter: a file on a branch, moved by a commit, undone by a reset of the reference. -/

namespace Tracefold.Git

open Library Library.Sort Locator Adapter
open DagCbor (Value optional required ofBytes ofText ofArray optionValue utf8)

section Errors

/-- Why a payload is none that this grammar writes. -/
inductive Malformed where
  | undecodable
  | empty
  | targetOnContent (target : Text)
  | contentOnReset (bytes : ℕ)
  | noTarget
  | unknownKind (kind : String)
  | notAnId (text : Text)
  deriving DecidableEq, Repr

/-- Why a repository does not answer, or does not do what it is asked. -/
inductive Cause where
  | notARepository
  | notAName
  | unresolved
  | missing
  | notACommit
  | noTree
  | noBlob
  | moved
  deriving DecidableEq, Repr

inductive Error where
  | foreignDelta (expected got : SubstrateKind)
  | payloadUnreadable (why : Malformed)
  | unimplemented (operations : ℕ)
  | notAPosition (why : NotAPosition)
  | notAReference (locator name : Text)
  | locatorMismatch (expected got : Text)
  | notDigestible
  | unreadable (locator : Text) (cause : Cause)
  | applyFailed (scope : Text) (cause : Cause)
  | adapter (e : Adapter.Error)
  deriving DecidableEq, Repr

end Errors

section Delta

/-- One operation: the entry becomes a content or nothing, or the reference names a commit. -/
structure GitOp where
  content : Option Bytes
  kind : String
  locator : Text
  target : Option Text
  deriving DecidableEq, Repr

def maxOps : ℕ := 1

def kindContent : String := "content"

def kindReset : String := "reset"

namespace GitOp

/-- `GitOp::write`. -/
def write (locator : Text) (content : Bytes) : GitOp := ⟨some content, kindContent, locator, none⟩

/-- `GitOp::remove`. -/
def remove (locator : Text) : GitOp := ⟨none, kindContent, locator, none⟩

/-- `GitOp::reset`. -/
def reset (locator target : Text) : GitOp := ⟨none, kindReset, locator, some target⟩

/-- What serde writes of an operation. -/
def value (op : GitOp) : Value :=
  .map [("kind", .text op.kind), ("target", optionValue (fun t => .text (String.ofList t)) op.target),
    ("content", optionValue .bytes op.content), ("locator", .text (String.ofList op.locator))]

/-- What serde reads as an operation. -/
def ofValue : Value → Option GitOp
  | .map entries => do
    let content ← optional ofBytes entries "content"
    let kind ← required ofText entries "kind"
    let locator ← required ofText entries "locator"
    let target ← optional ofText entries "target"
    return ⟨content, kind, locator.toList, target.map String.toList⟩
  | _ => none

/-- `GitOp::well_formed`. -/
def wellFormed (op : GitOp) : Except Error Unit :=
  if op.kind = kindContent then
    match op.target with
    | some target => .error (.payloadUnreadable (.targetOnContent target))
    | none => .ok ()
  else if op.kind = kindReset then
    match op.content, op.target with
    | some content, _ => .error (.payloadUnreadable (.contentOnReset content.length))
    | none, none => .error (.payloadUnreadable .noTarget)
    | none, some _ => .ok ()
  else .error (.payloadUnreadable (.unknownKind op.kind))

/-- `GitOp::position`. -/
def position (op : GitOp) : Except Error Position := do
  op.wellFormed
  match parse op.locator with
  | .error why => throw (.notAPosition why)
  | .ok position => return position

end GitOp

/-- `GitDelta::encode`. -/
def encode (ops : List GitOp) : Option Bytes := DagCbor.encode (.array (ops.map GitOp.value))

variable [Host]

/-- `GitDelta::decode`, and the one operation of what it accepts. -/
def decode (payload : Bytes) : Except Error GitOp :=
  match (DagCbor.decode payload).bind (ofArray GitOp.ofValue) with
  | none => .error (.payloadUnreadable .undecodable)
  | some ops =>
    if maxOps < ops.length then .error (.unimplemented ops.length)
    else
      match ops with
      | [] => .error (.payloadUnreadable .empty)
      | op :: _ => do
        op.wellFormed
        return op

/-- `commutation::operation_of`: the position a delta acts on, and the operation it performs there. -/
def operationOf (delta : PlannedDelta) : Except Error (Position × GitOp) :=
  if delta.substrate ≠ .git then .error (.foreignDelta .git delta.substrate)
  else do
    let op ← decode delta.payload
    let position ← op.position
    return (position, op)

end Delta

section Repository

variable [Gix]

/-- What is done in a repository that is open. -/
abbrev Io (α : Type) := Prog Unit Repository Error α

/-- The repositories, by their paths. -/
abbrev Repositories := Text → Option Repository

/-- `repo::open`. -/
def inside {α : Type} (position : Position) (x : Io α) : Prog Unit Repositories Error α := fun w t =>
  match t position.repository with
  | none => (.error (.unreadable position.repository .notARepository), t)
  | some r => ((x w r).1, Function.update t position.repository (some (x w r).2))

/-- What a reference that names an object resolves to: tags are followed to their end. -/
def peel (r : Repository) (id : Oid) : Option Oid :=
  match r.objects.find id with
  | none => none
  | some (.tag target _) => if (r.objects.find target).isSome then some target else none
  | some _ => some id

/-- `repo::tip`: none when the branch has no commit. -/
def tip (position : Position) : Io (Option Oid) := fun _ r =>
  if !Gix.isName position.reference then (.error (.unreadable position.scope .notAName), r)
  else
    match r.refs position.reference with
    | none => (.ok none, r)
    | some named =>
      match peel r named with
      | none => (.error (.unreadable position.scope .unresolved), r)
      | some id => (.ok (some id), r)

/-- The entries of the tree of a commit. -/
def treeOf (named : Text) (id : Oid) : Io (List (Entry Oid)) := fun _ r =>
  match r.objects.find id with
  | none => (.error (.unreadable named .missing), r)
  | some (.commit commit) =>
    match r.objects.find commit.tree with
    | some (.tree entries) => (.ok entries, r)
    | _ => (.error (.unreadable named .noTree), r)
  | some _ => (.error (.unreadable named .notACommit), r)

/-- The name of the entry at a position. -/
def Position.filename (position : Position) : Bytes := utf8 (String.ofList position.path)

/-- `Tree::lookup_entry_by_path` at a path of one component. -/
def lookupEntry (entries : List (Entry Oid)) (filename : Bytes) : Option (Entry Oid) :=
  entries.find? fun entry => entry.filename = filename

/-- `Repository::find_object`, for an entry of a tree. -/
def findObject (position : Position) (id : Oid) : Io (Object Oid) := fun _ r =>
  match r.objects.find id with
  | none => (.error (.unreadable position.locator .noBlob), r)
  | some object => (.ok object, r)

/-- `repo::entry_content`: an entry that is no file is no content. -/
def entryContent (id : Oid) (position : Position) : Io (Option Bytes) := do
  let entries ← treeOf position.locator id
  match lookupEntry entries position.filename with
  | none => pure none
  | some entry =>
    if !entry.kind.isBlob then pure none
    else do
      let object ← findObject position entry.oid
      pure (some object.content)

def writeObject (object : Object Oid) : Io Oid := fun _ r =>
  (.ok (Gix.hash object), { r with objects := r.objects.write object })

def gxName : String := "gx"

def gxEmail : String := "gx@glovrex.invalid"

/-- `repo::gx_signature`: a commit is dated at the epoch. -/
def gxSignature : Signature := ⟨gxName, gxEmail, 0, 0⟩

/-- The commit of a tree on a tip. -/
def commitOn (position : Position) (parent : Option Oid) (tree : Oid) : Commit Oid where
  tree := tree
  parents := parent.toList
  author := gxSignature
  committer := gxSignature
  encoding := none
  message := utf8 (String.ofList ("gx: ".toList ++ position.locator ++ ['\n']))
  extraHeaders := []

/-- The entries of a tree in which one is replaced, inserted or removed. -/
def entriesWith (entries : List (Entry Oid)) (filename : Bytes) (blob : Option Oid) : List (Entry Oid) :=
  let kept := entries.filter fun entry => entry.filename ≠ filename
  sortBy Entry.cmp (kept ++ (blob.map fun oid => ⟨.blob, filename, oid⟩).toList)

/-- The blob of a content, if there is one. -/
def writeContent : Option Bytes → Io (Option Oid)
  | some content => do
    let blob ← writeObject (.blob content)
    pure (some blob)
  | none => pure none

/-- The entries under a tip, if there is one. -/
def entriesUnder (position : Position) : Option Oid → Io (List (Entry Oid))
  | some parent => treeOf position.scope parent
  | none => pure []

/-- `repo::commit_entry`. -/
def commitEntry (parent : Option Oid) (position : Position) (content : Option Bytes) : Io Oid := do
  let entries ← entriesUnder position parent
  let blob ← writeContent content
  let tree ← writeObject (.tree (entriesWith entries position.filename blob))
  writeObject (.commit (commitOn position parent tree))

/-- `repo::move_branch`: refused when the branch is not where it was last seen. -/
def moveBranch (position : Position) (expected : Option Oid) (new : Oid) : Io Unit := fun _ r =>
  if !Gix.isName position.reference then
    (.error (.notAReference position.locator position.reference), r)
  else if r.refs position.reference ≠ expected then
    (.error (.applyFailed position.scope .moved), r)
  else (.ok (), { r with refs := Function.update r.refs position.reference (some new) })

/-- `repo::object_id`. -/
def objectId (text : Text) : Except Error Oid :=
  match Gix.fromHex text with
  | none => .error (.payloadUnreadable (.notAnId text))
  | some id => .ok id

end Repository

section Methods

variable [Gix]

def answering {α : Type} (x : Except Error α) {σ : Type} : Prog Unit σ Error α := fun _ s => (x, s)

/-- What stands at a position under a tip, if there is one. -/
def contentUnder (position : Position) : Option Oid → Io (Option Bytes)
  | some tip => entryContent tip position
  | none => pure none

/-- `apply::apply_content`: where the entry is already what it becomes, nothing is done. -/
def applyContent (position : Position) (op : GitOp) : Io Unit := do
  let tip ← tip position
  let current ← contentUnder position tip
  if current = op.content then pure ()
  else do
    let commit ← commitEntry tip position op.content
    moveBranch position tip commit

/-- `apply::apply_reset`. -/
def applyReset (position : Position) (op : GitOp) : Io Unit := do
  let text ← Prog.orThrow op.target (.payloadUnreadable .noTarget)
  let target ← answering (objectId text)
  let tip ← tip position
  if tip = some target then pure ()
  else moveBranch position tip target

/-- What an operation does to its repository. -/
def perform (position : Position) (op : GitOp) : Io Unit :=
  if op.kind = kindContent then applyContent position op
  else if op.kind = kindReset then applyReset position op
  else Prog.throw (.payloadUnreadable (.unknownKind op.kind))

variable [Host]

/-- The digest of the entry, and that of the branch, as they are read back. -/
def observe (position : Position) : Io (Cid × Cid) := do
  let tip ← tip position
  let digest := match ← contentUnder position tip with
    | some content => contentDigest content
    | none => absentDigest
  let scopeDigest := match tip with
    | some tip => contentDigest (Gix.bytes tip)
    | none => absentDigest
  pure (digest, scopeDigest)

/-- The fingerprint of a branch. -/
def scopeFingerprint (position : Position) (digest : Cid) : Except Error Fingerprint :=
  match fingerprint .git position.scope digest with
  | .error e => .error (.adapter e)
  | .ok fp => .ok fp

variable [Canon]

/-- `apply::apply`. -/
def apply (delta : PlannedDelta) : Prog Unit Repositories Error AppliedDelta := do
  let (position, op) ← answering (operationOf delta)
  inside position do
    perform position op
    let (digest, scopeDigest) ← observe position
    let postcondition ← answering (scopeFingerprint position scopeDigest)
    pure ⟨delta.reference, postcondition, digest, 0, none⟩

/-- `invert::invert`: no inverse of a branch's first commit. -/
def invert (delta : PlannedDelta) (pre : ObjectSnapshot) :
    Prog Unit Repositories Error InvertOutcome := do
  let (position, _) ← answering (operationOf delta)
  let named := normalize pre.locator.toList
  if named ≠ position.locator then Prog.throw (.locatorMismatch position.locator named)
  else do
    let answered ← inside position (tip position)
    let reads (digest : Cid) : List ReadEntry := [⟨digest, String.ofList position.scope⟩]
    match answered with
    | none => pure (.none (reads absentDigest))
    | some tip => do
      let payload ← Prog.orThrow (encode [.reset position.locator (Gix.toHex tip)]) .notDigestible
      pure (.inverted ⟨.git, payload, none⟩
        (reads (contentDigest (utf8 (String.ofList (Gix.toHex tip))))))

/-- `commutation::mint`: the delta of an operation as it is spelled at its position. -/
def mint (position : Position) (op : GitOp) : Except Error DeltaRef :=
  let restated :=
    match op.target, op.content with
    | some target, content =>
      if op.kind = kindReset then GitOp.reset position.locator target
      else match content with
        | some content => GitOp.write position.locator content
        | none => GitOp.remove position.locator
    | none, some content => GitOp.write position.locator content
    | none, none => GitOp.remove position.locator
  match encode [restated] with
  | none => .error .notDigestible
  | some payload => .ok (PlannedDelta.reference ⟨.git, payload, none⟩)

/-- `commutation::commutation`: two changes of two branches. -/
def commutation (a b : PlannedDelta) : Except Error Commutation := do
  let left ← operationOf a
  let right ← operationOf b
  if left.1.scope ≠ right.1.scope then return .commutes
  else return .conflicts (← mint right.1 right.2)

end Methods

end Tracefold.Git
