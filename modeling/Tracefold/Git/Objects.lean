import Mathlib.Tactic.Common
import Tracefold.Cbor.Value
import Tracefold.Core
import Tracefold.Library.ObjectStore
import Tracefold.Library.Sort
import Tracefold.Locator

/-! A git repository: a store of objects, each under its hash, and the references that name some. -/

namespace Tracefold.Git

open Library Locator

section Objects

/-- `gix::objs::tree::EntryKind`. -/
inductive EntryKind where
  | tree
  | blob
  | blobExecutable
  | link
  | commit
  deriving DecidableEq, Repr

/-- `EntryMode::is_blob`. -/
def EntryKind.isBlob : EntryKind → Bool
  | .blob | .blobExecutable => true
  | _ => false

structure Entry (ι : Type) where
  kind : EntryKind
  filename : Bytes
  oid : ι
  deriving DecidableEq

namespace Entry

variable {ι : Type}

/-- The byte after a common part of two names: that of a directory is followed by a separator. -/
def byteAt (entry : Entry ι) (common : ℕ) : Option UInt8 :=
  entry.filename[common]?.or (if entry.kind = .tree then some 47 else none)

/-- The order of the entries of a tree. -/
def cmp (a b : Entry ι) : Ordering :=
  let common := min a.filename.length b.filename.length
  (compare (a.filename.take common) (b.filename.take common)).then
    (compare (a.byteAt common) (b.byteAt common))

end Entry

structure Signature where
  name : String
  email : String
  seconds : ℤ
  offset : ℤ
  deriving DecidableEq

structure Commit (ι : Type) where
  tree : ι
  parents : List ι
  author : Signature
  committer : Signature
  encoding : Option Bytes
  message : Bytes
  extraHeaders : List (Bytes × Bytes)
  deriving DecidableEq

/-- An object. A tag names the object at the end of the chain of tags that it begins. -/
inductive Object (ι : Type) where
  | blob (content : Bytes)
  | tree (entries : List (Entry ι))
  | commit (commit : Commit ι)
  | tag (target : ι) (text : Bytes)
  deriving DecidableEq

end Objects

/-- What gitoxide settles: the id of an object, which is a hash of it, the texts and the bytes of an
id, the bytes of an object that is not a blob, and the names that a reference may have. -/
class Gix where
  ObjectId : Type
  ids : DecidableEq ObjectId
  hash : Object ObjectId → ObjectId
  toHex : ObjectId → Text
  fromHex : Text → Option ObjectId
  bytes : ObjectId → Bytes
  data : Object ObjectId → Bytes
  isName : Text → Bool

/-- `gix::ObjectId`. -/
abbrev Oid [Gix] : Type := Gix.ObjectId

instance [Gix] : DecidableEq Oid := Gix.ids

/-- No two objects have one id, an id is read from its text, and no name of a reference has `..`. -/
class LawfulGix [Gix] : Prop where
  hash_injective : Function.Injective (Gix.hash : Object Oid → Oid)
  fromHex_toHex : ∀ id : Oid, Gix.fromHex (Gix.toHex id) = some id
  name_noDotDot : ∀ name, Gix.isName name = true → dotDot ∉ name.splitOn '/'

variable [Gix]

/-- The content of an object. -/
def Object.content : Object Oid → Bytes
  | .blob content => content
  | object => Gix.data object

/-- A repository: its objects, and what its references name. -/
structure Repository where
  objects : ObjectStore (Gix.hash : Object Oid → Oid)
  refs : Text → Option Oid

namespace Repository

/-- A store is whole when whatever an object in it needs is in it, and no tree has a name twice. -/
structure Whole (objects : ObjectStore (Gix.hash : Object Oid → Oid)) : Prop where
  commits : ∀ {id commit}, objects.find id = some (.commit commit) →
    ∃ entries, objects.find commit.tree = some (.tree entries)
  trees : ∀ {id entries}, objects.find id = some (.tree entries) →
    (entries.map Entry.filename).Nodup ∧
      ∀ entry ∈ entries, (entry.kind.isBlob = true → ∃ content, objects.find entry.oid = some (.blob content)) ∧
        (entry.kind = .tree → ∃ below, objects.find entry.oid = some (.tree below))

/-- Every reference of a sound repository names a commit. -/
structure Sound (r : Repository) : Prop where
  whole : Whole r.objects
  refs : ∀ {name id}, r.refs name = some id → ∃ commit, r.objects.find id = some (.commit commit)

end Repository

end Tracefold.Git
