import Mathlib.Logic.Encodable.Basic
import Mathlib.Logic.Equiv.List
import Mathlib.Tactic.Common
import Tracefold.Git.Adapter
import Tracefold.Library.Code

/-! A gitoxide whose ids are the codes of their objects, and a repository with nothing in it. -/

namespace Tracefold.Ideal

open Library Library.Code Locator Git

def entryKindCode : EntryKind → ℕ
  | .tree => 0
  | .blob => 1
  | .blobExecutable => 2
  | .link => 3
  | .commit => 4

instance : Code EntryKind := ofInjective entryKindCode fun a b h => by
  cases a <;> cases b <;> first | rfl | cases h

instance {ι : Type} [Code ι] : Code (Git.Entry ι) :=
  ofInjective (fun e : Git.Entry ι => (e.kind, e.filename, e.oid)) fun a b h => by
    cases a
    cases b
    simp_all

instance : Code Signature :=
  ofInjective (fun s : Signature => (s.name, s.email, s.seconds, s.offset)) fun a b h => by
    cases a
    cases b
    simp_all

instance {ι : Type} [Code ι] : Code (Commit ι) :=
  ofInjective (fun c : Commit ι =>
    (c.tree, c.parents, c.author, c.committer, c.encoding, c.message, c.extraHeaders))
    fun a b h => by
      cases a
      cases b
      simp_all

/-- An object, by the number of its kind, with what it carries. -/
def objectCode {ι : Type} : Object ι →
    Option Bytes × Option (List (Git.Entry ι)) × Option (Commit ι) × Option (ι × Bytes)
  | .blob content => (some content, none, none, none)
  | .tree entries => (none, some entries, none, none)
  | .commit commit => (none, none, some commit, none)
  | .tag target text => (none, none, none, some (target, text))

instance {ι : Type} [Code ι] : Code (Object ι) := ofInjective objectCode fun a b h => by
  cases a <;> cases b <;> simp_all [objectCode]

/-- An id is the code of its object, and is spelled by a run of digits as long as its number. -/
scoped instance gix : Gix where
  ObjectId := List ℕ
  ids := inferInstance
  hash := code
  toHex id := List.replicate (Encodable.encode id) '0'
  fromHex text := Encodable.decode text.length
  bytes id := id.map UInt8.ofNat
  data _ := []
  isName name := (name.splitOn '/').all (· != dotDot)

scoped instance lawfulGix : LawfulGix where
  hash_injective := @code_injective (Object (List ℕ)) _
  fromHex_toHex (id : List ℕ) := by
    show Encodable.decode (List.replicate (Encodable.encode id) '0').length = some id
    rw [List.length_replicate, Encodable.encodek]
  name_noDotDot _ h hmem := by
    have hne := List.all_eq_true.mp h dotDot hmem
    rw [bne_self_eq_false] at hne
    cases hne

/-- What `git init` leaves. -/
def unborn : Repository := ⟨.empty, fun _ => none⟩

theorem unborn_sound : unborn.Sound where
  whole := ⟨nofun, nofun⟩
  refs := nofun

/-- The one file of a tree, and the tree. -/
def fileOf (kind : EntryKind) (content : Bytes) : Git.Entry Oid :=
  ⟨kind, ['a'.toNat.toUInt8], Gix.hash (.blob content)⟩

def commitOf (kind : EntryKind) (content : Bytes) : Commit Oid where
  tree := Gix.hash (.tree [fileOf kind content])
  parents := []
  author := gxSignature
  committer := gxSignature
  encoding := none
  message := []
  extraHeaders := []

/-- A branch with one commit of one file. -/
def oneFile (kind : EntryKind) (content : Bytes) : Repository where
  objects := ((ObjectStore.empty.write (.blob content)).write (.tree [fileOf kind content])).write
    (.commit (commitOf kind content))
  refs name := if name = "refs/heads/main".toList then
    some (Gix.hash (.commit (commitOf kind content))) else none

theorem find_oneFile {kind : EntryKind} {content : Bytes} {id : Oid} {object : Object Oid}
    (h : (oneFile kind content).objects.find id = some object) :
    object = .commit (commitOf kind content) ∨ object = .tree [fileOf kind content] ∨
      object = .blob content := by
  rcases ObjectStore.find_write h with ⟨rfl, -⟩ | h
  · exact .inl rfl
  · rcases ObjectStore.find_write h with ⟨rfl, -⟩ | h
    · exact .inr (.inl rfl)
    · rcases ObjectStore.find_write h with ⟨rfl, -⟩ | h
      · exact .inr (.inr rfl)
      · cases h

section OneFile

variable {kind : EntryKind} {content : Bytes}

theorem oneFile_main : (oneFile kind content).refs "refs/heads/main".toList =
    some (Gix.hash (.commit (commitOf kind content))) := by
  dsimp only [oneFile]
  rw [if_pos rfl]

theorem oneFile_commit : (oneFile kind content).objects.find
    (Gix.hash (.commit (commitOf kind content))) = some (.commit (commitOf kind content)) :=
  ObjectStore.find_write_self

theorem oneFile_tree : (oneFile kind content).objects.find
    (Gix.hash (.tree [fileOf kind content])) = some (.tree [fileOf kind content]) :=
  ObjectStore.within_write (@LawfulGix.hash_injective gix _) ObjectStore.find_write_self

theorem oneFile_blob :
    (oneFile kind content).objects.find (Gix.hash (.blob content)) = some (.blob content) := by
  have hinj := @LawfulGix.hash_injective gix _
  exact ObjectStore.within_write hinj (ObjectStore.within_write hinj ObjectStore.find_write_self)

theorem oneFile_sound (hkind : kind ≠ .tree) : (oneFile kind content).Sound := by
  refine ⟨⟨fun h => ?_, fun h => ?_⟩, fun {name id} h => ?_⟩
  · rcases find_oneFile h with heq | heq | heq
    · cases heq
      exact ⟨_, oneFile_tree⟩
    · cases heq
    · cases heq
  · rcases find_oneFile h with heq | heq | heq
    · cases heq
    · cases heq
      refine ⟨List.nodup_singleton _, fun entry hentry => ?_⟩
      obtain rfl := List.mem_singleton.mp hentry
      exact ⟨fun _ => ⟨content, oneFile_blob⟩, fun heq => absurd heq hkind⟩
    · cases heq
  · have hrefs : (if name = "refs/heads/main".toList then
        some (Gix.hash (.commit (commitOf kind content))) else none) = some id := h
    split at hrefs
    · cases hrefs
      exact ⟨_, oneFile_commit⟩
    · cases hrefs

end OneFile

/-- One repository, at a path from the root. -/
def repositories (r : Repository) : Repositories := fun path =>
  if path = "/r".toList then some r else none

theorem repositories_sound {r : Repository} (hr : r.Sound) (path : Text) (s : Repository)
    (h : repositories r path = some s) : s.Sound := by
  rw [repositories] at h
  split at h
  · cases h
    exact hr
  · cases h

end Tracefold.Ideal
