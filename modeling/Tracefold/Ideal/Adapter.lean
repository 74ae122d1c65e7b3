import Mathlib.Tactic.Common
import Tracefold.Adapter
import Tracefold.Ideal

/-! A host that hashes a content to itself, and a tree with nothing in it. -/

namespace Tracefold.Ideal

open Library Library.FileTree Locator Adapter

/-- Every content is hashed to its own bytes. -/
noncomputable scoped instance host : Host where
  toFromSlice := DagCbor.theReader
  mint content := ⟨content.map UInt8.toNat⟩
  elided _ := ""

scoped instance lawfulHost : LawfulHost where
  toLawfulFromSlice := DagCbor.theReader_lawful
  elided_bounded _ := by
    show "".utf8ByteSize ≤ maxScopeBytes
    decide

scoped instance collisionFreeHost : CollisionFree where
  mint a b h := by
    apply List.map_injective_iff.mpr (fun x y hxy => UInt8.toNat_inj.mp hxy)
    exact Cid.mk.inj h

/-- The root, and nothing in it. -/
def rooted : FileTree Text Bytes where
  entry path := if path = [] then some .directory else none
  root := if_pos rfl
  parent {path name} h := by
    rw [if_neg (List.append_ne_nil_of_right_ne_nil _ (List.cons_ne_nil _ _))] at h
    exact absurd rfl h
  finite := by
    apply (Set.finite_singleton []).subset
    intro path hpath
    by_contra hne
    exact hpath (if_neg hne)

/-- A name that no file has. -/
noncomputable def unused (t : FileTree Text Bytes) (directory : List (Component Text)) : Text :=
  (exists_unused (directory ++ [.up]) t).choose

theorem unused_fresh (t : FileTree Text Bytes) (spelled : List (Component Text)) :
    Unused spelled (unused t spelled.dropLast) t := by
  have hunused := (exists_unused (spelled.dropLast ++ [.up]) t).choose_spec
  intro parent hparent
  apply hunused parent
  rwa [List.dropLast_concat]

end Tracefold.Ideal
