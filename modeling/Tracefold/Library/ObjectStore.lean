import Mathlib.Logic.Function.Basic
import Mathlib.Tactic.Common

/-! A store of objects, each under the hash of its content. -/

namespace Tracefold.Library

set_option autoImplicit true

/-- What is found under an id hashes to it. -/
structure ObjectStore (hash : α → ι) where
  find : ι → Option α
  addressed {id : ι} {a : α} : find id = some a → hash a = id

namespace ObjectStore

variable {hash : α → ι}

/-- A store holds what another holds, and perhaps more. -/
def Within (s s' : ObjectStore hash) : Prop := ∀ ⦃id : ι⦄ ⦃a : α⦄, s.find id = some a → s'.find id = some a

theorem Within.refl (s : ObjectStore hash) : s.Within s := fun _ _ h => h

theorem Within.trans {s s' s'' : ObjectStore hash} (h : s.Within s') (h' : s'.Within s'') :
    s.Within s'' := fun _ _ hfind => h' (h hfind)

/-- A store with nothing in it. -/
def empty : ObjectStore hash where
  find _ := none
  addressed h := by cases h

variable [DecidableEq ι]

/-- An object is written under its hash. -/
def write (s : ObjectStore hash) (a : α) : ObjectStore hash where
  find := Function.update s.find (hash a) (some a)
  addressed {id b} h := by
    by_cases hid : id = hash a
    · rw [hid, Function.update_self] at h
      rw [hid, Option.some.inj h]
    · rw [Function.update_of_ne hid] at h
      exact s.addressed h

variable {s : ObjectStore hash} {a : α}

@[simp]
theorem find_write_self : (s.write a).find (hash a) = some a := Function.update_self _ _ _

theorem find_write_of_ne {id : ι} (h : id ≠ hash a) : (s.write a).find id = s.find id :=
  Function.update_of_ne h _ _

theorem find_write {id : ι} {b : α} (h : (s.write a).find id = some b) :
    (b = a ∧ id = hash a) ∨ s.find id = some b := by
  by_cases hid : id = hash a
  · subst hid
    rw [find_write_self] at h
    exact .inl ⟨(Option.some.inj h).symm, rfl⟩
  · rw [find_write_of_ne hid] at h
    exact .inr h

theorem within_write (hinj : Function.Injective hash) : s.Within (s.write a) := by
  intro id b h
  by_cases hid : id = hash a
  · have hsame : b = a := hinj ((s.addressed h).trans hid)
    rw [hid, hsame]
    exact find_write_self
  · rw [find_write_of_ne hid]
    exact h

end ObjectStore

end Tracefold.Library
