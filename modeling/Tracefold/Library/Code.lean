import Mathlib.Logic.Function.Basic
import Mathlib.Tactic.Common

/-! Self-delimiting codes over lists of numbers: a value is read back from the front of any list
that starts with its code, so codes of several values can be laid end to end. -/

namespace Tracefold.Library

set_option autoImplicit true

/-- A code of `α` that determines the value and where it ends. -/
class Code (α : Type) where
  code : α → List ℕ
  code_append : ∀ {a b : α} {s t : List ℕ}, code a ++ s = code b ++ t → a = b ∧ s = t

namespace Code

theorem code_injective [Code α] : Function.Injective (code : α → List ℕ) := by
  intro a b h
  have h' : code a ++ [] = code b ++ [] := by
    simpa only [List.append_nil] using h
  exact (code_append h').1

/-- A type that maps into a coded one without losing anything is coded. -/
@[reducible]
def ofInjective [Code β] (f : α → β) (hf : Function.Injective f) : Code α where
  code a := code (f a)
  code_append h := by
    obtain ⟨hab, hst⟩ := code_append h
    exact ⟨hf hab, hst⟩

instance : Code ℕ where
  code n := [n]
  code_append h := by
    simp only [List.cons_append, List.nil_append, List.cons.injEq] at h
    exact h

instance [Code α] [Code β] : Code (α × β) where
  code p := code p.1 ++ code p.2
  code_append h := by
    rw [List.append_assoc, List.append_assoc] at h
    obtain ⟨h1, h⟩ := code_append h
    obtain ⟨h2, h⟩ := code_append h
    exact ⟨Prod.ext h1 h2, h⟩

instance [Code α] : Code (Option α) where
  code
    | none => [0]
    | some a => 1 :: code a
  code_append {a b s t} h := by
    cases a with
    | none =>
      cases b with
      | none => simpa using h
      | some b => simp at h
    | some a =>
      cases b with
      | none => simp at h
      | some b =>
        simp only [List.cons_append, List.cons.injEq, true_and] at h
        obtain ⟨rfl, hst⟩ := code_append h
        exact ⟨rfl, hst⟩

/-- Codes laid end to end; the number of them is written first. -/
def codeAll [Code α] (l : List α) : List ℕ := l.flatMap code

theorem codeAll_append [Code α] {l m : List α} (hl : l.length = m.length) {s t : List ℕ}
    (h : codeAll l ++ s = codeAll m ++ t) : l = m ∧ s = t := by
  induction l generalizing m with
  | nil =>
    cases m with
    | nil => exact ⟨rfl, h⟩
    | cons b m => simp at hl
  | cons a l ih =>
    cases m with
    | nil => simp at hl
    | cons b m =>
      simp only [codeAll, List.flatMap_cons, List.append_assoc] at h
      obtain ⟨rfl, hrest⟩ := code_append h
      simp only [List.length_cons, Nat.add_right_cancel_iff] at hl
      obtain ⟨rfl, hst⟩ := ih hl hrest
      exact ⟨rfl, hst⟩

instance [Code α] : Code (List α) where
  code l := l.length :: codeAll l
  code_append h := by
    simp only [List.cons_append, List.cons.injEq] at h
    exact codeAll_append h.1 h.2

instance : Code Bool :=
  ofInjective Bool.toNat fun a b h => by
    cases a <;> cases b <;> first | rfl | cases h

instance : Code Int :=
  ofInjective (fun n : Int => (n.toNat, (-n).toNat)) fun a b h => by
    simp only [Prod.mk.injEq] at h
    omega

instance : Code UInt8 := ofInjective UInt8.toNat fun _ _ h => UInt8.toNat_inj.mp h

instance : Code Char := ofInjective Char.toNat fun _ _ h => Char.toNat_inj.mp h

instance : Code String := ofInjective String.toList fun _ _ h => String.toList_inj.mp h

end Code

end Tracefold.Library
