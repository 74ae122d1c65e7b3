import Mathlib.Tactic.Common
import Tracefold.Cbor
import Tracefold.Ideal

/-! A codec that writes a value as its code, each number in unary. -/

namespace Tracefold.Ideal

open Library Library.Code

/-- Each number as ones, and a zero after it. -/
def unary (numbers : List ℕ) : Bytes := numbers.flatMap fun n => List.replicate n 1 ++ [0]

theorem unary_cons (n : ℕ) (rest : List ℕ) :
    unary (n :: rest) = List.replicate n 1 ++ 0 :: unary rest := by
  simp [unary]

theorem replicate_append_inj {n m : ℕ} {s t : Bytes}
    (h : List.replicate n (1 : UInt8) ++ 0 :: s = List.replicate m 1 ++ 0 :: t) : n = m ∧ s = t := by
  induction n generalizing m with
  | zero =>
    cases m with
    | zero => simpa using h
    | succ m => simp [List.replicate_succ] at h
  | succ n ih =>
    cases m with
    | zero => simp [List.replicate_succ] at h
    | succ m =>
      simp only [List.replicate_succ, List.cons_append, List.cons.injEq, true_and] at h
      obtain ⟨rfl, hst⟩ := ih h
      exact ⟨rfl, hst⟩

theorem unary_injective : Function.Injective unary := by
  intro a b h
  induction a generalizing b with
  | nil =>
    cases b with
    | nil => rfl
    | cons m b =>
      rw [unary_cons] at h
      simp [unary] at h
  | cons n a ih =>
    cases b with
    | nil =>
      rw [unary_cons] at h
      simp [unary] at h
    | cons m b =>
      rw [unary_cons, unary_cons] at h
      obtain ⟨rfl, hrest⟩ := replicate_append_inj h
      rw [ih hrest]

/-- The code of a value, behind a byte that no value is without. -/
def bytesOf {α : Type} [Code α] (value : α) : Bytes := 0 :: unary (code value)

theorem bytesOf_injective {α : Type} [Code α] : Function.Injective (bytesOf : α → Bytes) := by
  intro a b h
  exact code_injective (unary_injective (List.cons.inj h).2)

open Classical in
/-- A value is written as its code, and only a code is read. -/
noncomputable scoped instance cbor {α : Type} [Code α] : Cbor α where
  encode value := some (bytesOf value)
  decode bytes := if h : ∃ value : α, bytesOf value = bytes then some h.choose else none

open Classical in
scoped instance lawfulCbor {α : Type} [Code α] : LawfulCbor α where
  decode_encode {value bytes} h := by
    have hbytes : bytesOf value = bytes := Option.some.inj h
    have hex : ∃ value : α, bytesOf value = bytes := ⟨value, hbytes⟩
    have hchoose : hex.choose = value := bytesOf_injective (hex.choose_spec.trans hbytes.symm)
    show (if h : ∃ value : α, bytesOf value = bytes then some h.choose else none) = some value
    rw [dif_pos hex, hchoose]
  decode_nil := by
    show (if h : ∃ value : α, bytesOf value = [] then some h.choose else none) = none
    rw [dif_neg]
    rintro ⟨value, hvalue⟩
    cases hvalue

/-- Where the inclusion proof stands in a receipt's code. -/
noncomputable def proofSpan (payload : ReceiptPayload) : ℕ × ℕ :=
  let start := 1 + (unary (code (payload.keyId, payload.verdict, payload.enforced, payload.confinement,
    payload.catalogueHash) ++ code (payload.readSet, payload.reversibility, payload.undo,
    payload.determinismBoundary, payload.receiptKind) ++ code (payload.canonicalCid,
    payload.inverseDelta, payload.transformation))).length
  (start, start + (unary (code payload.inclusionProof)).length)

/-- Bytes are hashed to themselves. -/
noncomputable scoped instance canonicalBytes : CanonicalBytes where
  valueSpan bytes _ := some ((Cbor.decode bytes).map proofSpan)
  cid bytes := some ⟨bytes.map UInt8.toNat⟩

end Tracefold.Ideal
