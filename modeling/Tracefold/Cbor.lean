import Mathlib.Tactic.Common
import Tracefold.Core

/-! gx-canon's codec, as the crates above it use it. -/

namespace Tracefold

/-- `cbor::encode` and `cbor::decode` at one type. -/
class Cbor (α : Type) where
  encode : α → Option Bytes
  decode : Bytes → Option α

/-- What was encoded is read back, and no value is read from no bytes. -/
class LawfulCbor (α : Type) [Cbor α] : Prop where
  decode_encode : ∀ {value : α} {bytes : Bytes},
    Cbor.encode value = some bytes → Cbor.decode bytes = some value
  decode_nil : Cbor.decode ([] : Bytes) = (none : Option α)

theorem LawfulCbor.encode_length_pos {α : Type} [Cbor α] [LawfulCbor α] {value : α} {bytes : Bytes}
    (h : Cbor.encode value = some bytes) : 0 < bytes.length := by
  rw [List.length_pos_iff]
  rintro rfl
  have hdecode := LawfulCbor.decode_encode h
  rw [LawfulCbor.decode_nil] at hdecode
  cases hdecode

/-- `cbor::value_span` and `cid::of_canonical_bytes`, which read bytes without their type. -/
class CanonicalBytes where
  valueSpan : Bytes → String → Option (Option (ℕ × ℕ))
  cid : Bytes → Option Cid

end Tracefold
