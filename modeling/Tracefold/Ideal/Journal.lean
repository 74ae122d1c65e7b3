import Mathlib.Tactic.Common
import Tracefold.Cbor
import Tracefold.Journal

/-! A codec for the drafts of one intent, each written as the byte of its seed. -/

namespace Tracefold.Ideal

/-- A draft of one intent. -/
def draft (seed : ℕ) : Record := .draftCreated ⟨[]⟩ seed 0

def encodeDraft (record : Record) : Option Bytes :=
  match record with
  | .draftCreated _ seed _ =>
    if record = draft seed ∧ seed < 256 then some [UInt8.ofNat seed] else none
  | .about .. => none

def decodeDraft : Bytes → Option Record
  | [seed] => some (draft seed.toNat)
  | _ => none

scoped instance draftCbor : Cbor Record := ⟨encodeDraft, decodeDraft⟩

scoped instance lawfulDraftCbor : LawfulCbor Record where
  decode_encode {record bytes} h := by
    replace h : encodeDraft record = some bytes := h
    unfold encodeDraft at h
    split at h
    next intent seed stamp =>
      split at h
      next hdraft =>
        cases h
        show some (draft (UInt8.ofNat seed).toNat) = _
        rw [UInt8.toNat_ofNat_of_lt' hdraft.2, hdraft.1]
      next => cases h
    next => cases h
  decode_nil := rfl

end Tracefold.Ideal
