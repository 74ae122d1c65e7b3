import Mathlib.Tactic.Common
import Tracefold.Canon
import Tracefold.Cbor.Serde
import Tracefold.Library.FileTree
import Tracefold.Locator

/-! What the adapters of gx-substrate share: their refusals, the digest of a content, and a
fingerprint over a scope inside the bound. -/

namespace Tracefold.Adapter

open Library Locator

/-- Why no delta plans an intent. -/
inductive Unplannable where
  | foreign (got : SubstrateKind)
  | notFromRoot (locator normalised : Text)
  | tooLarge (bytes : ℕ)
  | notAnEntry
  | claimsFired
  deriving DecidableEq, Repr

/-- `gx_substrate::Error`. -/
inductive Error where
  | scopeTooLong (bytes : ℕ)
  | unreadable (locator : Text) (cause : Option IoError)
  | notPlannable (why : Unplannable)
  | applyFailed (position : Text) (cause : Option IoError)
  | foreignDelta (expected got : SubstrateKind)
  | locatorMismatch (expected got : Text)
  | notAPosition (locator normalised : Text)
  | notDigestible
  | payloadUnreadable
  | unimplemented (operations : ℕ)
  deriving DecidableEq, Repr

/-- gx-canon and the codec under it: the digest of a content, and the line that stands for a scope
over the bound. -/
class Host extends DagCbor.FromSlice where
  mint : Bytes → Cid
  elided : String → String

class LawfulHost [Host] : Prop extends DagCbor.LawfulFromSlice where
  elided_bounded : ∀ scope, (Host.elided scope).utf8ByteSize ≤ maxScopeBytes

/-- No two contents have one digest. -/
class CollisionFree [Host] : Prop where
  mint : Function.Injective Host.mint

variable [Host]

/-- `content_digest`. -/
def contentDigest (content : Bytes) : Cid := Host.mint content

/-- `absent_digest`. -/
def absentDigest : Cid := contentDigest []

/-- `elide_scope`. -/
def elideScope (scope : String) : String :=
  if scope.utf8ByteSize ≤ maxScopeBytes then scope else Host.elided scope

/-- `Fingerprint::new` over the scope as it is elided. -/
def fingerprint (kind : SubstrateKind) (scope : Text) (digest : Cid) : Except Error Fingerprint :=
  if h : (elideScope (String.ofList scope)).utf8ByteSize ≤ maxScopeBytes then
    .ok ⟨kind, elideScope (String.ofList scope), digest, h⟩
  else .error (.scopeTooLong (elideScope (String.ofList scope)).utf8ByteSize)

section Lawful

variable [LawfulHost]

theorem elideScope_bounded (scope : String) : (elideScope scope).utf8ByteSize ≤ maxScopeBytes := by
  rw [elideScope]
  split
  next h => exact h
  next => exact LawfulHost.elided_bounded scope

theorem fingerprint_eq (kind : SubstrateKind) (scope : Text) (digest : Cid) :
    fingerprint kind scope digest =
      .ok ⟨kind, elideScope (String.ofList scope), digest, elideScope_bounded _⟩ :=
  dif_pos (elideScope_bounded _)

end Lawful

theorem casEq_fingerprint {kind : SubstrateKind} {scope : Text} {digest digest' : Cid}
    {f f' : Fingerprint} (h : fingerprint kind scope digest = .ok f)
    (h' : fingerprint kind scope digest' = .ok f') : f.casEq f' = some (decide (digest = digest')) := by
  rw [fingerprint] at h h'
  split at h
  next hbound =>
    rw [dif_pos hbound] at h'
    cases h
    cases h'
    rw [Fingerprint.casEq, if_neg (not_not.mpr rfl), if_neg (not_not.mpr rfl)]
  next => cases h

/-- The components of a path, as `std::path::Path` takes one apart. -/
def components (path : Text) : List (Component Text) :=
  (path.splitOn '/').filterMap fun segment =>
    if segment = [] ∨ segment = dot then none
    else if segment = dotDot then some .up
    else some (.name segment)

end Tracefold.Adapter
