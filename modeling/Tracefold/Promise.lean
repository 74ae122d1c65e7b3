import Mathlib.Tactic.Common
import Tracefold.Ideal
import Tracefold.Leaves

/-! A promised post-state is a condition of the commit. -/

namespace Tracefold

open Library Engine

section Kept

variable [Canon]

/-- The apply a leaf rests on, the last one made for its transformation, answered what the
transformation promised. -/
def Promised (before : List Event) (leaf : LedgerEntry) : Prop :=
  ∀ t : Transformation, t.cid = leaf.transformation → ∀ promised, t.target = some promised →
    ∃ delta applied, lastApply leaf.transformation before = some (delta, .ok applied) ∧
      applied.resultingDigest = promised

/-- A leaf rests on an apply that kept its promise, and a `Committed` record and a filed commit
receipt on a leaf. -/
inductive Rests (before : List Event) : Event → Prop where
  | leaf (leaf : LedgerEntry) (h : Promised before leaf) : Rests before (.leaf leaf)
  | committed (leaf : LedgerEntry) (t : Timestamp) (h : leaf ∈ leavesOf before) :
      Rests before (.journal (.about leaf.transformation (.committed leaf.index) t))
  | receipt (leaf : LedgerEntry) (receipt : Receipt) (h : leaf ∈ leavesOf before)
      (hdigest : receipt.payload.ledgerDigest = leaf.receiptDigest) :
      Rests before (.receipt leaf.transformation receipt)
  | other (ev : Event) (hleaf : ∀ leaf, ev ≠ .leaf leaf) (hreceipt : ∀ id r, ev ≠ .receipt id r)
      (hcommitted : ∀ id n t, ev ≠ .journal (.about id (.committed n) t)) : Rests before ev

/-- Every leaf, `Committed` record and commit receipt of a history rests on a kept promise. -/
def PromisesKept (history : List Event) : Prop := EveryEntry Rests history

variable {pol : Policy} {w : World} {id : TransformationId} {s s' : Sys}

/-- A run whose recoveries apply nothing again for which a post-state was promised. -/
def unpromisedOnly : Policy where
  plans _ _ := True
  undos _ _ := True
  reapplies id _ := ∀ t : Transformation, t.cid = id → t.target = none
  commits _ _ := True

theorem target_eq_of_cid_eq [Canon.CollisionFree] {t t' : Transformation} (h : t.cid = t'.cid) :
    t.target = t'.target :=
  congrArg TransformationView.target (Canon.CollisionFree.transformation h)

theorem LiveLeaf.promised [Canon.CollisionFree] (hs : Synced s.engine) {entry : Entry}
    {outcome : InvertOutcome} {applied : AppliedDelta} {facts : CommitFacts} {leaf : LedgerEntry}
    (h : LiveLeaf s id entry outcome applied facts) (hid : leaf.transformation = id) :
    Promised s.history leaf := by
  subst hid
  intro t ht promised htarget
  obtain ⟨now, hnow, _, hsame⟩ := h.commit.live
  have hcid : entry.transformation.cid = leaf.transformation := by
    rw [hsame.transformation]
    exact ((hs.row leaf.transformation).names now hnow).cid_eq
  have hpromised : entry.transformation.target = some promised := by
    rw [← htarget]
    exact target_eq_of_cid_eq (hcid.trans ht.symm)
  exact ⟨entry.delta, applied, h.applied_last, (h.promise_kept promised hpromised).symm⟩

theorem PromisesKept.step [Canon.CollisionFree] (hin : InStep s) (htold : Told s.history s.disk)
    (hs : Synced s.engine) (h : PromisesKept s.history) (hstep : Step unpromisedOnly w id s s') :
    PromisesKept s'.history := by
  have hrests : ∀ ev, Rests s.history ev → PromisesKept (s.history ++ [ev]) :=
    fun ev hev => EveryEntry.append h hev
  have hleaf : ∀ leaf, leafOf s.engine.ledger id = some leaf →
      leaf ∈ leavesOf s.history ∧ leaf.transformation = id := by
    intro leaf hleaf
    obtain ⟨hmem, hid⟩ := mem_of_leafOf hleaf
    rw [htold.ledger, ← hin.ledger]
    exact ⟨hmem, hid⟩
  cases hstep with
  | leafed entry outcome applied facts stamp hlive =>
    exact hrests _ (.leaf _ (hlive.promised hs rfl))
  | leafedAgain row delta applied facts stamp hid hrebuilt hpol =>
    obtain ⟨_, hpol, _⟩ := hpol
    refine hrests _ (.leaf _ fun t ht promised htarget => ?_)
    rw [hpol t ht] at htarget
    cases htarget
  | committed leaf stamp hleafOf =>
    obtain ⟨hmem, rfl⟩ := hleaf leaf hleafOf
    exact hrests _ (.committed leaf stamp hmem)
  | filed receipt leaf hleafOf hdigest =>
    obtain ⟨hmem, rfl⟩ := hleaf leaf hleafOf
    exact hrests _ (.receipt leaf receipt hmem hdigest)
  | seated | rehydrated | idle | restored | counted | explained | resumed | indexed | escrowHeld
  | observationNamed | closed => exact h
  | _ =>
    refine hrests _ (.other _ ?_ ?_ ?_)
    · intro leaf heq
      cases heq
    · intro t r heq
      cases heq
    · intro t n stamp heq
      cases heq

theorem promises_kept [Canon.CollisionFree] (w : World) :
    Project.Kept w unpromisedOnly (fun history disk => Told history disk ∧ PromisesKept history)
      (fun s => Synced s.engine) where
  init := ⟨.empty, .nil⟩
  opens _ disk config _ := Synced.openThrough config disk
  step _ _ _ hin hd he hstep :=
    ⟨⟨hd.1.step hstep, hd.2.step hin hd.1 he hstep⟩, he.step hstep⟩

/-- A recovery finds no promise to keep: no row in `Committing` that it would apply again is of a
transformation that promised a post-state. -/
def RecoversUnpromised (p : Project) (a : Action) : Prop :=
  ∀ s stamp key, p.calls a = some (s, .recover stamp key) → ∀ id,
    sigmaState s.engine.records id = some .committing → leafOf s.engine.ledger id = none →
    (s.engine.row id).applyStarted.isSome → ∀ t : Transformation, t.cid = id → t.target = none

/-- In a run of one process with crashes and restarts whose recoveries find no promise to keep, a
leaf, a `Committed` record and a commit receipt all rest on an apply that kept the promise. -/
theorem commits_keep_promises [Canon.CollisionFree] {w : World} {p : Project}
    (h : Project.empty.Reaches w (fun p a => a.Solo ∧ RecoversUnpromised p a) p) :
    PromisesKept p.history := by
  have hkept := (promises_kept w).solo h (fun _ _ ha => ha.1) fun p a ha s op hcalls => ?_
  · exact hkept.1.2
  · cases op with
    | recover stamp key =>
      intro row hrow hstate hleaf hannounced
      have heq := (mem_transformations hrow).2
      refine ha.2 s stamp key hcalls row.transformation ?_ hleaf ?_
      · rw [sigmaState_eq, ← state_rowOf row.transformation, ← hstate]
        exact congrArg StateRow.state heq.symm
      · rw [show s.engine.row row.transformation = row from heq.symm]
        exact hannounced
    | plan intent stamp => exact fun _ _ _ _ _ => trivial
    | undo original witness rngSeed stamp => exact fun _ _ _ _ _ _ => trivial
    | commit id stamp key => exact fun _ _ _ _ _ _ => trivial
    | canonicalize => exact fun _ _ _ _ => trivial
    | _ => trivial

end Kept

section Broken

open Tracefold.Ideal

/-- The intent is planned with a promise. -/
def promising (promise : Cid) (env : Env) : Env :=
  { env with plan := fun kind intent _ => .ok ⟨kind, intent.goal, some promise⟩ }

/-- What the intent resolves to then, over the second version of the object. -/
def promisedAt (promise : Cid) : Transformation :=
  ⟨Canon.transformation { viewAt 2 with target := some promise }, Canon.intent intent, 0,
    .object ⟨[2]⟩, some promise, ⟨.fs, Canon.delta .fs [1]⟩, .time, .human "k", [], 0⟩

/-- An intent planned with a promise, up to its commit. -/
def committedPromise (promise : Cid) : List Action :=
  [.start 0 config, .call 0 (.submit intent 0 0), .call 0 (.plan intent 0)] ++
    committing (promisedAt promise).cid

/-- Every apply leaves another post-state than was promised, and the process dies where it would
record that. -/
def breaking : World := objectFrom 2 fun now env =>
  if now = 24 then { promising ⟨[9]⟩ env with fault := .crash } else promising ⟨[9]⟩ env

/-- A commit that found its promise broken, and a recovery of it. -/
def brokenRecovered : List Action :=
  committedPromise ⟨[9]⟩ ++ [.start 0 config, .call 0 (.recover 9 "k")]

/-- The recovery gives a leaf to an apply that broke its promise. -/
theorem recovered_without_its_promise :
    ¬ ∀ (w : World) (p : Project), Project.empty.Reaches w (fun _ a => a.Solo) p →
      PromisesKept p.history := by
  intro h
  have hkept := h breaking (Project.empty.run breaking brokenRecovered)
    (Project.reaches_run fun a ha _ => (by decide : ∀ a ∈ brokenRecovered, a.Solo) a ha)
  have hleaf : (Project.empty.run breaking brokenRecovered).history[27]?.map
      (fun ev => leavesOf [ev] |>.map (·.transformation)) = some [(promisedAt ⟨[9]⟩).cid] := by
    decide +kernel
  have happly : (lastApply (promisedAt ⟨[9]⟩).cid
      ((Project.empty.run breaking brokenRecovered).history.take 27)).bind
      (fun last => last.2.toOption.map (·.resultingDigest)) = some ⟨[4]⟩ := by decide +kernel
  obtain ⟨ev, hev, hid⟩ := Option.map_eq_some_iff.mp hleaf
  have hrests := hkept.getElem? hev
  cases hrests with
  | leaf leaf hpromised =>
    obtain ⟨hid, _⟩ := List.cons.inj hid
    obtain ⟨delta, applied, hlast, hdigest⟩ := hpromised (promisedAt ⟨[9]⟩) hid.symm ⟨[9]⟩ rfl
    rw [show leaf.transformation = (promisedAt ⟨[9]⟩).cid from hid] at hlast
    rw [hlast, Option.bind_some] at happly
    have hsame : applied.resultingDigest = ⟨[4]⟩ := Option.some.inj happly
    rw [hdigest] at hsame
    cases hsame
  | committed | receipt => cases hid
  | other ev hnot =>
    cases ev with
    | leaf leaf => exact hnot leaf rfl
    | _ => cases hid

/-- A promise that the apply keeps. -/
theorem commits_keep_promises_once :
    sigmaState (Project.empty.run (objectFrom 2 fun _ => promising ⟨[3]⟩)
        (committedPromise ⟨[3]⟩)).disk.journal (promisedAt ⟨[3]⟩).cid = some .committed ∧
      PromisesKept (Project.empty.run (objectFrom 2 fun _ => promising ⟨[3]⟩)
        (committedPromise ⟨[3]⟩)).history := by
  have hreached : Project.empty.Reaches (objectFrom 2 fun _ => promising ⟨[3]⟩)
      (fun p a => a.Solo ∧ RecoversUnpromised p a)
      (Project.empty.run (objectFrom 2 fun _ => promising ⟨[3]⟩) (committedPromise ⟨[3]⟩)) := by
    refine Project.reaches_run fun a ha p => ⟨?_, fun s stamp key hcalls => ?_⟩
    · exact (by decide : ∀ a ∈ committedPromise ⟨[3]⟩, a.Solo) a ha
    · have hop := (by decide : ∀ a ∈ committedPromise ⟨[3]⟩,
        a.op?.all fun op => !Op.recovers op) a ha
      rw [Project.calls_op hcalls] at hop
      cases hop
  exact ⟨by decide, commits_keep_promises hreached⟩

end Broken

end Tracefold
