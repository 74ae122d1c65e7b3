import Mathlib.Tactic.Common
import Tracefold.Moves

/-! The primitives of the engine's operations, how they answer and what they leave when they stop:
whatever befalls their writes, and where every write lands. -/

namespace Tracefold

open Library

/-- A world in which every write lands and no process dies. -/
def WritesLand (w : World) : Prop := ∀ history, (w history).fault = .none

namespace Engine

variable {w : World} {s : Sys} {E : Sys → Prop} {α β : Type}

theorem ends_self {Q : Engine → Sys → Prop} (h : Q s.engine s) : Prog.Ends w self s E Q := h

theorem ends_fail {why : Error} {Q : α → Sys → Prop} (h : E s) : Prog.Ends w (fail why) s E Q := h

theorem ends_refuseIf {c : Prop} [Decidable c] {why : Error} {Q : Unit → Sys → Prop}
    (hstop : c → E s) (h : ¬ c → Q () s) : Prog.Ends w (refuseIf c why) s E Q :=
  .ite (fun hc => ends_fail (hstop hc)) fun hc => .pure (h hc)

theorem ends_whenSome {o : Option α} {f : α → M Unit} {Q : Unit → Sys → Prop}
    (hsome : ∀ a, o = some a → Prog.Ends w (f a) s E Q) (hnone : o = none → Q () s) :
    Prog.Ends w (whenSome o f) s E Q := by
  cases o with
  | none => exact hnone rfl
  | some a => exact hsome a rfl

theorem ends_adapter {kind : SubstrateKind} {Q : Unit → Sys → Prop} (hstop : E s)
    (h : (s.engine.config.adapters kind).isSome → Q () s) : Prog.Ends w (adapter kind) s E Q := by
  refine .bind (.get ?_)
  split
  next hsome => exact .pure (h (by rw [hsome]; rfl))
  next => exact .throw hstop

theorem ends_update {f : Engine → Engine} {Q : Unit → Sys → Prop} (h : Q () (s.withEngine f)) :
    Prog.Ends w (update f) s E Q := h

theorem ends_query {f : Env → α} {Q : α → Sys → Prop} (h : Q (f (w s.history)) (s.push .asked)) :
    Prog.Ends w (query f) s E Q :=
  .bind (.ask (.bind (.get (.bind (.modify (.pure h))))))

theorem ends_queryOr {action : String} {f : Env → Except String α} {Q : α → Sys → Prop}
    (hstop : E (s.push .asked)) (h : ∀ a, f (w s.history) = .ok a → Q a (s.push .asked)) :
    Prog.Ends w (queryOr action f) s E Q := by
  refine .bind (ends_query ?_)
  split
  next a ha => exact .pure (h a ha)
  next => exact ends_fail hstop

theorem ends_durable_any {event : Event} {write : Sys → Sys} {why : Error} {Q : Unit → Sys → Prop}
    (hfail : (w s.history).fault = .fail → E (s.push .failed))
    (hcrash : (w s.history).fault = .crash → E (s.push .crashed))
    (h : (w s.history).fault = .none → Q () (write (s.push event))) :
    Prog.Ends w (durable event write why) s E Q := by
  refine .bind (.ask (.bind (.get ?_)))
  split
  next hnone => exact .modify (h hnone)
  next hfault => exact .bind (.modify (ends_fail (hfail hfault)))
  next hfault => exact .bind (.modify (.throw (hcrash hfault)))

theorem ends_appendThen_any {r : Record} {f : Engine → Engine} {Q : Unit → Sys → Prop}
    (hfail : (w s.history).fault = .fail → E (s.push .failed))
    (hcrash : (w s.history).fault = .crash → E (s.push .crashed))
    (h : (w s.history).fault = .none → Q () ((s.append r).withEngine f)) :
    Prog.Ends w (appendThen r f) s E Q :=
  .bind (ends_durable_any hfail hcrash h)

theorem ends_noteThen_any {id : TransformationId} {n : Note} {stamp : Timestamp}
    {f : Engine → Engine} {Q : Unit → Sys → Prop}
    (hfail : (w s.history).fault = .fail → E (s.push .failed))
    (hcrash : (w s.history).fault = .crash → E (s.push .crashed))
    (h : (w s.history).fault = .none → Q () ((s.note id n stamp).withEngine f)) :
    Prog.Ends w (noteThen id n stamp f) s E Q :=
  ends_appendThen_any hfail hcrash h

theorem ends_durable (hw : WritesLand w) {event : Event} {write : Sys → Sys} {why : Error}
    {Q : Unit → Sys → Prop} (h : Q () (write (s.push event))) :
    Prog.Ends w (durable event write why) s E Q := by
  refine .bind (.ask (.bind (.get ?_)))
  rw [hw]
  exact .modify h

theorem ends_appendThen (hw : WritesLand w) {r : Record} {f : Engine → Engine}
    {Q : Unit → Sys → Prop} (h : Q () ((s.append r).withEngine f)) :
    Prog.Ends w (appendThen r f) s E Q := by
  have heq := appendThen_eq r f w s
  rw [hw] at heq
  exact .of_eq heq h

theorem ends_recordThen (hw : WritesLand w) {r : Record} {f : Engine → Engine}
    {Q : Unit → Sys → Prop} (h : Q () ((s.record r).withEngine f)) :
    Prog.Ends w (recordThen r f) s E Q :=
  ends_appendThen hw h

theorem ends_noteThen (hw : WritesLand w) {id : TransformationId} {n : Note} {stamp : Timestamp}
    {f : Engine → Engine} {Q : Unit → Sys → Prop} (h : Q () ((s.note id n stamp).withEngine f)) :
    Prog.Ends w (noteThen id n stamp f) s E Q :=
  ends_recordThen hw h

theorem ends_modifyEntry {id : TransformationId} {f : Entry → Entry} {Q : Unit → Sys → Prop}
    (h : Q () (s.live id f)) : Prog.Ends w (modifyEntry id f) s E Q := h

variable [Canon]

theorem ends_blobPut_still {d : PlannedDelta} {Q : Unit → Sys → Prop}
    (hstop : ∀ s', s'.engine = s.engine → s'.disk.journal = s.disk.journal →
      s'.disk.ledger = s.disk.ledger → E s')
    (h : ∀ s', s'.engine = s.engine → s'.disk.journal = s.disk.journal →
      s'.disk.ledger = s.disk.ledger → Q () s') :
    Prog.Ends w (blobPut d) s E Q := by
  refine .bind (ends_refuseIf (fun _ => hstop s rfl rfl rfl) fun _ => .bind (.get (.ite ?_ ?_)))
  · exact fun _ => .pure (h s rfl rfl rfl)
  · intro _
    exact ends_durable_any (fun _ => hstop _ rfl rfl rfl) (fun _ => hstop _ rfl rfl rfl)
      fun _ => h _ rfl rfl rfl

theorem ends_blobPut (hw : WritesLand w) {d : PlannedDelta} {Q : Unit → Sys → Prop}
    (hsize : Canon.blobBytes d.substrate d.payload ≤ maxBlobBytes)
    (h : ∀ s', s'.engine = s.engine → Q () s') : Prog.Ends w (blobPut d) s E Q := by
  refine .bind (ends_refuseIf (fun hlarge => ?_) fun _ => .bind (.get (.ite (fun _ => ?_) fun _ => ?_)))
  · exact absurd hlarge (Nat.not_lt.mpr hsize)
  · exact .pure (h s rfl)
  · exact ends_durable hw (h _ rfl)

theorem ends_blobGet {cid : Cid} {Q : PlannedDelta → Sys → Prop} (hstop : E s)
    (h : ∀ d, blobOf s.disk cid = some d → Q d s) : Prog.Ends w (blobGet cid) s E Q :=
  .bind (.get (.orThrow (fun _ => hstop) h))

end Engine

end Tracefold
