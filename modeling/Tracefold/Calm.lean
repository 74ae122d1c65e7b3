import Mathlib.Tactic.Common
import Tracefold.Ends
import Tracefold.Runs

/-! The parts of the engine's operations that neither change the world nor rule on a row. -/

namespace Tracefold

open Library Engine
open Std (ExtTreeMap)

/-- An event that changes nothing outside. -/
def Event.spares : Event → Bool
  | .apply _ _ _ => false
  | _ => true

/-- What a process keeps while it neither rules on a row nor drops one. -/
structure Engine.Unruled (e e' : Engine) : Prop where
  table : ∀ id, id ∈ e.table → id ∈ e'.table
  config : e'.config = e.config
  verdicts : e'.verdicts = e.verdicts
  ruled : ruledOf e'.records = ruledOf e.records

namespace Engine.Unruled

variable {e e' e'' : Engine}

theorem refl (e : Engine) : e.Unruled e := ⟨fun _ h => h, rfl, rfl, rfl⟩

theorem trans (h : e.Unruled e') (h' : e'.Unruled e'') : e.Unruled e'' :=
  ⟨fun id hid => h'.table id (h.table id hid), h'.config.trans h.config,
    h'.verdicts.trans h.verdicts, h'.ruled.trans h.ruled⟩

theorem after (h : e'.Unruled e'') (ht : e'.table = e.table) (hc : e'.config = e.config)
    (hv : e'.verdicts = e.verdicts) (hr : e'.records = e.records) : e.Unruled e'' :=
  .trans ⟨fun _ hid => ht ▸ hid, hc, hv, congrArg ruledOf hr⟩ h

theorem onEntry (e : Engine) (id : TransformationId) (f : Entry → Entry) :
    e.Unruled (onEntry id f e) :=
  ⟨fun _ hother => ExtTreeMap.mem_modify.mpr hother, rfl, rfl, rfl⟩

theorem noted (e : Engine) (id : TransformationId) {n : Note} (stamp : Timestamp)
    (hn : n.tallied = none) : e.Unruled { e with records := e.records ++ [.about id n stamp] } := by
  refine ⟨fun _ h => h, rfl, rfl, ?_⟩
  have hnone : ruledOf [.about id n stamp] = [] := by
    simp only [ruledOf, List.filterMap_cons, hn, List.filterMap_nil]
  rw [ruledOf_append, hnone, List.append_nil]

end Engine.Unruled

/-- Nothing is applied, no row is ruled on and none is dropped. -/
structure Calm (s s' : Sys) : Prop where
  history : ∃ more, s'.history = s.history ++ more ∧ ∀ ev ∈ more, ev.spares = true
  engine : s.engine.Unruled s'.engine

namespace Calm

variable {s s' s'' : Sys}

theorem refl (s : Sys) : Calm s s :=
  ⟨⟨[], (List.append_nil _).symm, fun _ hev => nomatch hev⟩, .refl _⟩

theorem trans (h : Calm s s') (h' : Calm s' s'') : Calm s s'' := by
  obtain ⟨more, hmore, hspares⟩ := h.history
  obtain ⟨more', hmore', hspares'⟩ := h'.history
  refine ⟨⟨more ++ more', ?_, fun ev hev => ?_⟩, h.engine.trans h'.engine⟩
  · rw [hmore', hmore, List.append_assoc]
  · rcases List.mem_append.mp hev with hev | hev
    · exact hspares ev hev
    · exact hspares' ev hev

theorem push {ev : Event} (h : ev.spares = true) : Calm s (s.push ev) :=
  ⟨⟨[ev], rfl, fun _ hev => List.mem_singleton.mp hev ▸ h⟩, .refl _⟩

theorem still (hh : s'.history = s.history) (he : s.engine.Unruled s'.engine) : Calm s s' :=
  ⟨⟨[], hh.trans (List.append_nil _).symm, fun _ hev => nomatch hev⟩, he⟩

theorem table (h : Calm s s') {id : TransformationId} (hid : id ∈ s.engine.table) :
    id ∈ s'.engine.table := h.engine.table id hid

theorem noted (s : Sys) (id : TransformationId) {n : Note} (stamp : Timestamp)
    (hn : n.tallied = none) : Calm s (s.append (.about id n stamp)) :=
  ⟨⟨_, rfl, fun _ hev => List.mem_singleton.mp hev ▸ rfl⟩, .noted s.engine id stamp hn⟩

end Calm

namespace Engine

variable {α β : Type}

theorem calm_bind {x : M α} {f : α → M β} (hx : Prog.Keeps Calm x)
    (hf : ∀ a, Prog.Keeps Calm (f a)) : Prog.Keeps Calm (x >>= f) :=
  .bind Calm.trans hx hf

theorem calm_pure (a : α) : Prog.Keeps Calm (pure a : M α) := .still Calm.refl fun _ _ => rfl

theorem calm_get : Prog.Keeps Calm (Prog.get : M Sys) := .still Calm.refl fun _ _ => rfl

theorem calm_ask : Prog.Keeps Calm (Prog.ask : M World) := .still Calm.refl fun _ _ => rfl

theorem calm_throw (stop : Stop) : Prog.Keeps Calm (Prog.throw stop : M α) :=
  .still Calm.refl fun _ _ => rfl

theorem calm_self : Prog.Keeps Calm self := .still Calm.refl fun _ _ => rfl

theorem calm_fail (why : Error) : Prog.Keeps Calm (fail why : M α) :=
  .still Calm.refl fun _ _ => rfl

theorem calm_orThrow (o : Option α) (stop : Stop) : Prog.Keeps Calm (Prog.orThrow o stop : M α) := by
  cases o with
  | none => exact calm_throw stop
  | some a => exact calm_pure a

theorem calm_ite {c : Prop} [Decidable c] {x y : M α} (hx : Prog.Keeps Calm x)
    (hy : Prog.Keeps Calm y) : Prog.Keeps Calm (if c then x else y) := by
  split
  next => exact hx
  next => exact hy

theorem calm_refuseIf (c : Prop) [Decidable c] (why : Error) : Prog.Keeps Calm (refuseIf c why) :=
  calm_ite (calm_fail why) (calm_pure ())

theorem calm_query (f : Env → α) : Prog.Keeps Calm (query f) :=
  calm_bind calm_ask fun _ => calm_bind calm_get fun _ =>
    calm_bind (.modify fun _ => .push rfl) fun _ => calm_pure _

theorem calm_queryOr (action : String) (f : Env → Except String α) :
    Prog.Keeps Calm (queryOr action f) := by
  refine calm_bind (calm_query f) fun answer => ?_
  cases answer with
  | ok a => exact calm_pure a
  | error => exact calm_fail _

theorem calm_adapter (kind : SubstrateKind) : Prog.Keeps Calm (adapter kind) := by
  refine calm_bind calm_get fun s => ?_
  split
  next => exact calm_pure ()
  next => exact calm_throw _

theorem calm_update {f : Engine → Engine} (h : ∀ e : Engine, e.Unruled (f e)) :
    Prog.Keeps Calm (update f) := .modify fun s => .still rfl (h s.engine)

theorem calm_durable {event : Event} {write : Sys → Sys} {why : Error}
    (hevent : event.spares = true) (hwrite : ∀ s, Calm s (write s)) :
    Prog.Keeps Calm (durable event write why) := by
  refine calm_bind calm_ask fun w => calm_bind calm_get fun s => ?_
  split
  next => exact .modify fun s => (Calm.push hevent).trans (hwrite (s.push event))
  next => exact calm_bind (.modify fun _ => .push rfl) fun _ => calm_fail _
  next => exact calm_bind (.modify fun _ => .push rfl) fun _ => calm_throw _

theorem calm_noted {id : TransformationId} {n : Note} {stamp : Timestamp} {f : Engine → Engine}
    (hn : n.tallied = none) (h : ∀ e : Engine, e.Unruled (f e)) :
    Prog.Keeps Calm (appendThen (.about id n stamp) f) := by
  refine calm_bind (calm_bind calm_ask fun w => calm_bind calm_get fun s => ?_) fun _ => calm_update h
  split
  next => exact .modify fun s => .noted s id stamp hn
  next => exact calm_bind (.modify fun _ => .push rfl) fun _ => calm_fail _
  next => exact calm_bind (.modify fun _ => .push rfl) fun _ => calm_throw _

theorem calm_noteThen {id : TransformationId} {n : Note} {stamp : Timestamp} {f : Engine → Engine}
    (hn : n.tallied = none) (h : ∀ e : Engine, e.Unruled (f e)) :
    Prog.Keeps Calm (noteThen id n stamp f) :=
  calm_noted hn fun e => (h { e with shadow := e.shadow.fold (.about id n stamp) }).after
    rfl rfl rfl rfl

theorem calm_modifyEntry (id : TransformationId) (f : Entry → Entry) :
    Prog.Keeps Calm (modifyEntry id f) := calm_update fun e => .onEntry e id f

theorem calm_abort (id : TransformationId) (reason : AbortReason) (rollback : Option Rollback)
    (stamp : Timestamp) : Prog.Keeps Calm (abort id reason rollback stamp) :=
  calm_bind (calm_noteThen rfl fun e => .onEntry e _ _) fun _ => calm_pure _

variable [Canon]

theorem calm_blobPut (d : PlannedDelta) : Prog.Keeps Calm (blobPut d) :=
  calm_bind (calm_refuseIf _ _) fun _ => calm_bind calm_get fun _ =>
    calm_ite (calm_pure ()) (calm_durable rfl fun _ => .still rfl ⟨fun _ h => h, rfl, rfl, rfl⟩)

theorem calm_observationPut (bytes : Bytes) : Prog.Keeps Calm (observationPut bytes) :=
  calm_bind calm_get fun _ =>
    calm_ite (calm_pure ()) (calm_durable rfl fun _ => .still rfl ⟨fun _ h => h, rfl, rfl, rfl⟩)

theorem calm_ledgerAppend (id : TransformationId) (digest : Cid) (stamp : Timestamp) :
    Prog.Keeps Calm (ledgerAppend id digest stamp) := by
  refine calm_bind calm_self fun e => ?_
  split
  next => exact calm_ite (calm_pure _) (calm_fail _)
  next =>
    exact calm_bind (calm_durable rfl fun _ => .still rfl ⟨fun _ h => h, rfl, rfl, rfl⟩) fun _ => calm_pure _

omit [Canon] in
theorem calm_fileReceipt (id : TransformationId) (receipt : Receipt) :
    Prog.Keeps Calm (fileReceipt id receipt) := by
  refine calm_bind calm_self fun e => ?_
  split
  next => exact calm_pure ()
  next => exact calm_durable rfl fun _ => .still rfl ⟨fun _ h => h, rfl, rfl, rfl⟩

theorem calm_recordHead (key : KeyId) : Prog.Keeps Calm (recordHead key) := by
  have hwrite : ∀ e treeSize root, Prog.Keeps Calm (recordHead.writeHead key e treeSize root) :=
    fun e treeSize root => calm_bind (calm_orThrow _ _) fun _ =>
      calm_durable rfl fun _ => .still rfl ⟨fun _ h => h, rfl, rfl, rfl⟩
  refine calm_bind calm_self fun e => calm_ite (calm_pure ()) (calm_ite (calm_pure ())
    (calm_ite (calm_pure ()) ?_))
  split
  next => exact calm_ite (calm_pure ()) (calm_ite (calm_ite (calm_pure ()) (calm_fail _)) (hwrite _ _ _))
  next => exact hwrite _ _ _

omit [Canon] in
theorem calm_entryOf (id : TransformationId) : Prog.Keeps Calm (entryOf id) :=
  calm_bind calm_self fun _ => calm_orThrow _ _

omit [Canon] in
theorem calm_expireIfDue (id : TransformationId) (now : Timestamp) :
    Prog.Keeps Calm (expireIfDue id now) := by
  refine calm_bind calm_self fun e => ?_
  split
  next => exact calm_pure _
  next => exact calm_ite (calm_pure _) (calm_bind (calm_abort _ _ _ _) fun _ => calm_pure _)

omit [Canon] in
theorem calm_unblock (id : TransformationId) (blockedBy : Option TransformationId) :
    Prog.Keeps Calm (unblock id blockedBy) := by
  cases blockedBy with
  | none => exact calm_pure ()
  | some blocker =>
    exact calm_bind calm_self fun _ => calm_bind (calm_refuseIf _ _) fun _ => calm_modifyEntry _ _

omit [Canon] in
theorem calm_firstConflict (kind : SubstrateKind) (delta : PlannedDelta) (mode : EnforcementMode)
    (others : List (TransformationId × Entry)) :
    Prog.Keeps Calm (firstConflict kind delta mode others) := by
  induction others with
  | nil => exact calm_pure _
  | cons other rest ih =>
    refine calm_ite (calm_bind (calm_queryOr _ _) fun answer => ?_) ih
    cases answer with
    | conflicts => exact calm_pure _
    | commutes => exact ih

omit [Canon] in
theorem calm_conflictingPredecessor (id : TransformationId) (mode : EnforcementMode) :
    Prog.Keeps Calm (conflictingPredecessor id mode) := by
  refine calm_bind calm_self fun e => ?_
  split
  next => exact calm_pure _
  next => exact calm_bind (calm_adapter _) fun _ => calm_firstConflict _ _ _ _

omit [Canon] in
theorem calm_startCommitting (id : TransformationId) (entry : Entry) (stamp : Timestamp) :
    Prog.Keeps Calm (startCommitting id entry stamp) :=
  calm_bind (calm_noted rfl fun e => .onEntry e _ _) fun _ => calm_bind calm_self fun _ =>
    calm_noted rfl fun e => .onEntry e _ _

omit [Canon] in
theorem calm_casGuard (id : TransformationId) (entry : Entry) (stamp : Timestamp) :
    Prog.Keeps Calm (casGuard id entry stamp) := by
  refine calm_bind (calm_bind (calm_queryOr _ _) fun _ => calm_queryOr _ _) fun fp1 => ?_
  split
  next => exact calm_pure _
  next => exact calm_bind (calm_abort _ _ _ _) fun _ => calm_pure _
  next => exact calm_bind (calm_abort _ _ _ _) fun _ => calm_pure _

omit [Canon] in
theorem calm_insertEscrow (id : TransformationId) (row : EscrowRow) :
    Prog.Keeps Calm (insertEscrow id row) := calm_update fun _ => ⟨fun _ h => h, rfl, rfl, rfl⟩

omit [Canon] in
theorem calm_needs (entry : Entry) (inverse : PlannedDelta) :
    Prog.Keeps Calm (escrowInverse.needs entry inverse) :=
  calm_bind calm_self fun _ => calm_ite (calm_queryOr _ _) (calm_pure _)

theorem calm_requireBody (escrowed : Option Escrowed) : Prog.Keeps Calm (requireBody escrowed) := by
  cases escrowed with
  | none => exact calm_pure ()
  | some held => exact calm_bind calm_get fun _ => calm_refuseIf _ _

theorem calm_recordObservation (id : TransformationId) (bytes : Bytes) (stamp : Timestamp) :
    Prog.Keeps Calm (recordObservation id bytes stamp) :=
  calm_bind (calm_noteThen rfl fun e => .refl e) fun _ =>
    calm_bind (calm_observationPut bytes) fun _ => calm_modifyEntry _ _

omit [Canon] in
theorem calm_completedInverse (partialInverse : Option PlannedDelta) (observation : Option Bytes) :
    Prog.Keeps Calm (completedInverse partialInverse observation) := by
  unfold completedInverse
  split
  next =>
    refine calm_bind calm_self fun _ => calm_ite (calm_bind (calm_query _) fun answer => ?_)
      (calm_pure _)
    cases answer with
    | ok full => exact calm_pure _
    | error => exact calm_pure _
  next => exact calm_pure _

theorem calm_settlePendingEscrow (id : TransformationId) (partialInverse : Option PlannedDelta)
    (observation : Option Bytes) (stamp : Timestamp) :
    Prog.Keeps Calm (settlePendingEscrow id partialInverse observation stamp) := by
  refine calm_bind (calm_completedInverse _ _) fun full => ?_
  cases full with
  | some full =>
    exact calm_bind (calm_noteThen rfl fun e => .refl e) fun _ => calm_bind (calm_blobPut _) fun _ =>
      calm_bind (calm_insertEscrow _ _) fun _ => calm_bind (calm_modifyEntry _ _) fun _ =>
        calm_pure _
  | none =>
    exact calm_bind (calm_noteThen rfl fun e => .refl e) fun _ =>
      calm_bind (calm_insertEscrow _ _) fun _ => calm_bind (calm_modifyEntry _ _) fun _ =>
        calm_pure _

theorem calm_finalInverse (id : TransformationId) (escrowed : Option Escrowed)
    (applied : AppliedDelta) (stamp : Timestamp) :
    Prog.Keeps Calm (finalInverse id escrowed applied stamp) := by
  unfold finalInverse
  split
  next => exact calm_pure _
  next => exact calm_pure _
  next =>
    split
    next => exact calm_settlePendingEscrow _ _ _ _
    next =>
      exact calm_ite (calm_bind (calm_recordObservation _ _ _) fun _ =>
        calm_settlePendingEscrow _ _ _ _) (calm_settlePendingEscrow _ _ _ _)

theorem calm_supersedeAfterCommit (id : TransformationId) (stamp : Timestamp) :
    Prog.Keeps Calm (supersedeAfterCommit id stamp) := by
  refine calm_bind calm_self fun e => ?_
  split
  next => exact calm_pure _
  next => exact calm_bind (calm_noteThen rfl fun _ =>
      (Unruled.onEntry _ _ _).after rfl rfl rfl rfl) fun _ => calm_pure _

theorem calm_closeCommit (id : TransformationId) (facts : CommitFacts) (stamp : Timestamp)
    (key : KeyId) : Prog.Keeps Calm (closeCommit id facts stamp key) := by
  refine calm_bind (calm_ledgerAppend _ _ _) fun leaf => calm_bind calm_self fun _ =>
    calm_bind (calm_orThrow _ _) fun proof => calm_bind ?_ fun receipt =>
      calm_bind (calm_fileReceipt _ _) fun _ => calm_bind (calm_noteThen rfl fun _ => ⟨fun _ h => h, rfl, rfl, rfl⟩) fun _ =>
        calm_bind (calm_recordHead _) fun _ => calm_bind (calm_modifyEntry _ _) fun _ =>
          calm_bind (calm_supersedeAfterCommit _ _) fun _ => calm_pure _
  unfold issueOr
  split
  next => exact calm_pure _
  next => exact calm_fail _

omit [Canon] in
theorem calm_notAttempted (id : TransformationId) (why : NotAttemptedBecause) :
    Prog.Keeps Calm (notAttempted id why) :=
  calm_bind (calm_update fun _ => ⟨fun _ h => h, rfl, rfl, rfl⟩) fun _ => calm_pure _

theorem calm_settleApplied (id : TransformationId) (entry : Entry) (canonicalCid : Cid)
    (verdict : Option VerdictSummary) (outcome : InvertOutcome) (escrowed : Option Escrowed)
    (applied : AppliedDelta) (stamp : Timestamp) (key : KeyId) :
    Prog.Keeps Calm
      (settleApplied id entry canonicalCid verdict outcome escrowed applied stamp key) :=
  calm_bind (calm_finalInverse _ _ _ _) fun _ => calm_bind (calm_entryOf _) fun _ =>
    calm_ite (calm_bind (calm_notAttempted _ _) fun _ => calm_abort _ _ _ _)
      (calm_bind calm_self fun _ => calm_closeCommit _ _ _ _)

end Engine

end Tracefold
