import Mathlib.Tactic.Common
import Tracefold.Step

/-! The primitives of the engine's operations as moves. -/

namespace Tracefold

open Library Engine

namespace Sys

variable (s : Sys) (event : Event) (f : Engine → Engine) (r : Record)

@[simp] theorem engine_push : (s.push event).engine = s.engine := rfl

@[simp] theorem disk_push : (s.push event).disk = s.disk := rfl

@[simp] theorem history_push : (s.push event).history = s.history ++ [event] := rfl

@[simp] theorem engine_withEngine : (s.withEngine f).engine = f s.engine := rfl

@[simp] theorem disk_withEngine : (s.withEngine f).disk = s.disk := rfl

@[simp] theorem history_withEngine : (s.withEngine f).history = s.history := rfl

@[simp] theorem records_append : (s.append r).engine.records = s.engine.records ++ [r] := rfl

@[simp] theorem table_append : (s.append r).engine.table = s.engine.table := rfl

@[simp] theorem history_append : (s.append r).history = s.history ++ [.journal r] := rfl

@[simp] theorem records_record : (s.record r).engine.records = s.engine.records ++ [r] := rfl

@[simp] theorem table_record : (s.record r).engine.table = s.engine.table := rfl

@[simp] theorem ledger_record : (s.record r).engine.ledger = s.engine.ledger := rfl

@[simp] theorem history_record : (s.record r).history = s.history ++ [.journal r] := rfl

variable (id : TransformationId) (g : Entry → Entry) (k : Disk → Disk) (leaf : LedgerEntry)

@[simp] theorem records_live : (s.live id g).engine.records = s.engine.records := rfl

@[simp] theorem ledger_live : (s.live id g).engine.ledger = s.engine.ledger := rfl

@[simp] theorem history_live : (s.live id g).history = s.history := rfl

@[simp] theorem table_live : (s.live id g).engine.table = s.engine.table.modify id g := rfl

@[simp] theorem engine_put : (s.put event k).engine = s.engine := rfl

@[simp] theorem disk_put : (s.put event k).disk = k s.disk := rfl

@[simp] theorem history_put : (s.put event k).history = s.history ++ [event] := rfl

theorem notes_note (n : Note) (t : Timestamp) :
    (s.note id n t).engine.notes id = s.engine.notes id ++ [n] := by
  simp [Engine.notes]

theorem notes_append (n : Note) (t : Timestamp) :
    (s.append (.about id n t)).engine.notes id = s.engine.notes id ++ [n] := by
  simp [Engine.notes]

@[simp] theorem history_leafed : (s.leafed leaf).history = s.history ++ [.leaf leaf] := rfl

end Sys

namespace Engine

/-- Any transformation. -/
def every (_ : TransformationId) : Prop := True

theorem every_holds (id : TransformationId) : every id := trivial

/-- A record and what the process makes of it are one move. -/
theorem appendThen_eq (r : Record) (f : Engine → Engine) (w : World) (s : Sys) :
    appendThen r f w s = match (w s.history).fault with
      | .none => (.ok (), (s.append r).withEngine f)
      | .fail => (.error (.err .io), s.push .failed)
      | .crash => (.error .crash, s.push .crashed) := by
  simp only [appendThen, journalAppendOnly, durable, bind, Prog.ask, Prog.get]
  cases (w s.history).fault <;> rfl

variable [Canon]

variable {pol : Policy} {ids : TransformationId → Prop} {id : TransformationId} {w : World}
  {s : Sys} {α β : Type}

/-- The program moves only as the engine may, and its answer satisfies `Q`. -/
abbrev Moves (pol : Policy) (ids : TransformationId → Prop) (w : World) (x : M α) (s : Sys)
    (Q : α → Sys → Prop) : Prop :=
  Prog.Traces (Move pol ids) w x s Q

theorem moves_self {Q : Engine → Sys → Prop} (h : Q s.engine s) : Moves pol ids w self s Q :=
  .bind (.get (.pure h))

theorem moves_fail {why : Error} {Q : α → Sys → Prop} : Moves pol ids w (fail why) s Q :=
  .throw

theorem moves_refuseIf {c : Prop} [Decidable c] {why : Error} {Q : Unit → Sys → Prop}
    (h : ¬ c → Q () s) : Moves pol ids w (refuseIf c why) s Q := by
  unfold refuseIf
  split
  next => exact moves_fail
  next hc => exact .pure (h hc)

theorem moves_whenSome {o : Option α} {f : α → M Unit} {Q : Unit → Sys → Prop}
    (hsome : ∀ a, o = some a → Moves pol ids w (f a) s Q) (hnone : o = none → Q () s) :
    Moves pol ids w (whenSome o f) s Q := by
  cases o with
  | none => exact .pure (hnone rfl)
  | some a => exact hsome a rfl

theorem moves_adapter {kind : SubstrateKind} {Q : Unit → Sys → Prop}
    (h : (s.engine.config.adapters kind).isSome → Q () s) :
    Moves pol ids w (adapter kind) s Q := by
  refine .bind (.get ?_)
  split
  next hsome => exact .pure (h (by rw [hsome]; rfl))
  next => exact .throw

theorem moves_update {f : Engine → Engine} {Q : Unit → Sys → Prop} (hid : ids id)
    (hstep : Step pol w id s (s.withEngine f)) (h : Q () (s.withEngine f)) :
    Moves pol ids w (update f) s Q :=
  .modify ⟨id, hid, hstep⟩ h

theorem moves_query {f : Env → α} {Q : α → Sys → Prop} (hid : ids id)
    (h : Q (f (w s.history)) (s.push .asked)) : Moves pol ids w (query f) s Q :=
  .bind (.ask (.bind (.get (.bind (.modify ⟨id, hid, .asked s⟩ (.pure h))))))

theorem moves_queryOr {action : String} {f : Env → Except String α} {Q : α → Sys → Prop}
    (hid : ids id) (h : ∀ a, f (w s.history) = .ok a → Q a (s.push .asked)) :
    Moves pol ids w (queryOr action f) s Q := by
  refine .bind (moves_query hid ?_)
  split
  next a ha => exact .pure (h a ha)
  next => exact moves_fail

theorem moves_durable {event : Event} {write : Sys → Sys} {why : Error} {Q : Unit → Sys → Prop}
    (hid : ids id) (hstep : Step pol w id s (write (s.push event)))
    (h : Q () (write (s.push event))) : Moves pol ids w (durable event write why) s Q := by
  refine .bind (.ask (.bind (.get ?_)))
  split
  next => exact .modify ⟨id, hid, hstep⟩ h
  next => exact .bind (.modify ⟨id, hid, .failed s⟩ moves_fail)
  next => exact .bind (.modify ⟨id, hid, .crashed s⟩ .throw)

theorem moves_appendThen {r : Record} {f : Engine → Engine} {Q : Unit → Sys → Prop} (hid : ids id)
    (hstep : Step pol w id s ((s.append r).withEngine f)) (h : Q () ((s.append r).withEngine f)) :
    Moves pol ids w (appendThen r f) s Q := by
  have heq := appendThen_eq r f w s
  cases hf : (w s.history).fault with
  | none =>
    rw [hf] at heq
    exact .of_eq heq (.single ⟨id, hid, hstep⟩) fun a ha => by cases ha; exact h
  | fail =>
    rw [hf] at heq
    exact .of_eq heq (.single ⟨id, hid, .failed s⟩) fun _ ha => nomatch ha
  | crash =>
    rw [hf] at heq
    exact .of_eq heq (.single ⟨id, hid, .crashed s⟩) fun _ ha => nomatch ha

theorem moves_recordThen {r : Record} {f : Engine → Engine} {Q : Unit → Sys → Prop} (hid : ids id)
    (hstep : Step pol w id s ((s.record r).withEngine f)) (h : Q () ((s.record r).withEngine f)) :
    Moves pol ids w (recordThen r f) s Q :=
  moves_appendThen hid hstep h

theorem moves_noteThen {n : Note} {stamp : Timestamp} {f : Engine → Engine}
    {Q : Unit → Sys → Prop} (hid : ids id)
    (hstep : Step pol w id s ((s.note id n stamp).withEngine f))
    (h : Q () ((s.note id n stamp).withEngine f)) : Moves pol ids w (noteThen id n stamp f) s Q :=
  moves_recordThen hid hstep h

theorem moves_noteOnly {n : Note} {stamp : Timestamp} {Q : Unit → Sys → Prop} (hid : ids id)
    (hstep : Step pol w id s (s.note id n stamp)) (h : Q () (s.note id n stamp)) :
    Moves pol ids w (noteThen id n stamp fun e => e) s Q :=
  moves_noteThen hid hstep h

theorem moves_noteLive {n : Note} {stamp : Timestamp} {f : Entry → Entry} {Q : Unit → Sys → Prop}
    (hid : ids id) (hstep : Step pol w id s ((s.note id n stamp).live id f))
    (h : Q () ((s.note id n stamp).live id f)) :
    Moves pol ids w (noteThen id n stamp (onEntry id f)) s Q :=
  moves_noteThen hid hstep h

theorem moves_modifyEntry {f : Entry → Entry} {Q : Unit → Sys → Prop} (hid : ids id)
    (hstep : Step pol w id s (s.live id f)) (h : Q () (s.live id f)) :
    Moves pol ids w (modifyEntry id f) s Q :=
  moves_update hid hstep h

theorem moves_idle {f : Entry → Entry} {Q : Unit → Sys → Prop} (hid : ids id) (hf : Entry.Idle f)
    (hreceipt : Entry.Receipts s.engine.ledger id f) (h : Q () (s.live id f)) :
    Moves pol ids w (modifyEntry id f) s Q :=
  moves_modifyEntry hid (.idle s f hf hreceipt) h

theorem blobOf_insert {disk : Disk} {d : PlannedDelta}
    (hsize : Canon.blobBytes d.substrate d.payload ≤ maxBlobBytes) :
    blobOf { disk with blobs := disk.blobs.insert d.cid (d.substrate, d.payload) } d.cid =
      some { d with promisedTarget := none } := by
  have hcid : (⟨d.substrate, d.payload, none⟩ : PlannedDelta).cid = d.cid := rfl
  simp [blobOf, Nat.not_lt.mpr hsize, hcid]

theorem blobOf_held {disk : Disk} {d : PlannedDelta}
    (hsize : Canon.blobBytes d.substrate d.payload ≤ maxBlobBytes)
    (hheld : disk.blobs[d.cid]? = some (d.substrate, d.payload)) :
    blobOf disk d.cid = some { d with promisedTarget := none } := by
  have hcid : (⟨d.substrate, d.payload, none⟩ : PlannedDelta).cid = d.cid := rfl
  simp [blobOf, hheld, Nat.not_lt.mpr hsize, hcid]

theorem moves_blobPut {d : PlannedDelta} {Q : Unit → Sys → Prop} (hid : ids id)
    (h : ∀ s', s'.engine = s.engine → s'.disk.journal = s.disk.journal →
      (s'.history = s.history ∨ s'.history = s.history ++ [.blob d.cid]) →
      blobOf s'.disk d.cid = some { d with promisedTarget := none } → Q () s') :
    Moves pol ids w (blobPut d) s Q := by
  refine .bind (moves_refuseIf fun hsize => .bind (.get ?_))
  have hsize' := Nat.not_lt.mp hsize
  split
  next hheld => exact .pure (h s rfl rfl (.inl rfl) (blobOf_held hsize' hheld))
  next =>
    refine moves_durable hid (.blob s d hsize') ?_
    exact h _ rfl rfl (.inr rfl) (blobOf_insert hsize')

theorem moves_blobGet {cid : Cid} {Q : PlannedDelta → Sys → Prop}
    (h : ∀ d, blobOf s.disk cid = some d → Q d s) : Moves pol ids w (blobGet cid) s Q :=
  .bind (.get (.orThrow h))

theorem cid_of_blobOf {disk : Disk} {cid : Cid} {d : PlannedDelta} (h : blobOf disk cid = some d) :
    d.cid = cid ∧ d.promisedTarget = none := by
  unfold blobOf at h
  split at h
  · split at h
    · cases h
    · simp only [Option.ite_none_right_eq_some, Option.some.injEq] at h
      obtain ⟨hcid, rfl⟩ := h
      exact ⟨hcid, rfl⟩
  · cases h

end Engine

end Tracefold
