import Mathlib.Tactic.Common
import Tracefold.Files
import Tracefold.Ideal

/-! The heads a project signs: when each one is over a longer tree than the one before it. -/

namespace Tracefold

open Library Engine Relation

/-- The heads a history wrote, in order. -/
def headsOf (history : List Event) : List HeadFloor :=
  history.filterMap fun
    | .head floor => some floor
    | _ => none

theorem headsOf_append (h h' : List Event) : headsOf (h ++ h') = headsOf h ++ headsOf h' :=
  List.filterMap_append

theorem headsOf_other {history : List Event} {ev : Event} (h : headsOf [ev] = []) :
    headsOf (history ++ [ev]) = headsOf history := by
  rw [headsOf_append, h, List.append_nil]

/-- No size is signed with two roots, and every head is over a longer tree than those before. -/
structure NeverEquivocates (heads : List HeadFloor) : Prop where
  root : ∀ a ∈ heads, ∀ b ∈ heads, a.treeSize = b.treeSize → a.rootHash = b.rootHash
  grows : heads.Pairwise fun a b => a.treeSize < b.treeSize

theorem NeverEquivocates.of_grows {heads : List HeadFloor}
    (h : heads.Pairwise fun a b => a.treeSize < b.treeSize) : NeverEquivocates heads := by
  refine ⟨fun a ha b hb hsize => ?_, h⟩
  have hnodup : (heads.map (·.treeSize)).Nodup :=
    List.pairwise_map.mpr (h.imp fun hlt => Nat.ne_of_lt hlt)
  rw [List.inj_on_of_nodup_map hnodup ha hb hsize]

/-- The number of leaves the head file is over. -/
def Disk.headSize (disk : Disk) : ℕ := (disk.head.map (·.floor.treeSize)).getD 0

theorem Disk.headSize_congr {disk disk' : Disk} (h : disk'.head = disk.head) :
    disk'.headSize = disk.headSize := by
  rw [Disk.headSize, Disk.headSize, h]

/-- The head file is the last head written, and the heads before it grew. -/
structure Headed (history : List Event) (disk : Disk) : Prop where
  grows : (headsOf history).Pairwise fun a b => a.treeSize < b.treeSize
  last : disk.head.map (·.floor) = (headsOf history).getLast?

theorem Headed.le_headSize {history : List Event} {disk : Disk} (h : Headed history disk)
    {floor : HeadFloor} (hfloor : floor ∈ headsOf history) : floor.treeSize ≤ disk.headSize := by
  rcases List.eq_nil_or_concat (headsOf history) with hnil | ⟨before, last, hlast⟩
  · rw [hnil] at hfloor
    cases hfloor
  rw [List.concat_eq_append] at hlast
  have hsize : disk.headSize = last.treeSize := by
    have hhead := h.last
    rw [hlast, List.getLast?_append, List.getLast?_singleton, Option.some_or] at hhead
    obtain ⟨head, hsome, rfl⟩ := Option.map_eq_some_iff.mp hhead
    rw [Disk.headSize, hsome]
    rfl
  have hgrows := h.grows
  rw [hlast] at hfloor hgrows
  rw [hsize]
  rcases List.mem_append.mp hfloor with hbefore | hat
  · exact ((List.pairwise_append.mp hgrows).2.2 floor hbefore last List.mem_cons_self).le
  · rw [List.mem_singleton.mp hat]

theorem Headed.empty : Headed [] .empty := ⟨.nil, rfl⟩

theorem Headed.record {history : List Event} {disk : Disk} (h : Headed history disk)
    {floor : HeadFloor} {key : KeyId} (hgrew : disk.headSize < floor.treeSize) :
    Headed (history ++ [.head floor]) { disk with head := some ⟨floor, key⟩ } := by
  have hheads : headsOf (history ++ [.head floor]) = headsOf history ++ [floor] :=
    headsOf_append ..
  refine ⟨?_, ?_⟩
  · rw [hheads]
    refine List.pairwise_append.mpr ⟨h.grows, List.pairwise_singleton .., fun a ha b hb => ?_⟩
    rw [List.mem_singleton.mp hb]
    exact (h.le_headSize ha).trans_lt hgrew
  · rw [hheads, List.getLast?_append]
    rfl

section Kept

variable [Canon]

variable {pol : Policy} {w : World} {id : TransformationId} {s s' : Sys}

/-- What a move does to the heads of a project and to what a process knows of them. -/
inductive HeadMove (pol : Policy) (id : TransformationId) (s s' : Sys) : Prop where
  | quiet (hh : headsOf s'.history = headsOf s.history) (hd : s'.disk.head = s.disk.head)
      (hf : s'.engine.headFloor = s.engine.headFloor) (hl : s'.engine.ledger = s.engine.ledger)
  | leaf (leaf : LedgerEntry) (hh : headsOf s'.history = headsOf s.history)
      (hd : s'.disk.head = s.disk.head) (hf : s'.engine.headFloor = s.engine.headFloor)
      (hl : s'.engine.ledger = s.engine.ledger ++ [leaf])
  | head (floor : HeadFloor) (key : KeyId) (hsize : floor.treeSize = s.engine.ledger.length)
      (hkeeps : s.engine.config.keepsHead = true)
      (hgrew : ∀ old, s.engine.headFloor = some old → old.treeSize < floor.treeSize)
      (hleaf : (leafOf s.engine.ledger id).isSome) (hpol : pol.heads id)
      (hh : s'.history = s.history ++ [.head floor])
      (hd : s'.disk = { s.disk with head := some ⟨floor, key⟩ })
      (hf : s'.engine.headFloor = some floor)

theorem Step.headMove (h : Step pol w id s s') : HeadMove pol id s s' := by
  cases h with
  | headed floor key hfloor hkeeps hgrew hleaf hpol =>
    exact .head floor key hfloor.1 hkeeps hgrew hleaf hpol rfl rfl rfl
  | leafed | leafedAgain => exact .leaf _ (headsOf_other rfl) rfl rfl rfl
  | seated | rehydrated | idle | restored | counted | explained | resumed | indexed | escrowHeld
  | observationNamed | closed => exact .quiet rfl rfl rfl rfl
  | _ => exact .quiet (headsOf_other rfl) rfl rfl rfl

theorem Step.config (h : Step pol w id s s') : s'.engine.config = s.engine.config := by
  cases h <;> rfl

/-- A head that a process would sign over its ledger is a new one: the process knows the last
head, or its ledger is longer than that, or will be once the row it closes has its leaf. -/
inductive Ahead (s : Sys) (ids : TransformationId → Prop) : Prop where
  | keepsNone (h : s.engine.config.keepsHead = false)
  | current (h : s.engine.headFloor = s.disk.head.map (·.floor))
  | longer (h : s.disk.headSize < s.engine.ledger.length)
  | leafless (h : ∀ id, ids id →
      s.disk.headSize ≤ s.engine.ledger.length ∧ leafOf s.engine.ledger id = none)

/-- The state of an operation that keeps the heads of its project growing. -/
structure Signing (ids : TransformationId → Prop) (s : Sys) : Prop where
  headed : Headed s.history s.disk
  ahead : Ahead s ids

theorem Signing.step (h : Signing pol.heads s) (hstep : Step pol w id s s') :
    Signing pol.heads s' := by
  obtain ⟨hheaded, hahead⟩ := h
  have hconfig := hstep.config
  cases hstep.headMove with
  | quiet hh hd hf hl =>
    refine ⟨⟨by rw [hh]; exact hheaded.grows, by rw [hd, hh]; exact hheaded.last⟩, ?_⟩
    have hsize := Disk.headSize_congr hd
    cases hahead with
    | keepsNone hnone => exact .keepsNone (by rw [hconfig]; exact hnone)
    | current hcurrent => exact .current (by rw [hf, hd]; exact hcurrent)
    | longer hlonger => exact .longer (by rw [hsize, hl]; exact hlonger)
    | leafless hleafless => exact .leafless (by rw [hsize, hl]; exact hleafless)
  | leaf leaf hh hd hf hl =>
    refine ⟨⟨by rw [hh]; exact hheaded.grows, by rw [hd, hh]; exact hheaded.last⟩, ?_⟩
    have hsize := Disk.headSize_congr hd
    have hlength : s'.engine.ledger.length = s.engine.ledger.length + 1 := by
      rw [hl, List.length_append]
      rfl
    cases hahead with
    | keepsNone hnone => exact .keepsNone (by rw [hconfig]; exact hnone)
    | current hcurrent => exact .current (by rw [hf, hd]; exact hcurrent)
    | longer hlonger => exact .longer (by omega)
    | leafless hleafless =>
      by_cases hle : s.disk.headSize ≤ s.engine.ledger.length
      · exact .longer (by omega)
      · exact .leafless fun other hother => absurd (hleafless other hother).1 hle
  | head floor key hsize hkeeps hgrew hleaf hpol hh hd hf =>
    have hgrown : s.disk.headSize < floor.treeSize := by
      cases hahead with
      | keepsNone hnone =>
        rw [hnone] at hkeeps
        cases hkeeps
      | current hcurrent =>
        cases hhead : s.disk.head with
        | none =>
          rw [Disk.headSize, hhead, hsize]
          obtain ⟨leaf, hsome⟩ := Option.isSome_iff_exists.mp hleaf
          exact List.length_pos_of_mem (List.mem_of_find?_eq_some hsome)
        | some head =>
          rw [hhead] at hcurrent
          rw [Disk.headSize, hhead]
          exact hgrew head.floor hcurrent
      | longer hlonger =>
        rw [hsize]
        exact hlonger
      | leafless hleafless =>
        rw [(hleafless id hpol).2] at hleaf
        cases hleaf
    refine ⟨?_, .current ?_⟩
    · rw [hh, hd]
      exact hheaded.record hgrown
    · rw [hf, hd]
      rfl

theorem Signing.moves (h : Signing pol.heads s) (hmoves : ReflTransGen (Move pol every w) s s') :
    Signing pol.heads s' := by
  induction hmoves with
  | refl => exact h
  | tail _ hmove ih =>
    obtain ⟨id, _, hstep⟩ := hmove
    exact ih.step hstep

/-- An operation that signs a head signs a new one. -/
def SignsAhead (s : Sys) (op : Op) : Prop := Ahead s (op.heads s.engine)

/-- Every operation from a state it may sign in keeps the heads of its project growing. -/
theorem Headed.exec {op : Op} (h : Headed s.history s.disk) (hahead : SignsAhead s op) :
    Headed (op.exec.final w s).history (op.exec.final w s).disk := by
  let pol : Policy := { Policy.any with heads := op.heads s.engine }
  have hallows : pol.Allows w s op := by
    cases op with
    | plan => exact fun _ _ _ _ _ => trivial
    | undo => exact fun _ _ _ _ _ _ => trivial
    | commit => exact fun _ _ _ _ _ _ => trivial
    | recover => exact fun _ _ _ _ _ => trivial
    | canonicalize => exact fun _ _ _ _ => trivial
    | _ => trivial
  have hstart : Signing pol.heads s := ⟨h, hahead⟩
  exact (hstart.moves (moves_exec hallows fun _ hid => hid).steps).headed

/-- The projects a run comes to whose actions are all as `ok` asks, while the journal and the
ledger may change between two actions in whatever way: a failed append whose bytes landed, a torn
tail cut off, a copy put back. -/
inductive Project.Weathers (w : World) (ok : Project → Action → Prop) : Project → Prop where
  | empty : Weathers w ok .empty
  | step {p : Project} {a : Action} (h : Weathers w ok p) (ha : ok p a) : Weathers w ok (p.step w a)
  | disturbed {p : Project} (h : Weathers w ok p) (journal : List Record)
      (ledger : List LedgerEntry) :
      Weathers w ok { p with disk := { p.disk with journal := journal, ledger := ledger } }

theorem Project.Reaches.weathers {ok : Project → Action → Prop} {p : Project}
    (h : Project.empty.Reaches w ok p) : Project.Weathers w ok p := by
  induction h with
  | refl => exact .empty
  | step _ ha ih => exact .step ih ha

/-- Every operation of a run signs, if it signs, a head over a longer tree than the last. -/
def SignsAheadAt (p : Project) (a : Action) : Prop :=
  ∀ s op, p.calls a = some (s, op) → SignsAhead s op

theorem Headed.action {p : Project} {a : Action} (h : Headed p.history p.disk)
    (ha : SignsAheadAt p a) : Headed (p.step w a).history (p.step w a).disk := by
  have hexec : ∀ pid op e, SignsAhead ⟨p.history, p.disk, e⟩ op →
      Headed (p.exec w pid op e).history (p.exec w pid op e).disk := by
    intro pid op e hop
    obtain ⟨hhistory, hdisk, _⟩ := Project.exec_cases w p pid op e
    rw [hhistory, hdisk]
    exact Headed.exec (s := ⟨p.history, p.disk, e⟩) h hop
  cases a with
  | start pid config => exact h
  | call pid op =>
    cases hproc : p.process pid with
    | none =>
      have hsame : p.step w (.call pid op) = p := by simp only [Project.step, hproc]
      rw [hsame]
      exact h
    | some e =>
      have hstep : p.step w (.call pid op) = p.exec w pid op e := by
        simp only [Project.step, hproc]
      rw [hstep]
      exact hexec pid op e (ha _ op (by simp only [Project.calls, hproc]; rfl))
  | locked pid op =>
    cases hproc : p.process pid with
    | none =>
      have hsame : p.step w (.locked pid op) = p := by simp only [Project.step, hproc]
      rw [hsame]
      exact h
    | some e =>
      have hstep : p.step w (.locked pid op) = p.exec w pid op (e.catchUp p.disk) := by
        simp only [Project.step, hproc]
      rw [hstep]
      exact hexec pid op _ (ha _ op (by simp only [Project.calls, hproc]; rfl))

/-- In every run of any number of processes, whatever fails, crashes, is started again or befalls
the journal and the ledger, as long as no operation signs from a floor that another process has
left behind over a tree that did not grow. -/
theorem heads_never_equivocate {p : Project} (h : Project.Weathers w SignsAheadAt p) :
    NeverEquivocates (headsOf p.history) := by
  have hheaded : Headed p.history p.disk := by
    induction h with
    | empty => exact Headed.empty
    | step _ ha ih => exact ih.action ha
    | disturbed _ journal ledger ih => exact ⟨ih.grows, ih.last⟩
  exact .of_grows hheaded.grows

end Kept

section Stale

open Tracefold.Ideal

/-- A process set up to sign heads. -/
def signing : Config := { Ideal.config with keepsHead := true }

/-- An intent over the first version of the object, from its submission to its commit, in one
process under the lock. -/
def preparedBy (pid : ℕ) : List Action :=
  [.locked pid (.submit intent 0 0), .locked pid (.plan intent 0),
    .locked pid (.verify (idAt 1) 1 "k" none), .locked pid (.canonicalize (idAt 1) 1 none)]

def committedBy (pid : ℕ) : List Action :=
  preparedBy pid ++ [.locked pid (.commit (idAt 1) 2 "k")]

/-- The next change, in a process that starts behind the first commit. -/
def preparedNext : List Action :=
  [.start 1 signing, .locked 1 (.submit (intentFor 5) 0 3), .locked 1 (.plan (intentFor 5) 3),
    .locked 1 (.verify (idFor 5 1) 4 "k" none), .locked 1 (.canonicalize (idFor 5 1) 4 none)]

def committedNext : List Action := preparedNext ++ [.locked 1 (.commit (idFor 5 1) 5 "k")]

theorem signsAheadAt_of_signless {p : Project} {a : Action}
    (h : ∀ op, a.op? = some op → ∀ e id, ¬ op.heads e id) : SignsAheadAt p a :=
  fun s op hcalls => .leafless fun id hid => absurd hid (h op (Project.calls_op hcalls) s.engine id)

theorem signsAheadAt_of_current {p : Project} {a : Action}
    (h : (p.calls a).all (fun called =>
      called.1.engine.headFloor = called.1.disk.head.map (·.floor)) = true) : SignsAheadAt p a := by
  intro s op hcalls
  rw [hcalls] at h
  exact .current (of_decide_eq_true h)

theorem heads_never_equivocate_twice :
    let heads := headsOf (Project.empty.run (fun _ => envAt 1)
      (.start 0 signing :: committedBy 0 ++ committedNext)).history
    heads.map (·.treeSize) = [1, 2] ∧ NeverEquivocates heads := by
  have hfirst : ∀ a ∈ .start 0 signing :: preparedBy 0, ∀ p, SignsAheadAt p a := by
    refine fun a ha p => signsAheadAt_of_signless fun op hop e id hid => ?_
    simp only [preparedBy, List.mem_cons, List.not_mem_nil, or_false] at ha
    rcases ha with rfl | rfl | rfl | rfl | rfl <;> cases hop <;> cases hid
  have hnext : ∀ a ∈ preparedNext, ∀ p, SignsAheadAt p a := by
    refine fun a ha p => signsAheadAt_of_signless fun op hop e id hid => ?_
    simp only [preparedNext, List.mem_cons, List.not_mem_nil, or_false] at ha
    rcases ha with rfl | rfl | rfl | rfl | rfl <;> cases hop <;> cases hid
  have hcommitted : Project.empty.Reaches (fun _ => envAt 1) SignsAheadAt
      (Project.empty.run (fun _ => envAt 1) (.start 0 signing :: committedBy 0)) := by
    have hcommit : SignsAheadAt
        (Project.empty.run (fun _ => envAt 1) (.start 0 signing :: preparedBy 0))
        (.locked 0 (.commit (idAt 1) 2 "k")) := signsAheadAt_of_current (by decide +kernel)
    exact (Project.reaches_run hfirst).step hcommit
  have hcommit : SignsAheadAt ((Project.empty.run (fun _ => envAt 1)
      (.start 0 signing :: committedBy 0)).run (fun _ => envAt 1) preparedNext)
      (.locked 1 (.commit (idFor 5 1) 5 "k")) := signsAheadAt_of_current (by decide +kernel)
  have hrun : Project.empty.Reaches (fun _ => envAt 1) SignsAheadAt
      (Project.empty.run (fun _ => envAt 1) (.start 0 signing :: committedBy 0 ++ committedNext)) := by
    rw [Project.run_append, committedNext, Project.run_concat]
    exact (hcommitted.run (Project.along_of_mem hnext _)).step hcommit
  exact ⟨by decide +kernel, heads_never_equivocate hrun.weathers⟩

/-- Two processes that started before there was a head commit one transformation each under the
lock: the ledger has one leaf, and two heads of one size are signed. -/
theorem stale_floor_signs_one_size_twice :
    let actions := [.start 0 signing, .start 1 signing] ++ committedBy 0 ++ committedBy 1
    (∀ a ∈ actions, a.Locked) ∧
      ¬ NeverEquivocates (headsOf (Project.empty.run (fun _ => envAt 1) actions).history) := by
  have hsizes : ((headsOf (Project.empty.run (fun _ => envAt 1)
      ([.start 0 signing, .start 1 signing] ++ committedBy 0 ++ committedBy 1)).history).map
        (·.treeSize)) = [1, 1] := by
    decide
  refine ⟨by decide, fun h => ?_⟩
  have hgrows := List.pairwise_map.mpr h.grows
  rw [hsizes] at hgrows
  exact absurd hgrows (by decide)

end Stale

end Tracefold
