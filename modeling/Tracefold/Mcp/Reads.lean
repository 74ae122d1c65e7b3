import Mathlib.Tactic.Common
import Tracefold.Mcp.Catalogue

/-! The read roads of the adapter under a catalogue: what is sent on them, and how often. -/

namespace Tracefold.Mcp.Declared

open Library Locator

theorem lookup_of_mem {α : Type} {entries : List (Text × α)} {key : Text} {a : α}
    (h : Ascending entries) (hmem : (key, a) ∈ entries) : entries.lookup key = some a := by
  induction entries with
  | nil => cases hmem
  | cons entry rest ih =>
    obtain ⟨other, b⟩ := entry
    cases List.mem_cons.mp hmem with
    | inl heq =>
      cases heq
      exact List.lookup_cons_self
    | inr hmem =>
      have hlt : compare other key = .lt := List.rel_of_pairwise_cons h hmem
      have hne : key ≠ other := by
        rintro rfl
        rw [Std.compare_self] at hlt
        cases hlt
      rw [List.lookup_cons, beq_false_of_ne hne]
      exact ih (List.Pairwise.of_cons h) hmem

theorem isSome_lookup {α : Type} {entries : List (Text × α)} {key : Text} {a : α}
    (hmem : (key, a) ∈ entries) : (entries.lookup key).isSome := by
  induction entries with
  | nil => cases hmem
  | cons entry rest ih =>
    obtain ⟨other, b⟩ := entry
    rw [List.lookup_cons]
    split
    next => rfl
    next hne =>
      cases List.mem_cons.mp hmem with
      | inl heq =>
        cases heq
        simp at hne
      | inr hmem => exact ih hmem

namespace Catalogue

variable {c : Catalogue} {tool pattern resource : Text} {spec : RestoreSpec} {read : CasRead}

/-- The catalogue says that the tool writes: it declares what undoes it, or that it undoes one. -/
def Writes (c : Catalogue) (tool : Text) : Prop :=
  ∃ entry ∈ c.restores, entry.1 = tool ∨ entry.2.restoredBy = tool

theorem not_writes (h : c.writesPerThisFile tool = none) : ¬ c.Writes tool := by
  rw [writesPerThisFile] at h
  split_ifs at h with hkey
  rw [Option.map_eq_none_iff, List.find?_eq_none] at h
  rintro ⟨entry, hentry, rfl | hrestored⟩
  · exact hkey (isSome_lookup hentry)
  · exact h entry hentry (by simpa using hrestored)

theorem mem_longest {entries : List (Text × CasRead)} {best : Option (Text × CasRead)}
    {entry : Text × CasRead} (h : longest entries best = some entry) :
    entry ∈ entries ∨ best = some entry := by
  induction entries generalizing best with
  | nil => exact .inr h
  | cons first rest ih =>
    unfold longest at h
    rcases ih h with hmem | hbest
    · exact .inl (List.mem_cons_of_mem _ hmem)
    · cases best with
      | none =>
        cases hbest
        exact .inl List.mem_cons_self
      | some held =>
        dsimp only at hbest
        split_ifs at hbest
        · cases hbest
          exact .inl List.mem_cons_self
        · exact .inr hbest

theorem lookup_casReadFor (h : c.casReadFor resource = some (pattern, read)) :
    c.casReads.lookup pattern = some read := by
  rcases mem_longest h with hmem | hnone
  · exact lookup_of_mem c.casReads_ascending (List.mem_of_mem_filter hmem)
  · cases hnone

theorem not_writes_cas (h : c.casReadFor resource = some (pattern, read))
    (hsound : c.casReadSound pattern = true) : ¬ c.Writes read.byTool := by
  rw [casReadSound, lookup_casReadFor h] at hsound
  simp only [Bool.and_eq_true, Option.isNone_iff_eq_none] at hsound
  exact not_writes hsound.2

theorem not_writes_escrow (hspec : c.specFor tool = some spec) {read : PriorRead}
    (hread : spec.readBy = some read) (hsound : c.entryFault tool = .ok ()) :
    ¬ c.Writes read.byTool := by
  rw [specFor] at hspec
  rw [entryFault, hspec] at hsound
  dsimp only at hsound
  split at hsound
  next => cases hsound
  next =>
    rw [hread] at hsound
    dsimp only at hsound
    split_ifs at hsound with hwrites
    exact not_writes (Option.not_isSome_iff_eq_none.mp hwrites)

end Catalogue

section Roads

variable [SerdeJson] [Sha1] (c : Catalogue) (position : Position)

/-- What may be sent to learn what an object holds: a read of the resource, or a call of the tool that
is declared for it, which does not write, with arguments from the declaration and the locator. -/
inductive CasRequest : Request → Prop where
  | read : CasRequest (.read position.server position.resource)
  | byTool {pattern : Text} {read : CasRead} {arguments : Bytes}
    (hread : c.casReadFor position.resource = some (pattern, read))
    (harguments : read.arguments.resolve position.server position.resource pattern = some arguments)
    (hwrites : ¬ c.Writes read.byTool) :
    CasRequest (.readPriorByTool position.server read.byTool arguments)

/-- What may be sent for an escrow: a read of the resource, or a call of the tool that is declared for
the forward call, which does not write, with arguments from the declaration and that call. -/
inductive EscrowRequest (op : McpOp) : Request → Prop where
  | read : EscrowRequest op (.read position.server position.resource)
  | byTool {spec : RestoreSpec} {read : PriorRead} {arguments : Bytes}
    (hspec : c.specFor op.tool = some spec) (hread : spec.readBy = some read)
    (harguments : read.argumentsFromForward op.arguments = some arguments)
    (hwrites : ¬ c.Writes read.byTool) :
    EscrowRequest op (.readPriorByTool position.server read.byTool arguments)

end Roads

/-- One request more, of some kind, or none. -/
def OneMore (P : Request → Prop) (before after : List Request) : Prop :=
  after = before ∨ ∃ request, after = before ++ [request] ∧ P request

theorem OneMore.mono {P P' : Request → Prop} {before after : List Request}
    (h : OneMore P before after) (hP : ∀ request, P request → P' request) :
    OneMore P' before after := by
  rcases h with rfl | ⟨request, rfl, hrequest⟩
  · exact .inl rfl
  · exact .inr ⟨request, rfl, hP request hrequest⟩

section Sent

variable {d : Deployment} {s : Wire} {P : Request → Prop} {position : Position}

theorem ends_tryTransport {request : Request} {E : Wire → Prop}
    {Q : Except Fault Bytes → Wire → Prop}
    (h : ∀ answer, Q answer { s with requests := s.requests ++ [request] }) :
    Prog.Ends d (tryTransport request) s E Q := h _

theorem ends_transport {request : Request} (h : P request) :
    Prog.Ends d (transport request) s (fun s' => OneMore P s.requests s'.requests)
      fun _ s' => OneMore P s.requests s'.requests := by
  apply Prog.Ends.bind
  apply ends_tryTransport
  intro answer
  cases answer with
  | ok bytes => exact .pure (.inr ⟨request, rfl, h⟩)
  | error fault => exact .throw (.inr ⟨request, rfl, h⟩)

theorem ends_parsed {locator : String} {E : Wire → Prop} {Q : Position → Wire → Prop} (hE : E s)
    (hQ : ∀ position, parse locator.toList = .ok position → Q position s) :
    Prog.Ends d (parsed locator) s E Q := by
  rw [parsed]
  cases hparse : parse locator.toList with
  | ok position => exact .pure (hQ position hparse)
  | error why => exact .throw hE

theorem ends_fingerprintAt {digest : Cid} {E : Wire → Prop} (h : E s) :
    Prog.Ends d (fingerprintAt position digest) s E fun _ s' => E s' := by
  apply Prog.Ends.bind
  apply Prog.Ends.ask
  dsimp only
  split
  next => exact .pure h
  next => exact .throw h

theorem ends_operationOf {delta : PlannedDelta} {E : Wire → Prop} {Q : McpOp × Position → Wire → Prop}
    (hE : E s) (hQ : ∀ op position, d.decodeOne delta.payload = .ok op →
      op.position = .ok position → Q (op, position) s) :
    Prog.Ends d (operationOf delta) s E Q := by
  apply Prog.Ends.bind
  apply Prog.Ends.ask
  apply Prog.Ends.ite
  · exact fun _ => .throw hE
  · intro _
    split
    next => exact .throw hE
    next op hop =>
      split
      next => exact .throw hE
      next position hposition => exact .pure (hQ op position hop hposition)

theorem ends_escrowed {restore : Mcp.RestoreSpec} {op : McpOp} {contents : Bytes} {E : Wire → Prop}
    (h : E s) : Prog.Ends d (escrowed restore op position contents) s E fun _ s' => E s' := by
  apply Prog.Ends.bind
  apply Prog.Ends.ask
  apply Prog.Ends.ite
  · intro _
    split
    next => exact .throw h
    next => exact .pure h
    next =>
      apply Prog.Ends.bind
      apply Prog.Ends.orThrow
      · exact fun _ => h
      · exact fun payload _ => .ite (fun _ => .pure h) fun _ => .pure h
  · exact fun _ => .ite (fun _ => .throw h) fun _ => .pure h

end Sent

section Roads

variable [Canon] [SerdeJson] [Sha1] {c : Catalogue} {d : Deployment} {s : Wire}
  {position : Position}

/-- A road that ends wherever it does with at most one request more. -/
abbrev Sends {α : Type} (P : Request → Prop) (d : Deployment) (road : Road α) (s : Wire) : Prop :=
  Prog.Ends d road s (fun s' => OneMore P s.requests s'.requests)
    fun _ s' => OneMore P s.requests s'.requests

omit [Canon] in
theorem deployed_casReadFor (resource : Text) :
    (c.deployed d).casReadFor resource = (c.casReadFor resource).map (c.casRead d) := rfl

omit [Canon] in
theorem deployed_specFor (tool : Text) :
    (c.deployed d).specFor tool = (c.specFor tool).map RestoreSpec.declared := rfl

omit [Canon] in
theorem deployed_entrySound {tool : Text} (h : (c.deployed d).entrySound tool = true) :
    c.entryFault tool = .ok () := by
  obtain ⟨⟨⟩, hok⟩ := Option.isSome_iff_exists.mp h
  exact Prog.ok_of_toOption hok

omit [Canon] in
theorem sends_readSubject :
    Sends (CasRequest c position) (c.deployed d) (readSubject position) s := by
  apply Prog.Ends.bind
  apply Prog.Ends.ask
  cases hread : c.casReadFor position.resource with
  | none =>
    have hnone : (c.deployed d).casReadFor position.resource = none := by
      rw [deployed_casReadFor, hread, Option.map_none]
    rw [hnone]
    exact ends_transport .read
  | some entry =>
    obtain ⟨pattern, read⟩ := entry
    have hsome : (c.deployed d).casReadFor position.resource = some (c.casRead d (pattern, read)) := by
      rw [deployed_casReadFor, hread, Option.map_some]
    rw [hsome]
    apply Prog.Ends.bind
    apply Prog.Ends.orThrow
    · exact fun _ => .inl rfl
    · intro arguments harguments
      obtain ⟨hsound, hresolve⟩ := Option.ite_none_right_eq_some.mp harguments
      have hrequest : CasRequest c position
          (.readPriorByTool position.server read.byTool arguments) :=
        .byTool hread hresolve (Catalogue.not_writes_cas hread hsound)
      apply Prog.Ends.bind
      apply (ends_transport hrequest).mono
      intro contents s' h
      exact .ite (fun _ => .pure h) fun _ => .throw h

/-- What is sent for the locator of an object. -/
def ForLocator (c : Catalogue) (locator : String) (request : Request) : Prop :=
  ∃ position, parse locator.toList = .ok position ∧ CasRequest c position request

/-- What is sent for the operation of a delta, and where. -/
def ForDelta (d : Deployment) (delta : PlannedDelta) (P : McpOp → Position → Request → Prop)
    (request : Request) : Prop :=
  ∃ op position, d.decodeOne delta.payload = .ok op ∧ op.position = .ok position ∧
    P op position request

omit [Canon] in
theorem sends_at {locator : String} (hparse : parse locator.toList = .ok position) :
    Sends (ForLocator c locator) (c.deployed d) (readSubject position) s := by
  apply sends_readSubject.weaken
  · exact fun s' h => h.mono fun request hrequest => ⟨position, hparse, hrequest⟩
  · exact fun _ s' h => h.mono fun request hrequest => ⟨position, hparse, hrequest⟩

omit [Canon] in
theorem sends_snapshot {locator : String} :
    Sends (ForLocator c locator) (c.deployed d) (snapshot locator) s := by
  apply Prog.Ends.bind
  apply Prog.Ends.ask
  apply Prog.Ends.bind
  apply ends_parsed (.inl rfl)
  intro position hparse
  apply Prog.Ends.bind
  apply (sends_at hparse).mono
  intro contents s' h
  exact .pure h

omit [Canon] in
theorem sends_precondition {snap : ObjectSnapshot} :
    Sends (ForLocator c snap.locator) (c.deployed d) (precondition snap) s := by
  apply Prog.Ends.bind
  apply Prog.Ends.ask
  apply Prog.Ends.bind
  apply ends_parsed (.inl rfl)
  intro position hparse
  apply Prog.Ends.bind
  apply (sends_at hparse).mono
  intro contents s' h
  exact ends_fingerprintAt h

omit [Canon] in
theorem sends_readPrior {spec : RestoreSpec} {op : McpOp} (hspec : c.specFor op.tool = some spec)
    (hsound : c.entryFault op.tool = .ok ()) :
    Sends (EscrowRequest c position op) d (readPrior spec.declared op position) s := by
  rw [readPrior]
  cases hread : spec.readBy with
  | none =>
    have hnone : spec.declared.readBy = none := congrArg (Option.map PriorRead.declared) hread
    rw [hnone]
    apply ends_tryTransport
    exact fun _ => .inr ⟨_, rfl, .read⟩
  | some read =>
    have hsome : spec.declared.readBy = some read.declared :=
      congrArg (Option.map PriorRead.declared) hread
    rw [hsome]
    apply Prog.Ends.bind
    apply Prog.Ends.orThrow
    · exact fun _ => .inl rfl
    · intro arguments harguments
      apply ends_tryTransport
      have hwrites := Catalogue.not_writes_escrow hspec hread hsound
      exact fun _ => .inr ⟨_, rfl, .byTool hspec hread harguments hwrites⟩

omit [Canon] in
theorem sends_invert {delta : PlannedDelta} {pre : ObjectSnapshot} :
    Sends (ForDelta d delta fun op position => EscrowRequest c position op) (c.deployed d)
      (invert delta pre) s := by
  apply Prog.Ends.bind
  apply Prog.Ends.ask
  apply Prog.Ends.bind
  apply ends_operationOf (.inl rfl)
  intro op position hop hposition
  apply Prog.Ends.ite
  · exact fun _ => .throw (.inl rfl)
  · intro _
    rw [deployed_specFor]
    cases hspec : c.specFor op.tool with
    | none => exact .pure (.inl rfl)
    | some spec =>
      apply Prog.Ends.ite
      · exact fun _ => .throw (.inl rfl)
      · intro hsound
        have hentry : (c.deployed d).entrySound op.tool = true := by simpa using hsound
        have hone : ∀ {s' : Wire}, OneMore (EscrowRequest c position op) s.requests s'.requests →
            OneMore (ForDelta d delta fun op position => EscrowRequest c position op) s.requests
              s'.requests :=
          fun h => h.mono fun request hrequest => ⟨op, position, hop, hposition, hrequest⟩
        apply Prog.Ends.bind
        apply (sends_readPrior hspec (deployed_entrySound hentry)).weaken
        · exact fun _ => hone
        · intro answer s' h
          cases answer with
          | ok contents => exact ends_escrowed (hone h)
          | error fault => exact .ite (fun _ => .throw (hone h)) fun _ => .pure (hone h)

/-- `McpAdapter::reversibility`. -/
def reversibility (delta : PlannedDelta) (pre : ObjectSnapshot) : Road Reversibility := do
  let outcome ← invert delta pre
  pure outcome.verdict

omit [Canon] in
theorem sends_reversibility {delta : PlannedDelta} {pre : ObjectSnapshot} :
    Sends (ForDelta d delta fun op position => EscrowRequest c position op) (c.deployed d)
      (reversibility delta pre) s := by
  apply Prog.Ends.bind
  apply sends_invert.mono
  intro outcome s' h
  exact .pure h

omit [Canon] in
theorem sends_observedDigest :
    Sends (CasRequest c position) (c.deployed d) (observedDigest position) s := by
  have hread := (@sends_readSubject _ _ c d s position).final
  have hstate : Prog.final (observedDigest position) (c.deployed d) s =
      Prog.final (readSubject position) (c.deployed d) s := by
    rw [Prog.final, Prog.final, observedDigest]
    split
    next heq => rw [heq]
    next heq => rw [heq]
    next heq => rw [heq]
  rw [← hstate] at hread
  exact .of_outcome (fun _ _ => hread) fun _ _ => hread

theorem sends_observe {delta : PlannedDelta} {observation : Option Bytes} :
    Sends (CasRequest c position) (c.deployed d) (observe position delta observation) s := by
  apply Prog.Ends.bind
  apply sends_observedDigest.mono
  intro digest s' h
  apply Prog.Ends.bind
  apply (ends_fingerprintAt h).mono
  intro fp s'' h
  exact .pure h

/-- An effect is sent, or none is, and then there is at most one read for the compare-and-set. -/
def Applies (c : Catalogue) (d : Deployment) (delta : PlannedDelta) (before after : List Request) :
    Prop :=
  ∃ between, (between = before ∨ ∃ server resource tool arguments,
      between = before ++ [.call server resource tool arguments delta.reference]) ∧
    OneMore (ForDelta d delta fun _ position => CasRequest c position) between after

theorem ends_apply {delta : PlannedDelta} :
    Prog.Ends (c.deployed d) (apply delta) s
      (fun s' => Applies c d delta s.requests s'.requests)
      fun _ s' => Applies c d delta s.requests s'.requests := by
  have hstill : Applies c d delta s.requests s.requests := ⟨s.requests, .inl rfl, .inl rfl⟩
  apply Prog.Ends.bind
  apply ends_operationOf hstill
  intro op position hop hposition
  have hobserve : ∀ {s' : Wire} {observation : Option Bytes},
      (s'.requests = s.requests ∨ ∃ server resource tool arguments,
        s'.requests = s.requests ++ [.call server resource tool arguments delta.reference]) →
      Prog.Ends (c.deployed d) (observe position delta observation) s'
        (fun s'' => Applies c d delta s.requests s''.requests)
        fun _ s'' => Applies c d delta s.requests s''.requests := by
    intro s' observation hcalled
    have hone : ∀ {s'' : Wire}, OneMore (CasRequest c position) s'.requests s''.requests →
        Applies c d delta s.requests s''.requests := by
      intro s'' h
      exact ⟨_, hcalled, h.mono fun request hrequest => ⟨op, position, hop, hposition, hrequest⟩⟩
    exact sends_observe.weaken (fun _ => hone) fun _ _ => hone
  apply Prog.Ends.bind
  apply Prog.Ends.get
  apply Prog.Ends.ite
  · exact fun _ => hobserve (.inl rfl)
  · intro _
    have hsent : ∀ {s' : Wire}, s'.requests = s.requests ++
        [.call position.server position.resource op.tool op.arguments delta.reference] →
        Applies c d delta s.requests s'.requests :=
      fun h => ⟨_, .inr ⟨_, _, _, _, h⟩, .inl rfl⟩
    apply Prog.Ends.bind
    apply Prog.Ends.bind
    apply ends_tryTransport
    intro answer
    cases answer with
    | error fault => exact .throw (hsent rfl)
    | ok answered =>
      apply Prog.Ends.pure
      apply Prog.Ends.bind
      apply Prog.Ends.modify
      exact hobserve (.inr ⟨_, _, _, _, rfl⟩)

/-- On none of the roads that read is a tool sent that the catalogue calls an effect or an inverse;
there is at most one read on each, and what it carries is from the declaration and the locator, or
from the declaration and the forward call. -/
theorem read_roads_send_no_write (c : Catalogue) (d : Deployment) (s : Wire) :
    (∀ locator, OneMore (ForLocator c locator) s.requests
      (Prog.final (snapshot locator) (c.deployed d) s).requests) ∧
    (∀ snap, OneMore (ForLocator c snap.locator) s.requests
      (Prog.final (precondition snap) (c.deployed d) s).requests) ∧
    (∀ delta pre, OneMore (ForDelta d delta fun op position => EscrowRequest c position op) s.requests
      (Prog.final (invert delta pre) (c.deployed d) s).requests) ∧
    (∀ delta pre, OneMore (ForDelta d delta fun op position => EscrowRequest c position op) s.requests
      (Prog.final (reversibility delta pre) (c.deployed d) s).requests) ∧
    (∀ position delta observation, OneMore (CasRequest c position) s.requests
      (Prog.final (observe position delta observation) (c.deployed d) s).requests) ∧
    ∀ delta, Applies c d delta s.requests (Prog.final (apply delta) (c.deployed d) s).requests :=
  ⟨fun _ => sends_snapshot.final, fun _ => sends_precondition.final, fun _ _ => sends_invert.final,
    fun _ _ => sends_reversibility.final, fun _ _ _ => sends_observe.final, fun _ => ends_apply.final⟩

end Roads

end Tracefold.Mcp.Declared
