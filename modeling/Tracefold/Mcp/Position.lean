import Mathlib.Tactic.Common
import Tracefold.Ideal
import Tracefold.Locator.Stable
import Tracefold.Mcp

/-! The gate and the wire: one position for all that is asked about a locator. -/

namespace Tracefold.Mcp

open Library Locator

section Position

variable [Canon] {position : Position} {d : Deployment} {s : Wire}

/-- A request at a position: of its server, and of its resource where a request names one. -/
def Names (position : Position) : Request → Prop
  | .read server resource => server = position.server ∧ resource = position.resource
  | .readPriorByTool server _ _ => server = position.server
  | .call server resource _ _ _ => server = position.server ∧ resource = position.resource

/-- What a road may do: ask at the position, and log a delta. -/
inductive Asks (position : Position) (d : Deployment) : Wire → Wire → Prop where
  | ask {s : Wire} (request : Request) (h : Names position request) :
    Asks position d s { s with requests := s.requests ++ [request] }
  | record {s : Wire} (delta : DeltaRef) :
    Asks position d s { s with applied := delta :: s.applied }

/-- A delta whose payload is one operation under the name of the position. -/
def Carries (d : Deployment) (delta : PlannedDelta) (position : Position) : Prop :=
  delta.substrate = .mcp ∧ ∃ op, d.decode delta.payload = some [op] ∧ op.locator = position.locator

omit [Canon] in
theorem traces_tryTransport {request : Request} (h : Names position request) :
    Prog.Traces (Asks position) d (tryTransport request) s fun _ _ => True :=
  ⟨.single (.ask request h), fun _ _ => trivial⟩

omit [Canon] in
theorem traces_transport {request : Request} (h : Names position request) :
    Prog.Traces (Asks position) d (transport request) s fun _ _ => True := by
  refine .bind ((traces_tryTransport h).mono fun answer s' _ => ?_)
  cases answer with
  | ok bytes => exact .pure trivial
  | error fault => exact .throw

omit [Canon] in
theorem traces_readSubject :
    Prog.Traces (Asks position) d (readSubject position) s fun _ _ => True := by
  apply Prog.Traces.bind
  apply Prog.Traces.ask
  split
  next => exact traces_transport ⟨rfl, rfl⟩
  next read _ =>
    apply Prog.Traces.bind
    refine .orThrow fun arguments _ => ?_
    have hnames : Names position (.readPriorByTool position.server read.byTool arguments) := rfl
    refine .bind ((traces_transport hnames).mono fun contents s' _ => ?_)
    exact .ite (fun _ => .pure trivial) fun _ => .throw

omit [Canon] in
theorem traces_parsed {locator : String} (h : parse locator.toList = .ok position)
    {R : Deployment → Wire → Wire → Prop} {Q : Position → Wire → Prop} (hQ : Q position s) :
    Prog.Traces R d (parsed locator) s Q := by
  rw [parsed, h]
  exact .pure hQ

/-- The scope a position is fingerprinted under. -/
def scopeOf (d : Deployment) (position : Position) : String :=
  d.elideScope (String.ofList position.locator)

omit [Canon] in
theorem traces_fingerprintAt {R : Deployment → Wire → Wire → Prop} {digest : Cid} :
    Prog.Traces R d (fingerprintAt position digest) s fun fp _ => fp.scope = scopeOf d position := by
  apply Prog.Traces.bind
  apply Prog.Traces.ask
  dsimp only
  split
  next => exact .pure rfl
  next => exact .throw

omit [Canon] in
theorem traces_snapshot {locator : String} (h : parse locator.toList = .ok position) :
    Prog.Traces (Asks position) d (snapshot locator) s fun snap _ =>
      snap.locator.toList = position.locator := by
  apply Prog.Traces.bind
  apply Prog.Traces.ask
  apply Prog.Traces.bind
  apply traces_parsed h
  refine .bind (traces_readSubject.mono fun contents s' _ => ?_)
  exact .pure (String.toList_ofList)

omit [Canon] in
theorem traces_precondition {snap : ObjectSnapshot}
    (h : parse snap.locator.toList = .ok position) :
    Prog.Traces (Asks position) d (precondition snap) s fun fp _ =>
      fp.scope = scopeOf d position := by
  apply Prog.Traces.bind
  apply Prog.Traces.ask
  apply Prog.Traces.bind
  apply traces_parsed h
  refine .bind (traces_readSubject.mono fun contents s' _ => ?_)
  exact traces_fingerprintAt

omit [Canon] in
theorem plan_carries (hcodec : d.RoundTrips) {intent : Intent} {pre : ObjectSnapshot}
    (h : parse intent.locator.toList = .ok position) :
    Prog.Traces (fun _ _ _ => False) d (plan intent pre) s fun delta _ =>
      Carries d delta position := by
  apply Prog.Traces.bind
  apply Prog.Traces.ask
  refine .ite (fun _ => .throw) fun _ => ?_
  apply Prog.Traces.bind
  apply traces_parsed h
  apply Prog.Traces.bind
  refine .orThrow fun call _ => ?_
  refine .ite (fun _ => .throw) fun _ => ?_
  apply Prog.Traces.bind
  refine .orThrow fun payload hpayload => ?_
  refine .ite (fun _ => .throw) fun _ => .pure ?_
  exact ⟨rfl, _, hcodec _ _ hpayload, rfl⟩

omit [Canon] in
theorem traces_operationOf {delta : PlannedDelta} (hcarries : Carries d delta position)
    (hstable : parse position.locator = .ok position) {R : Deployment → Wire → Wire → Prop} :
    Prog.Traces R d (operationOf delta) s fun answer s' =>
      s' = s ∧ answer.2 = position := by
  obtain ⟨hsubstrate, op, hdecode, hlocator⟩ := hcarries
  apply Prog.Traces.bind
  apply Prog.Traces.ask
  rw [if_neg (not_not.mpr hsubstrate)]
  split
  next => exact .throw
  next op' hone =>
    have hop : op' = op := by
      rw [Deployment.decodeOne, hdecode] at hone
      dsimp only at hone
      split_ifs at hone
      cases hone
      rfl
    split
    next => exact .throw
    next position' hposition =>
      rw [hop, McpOp.position, hlocator, hstable] at hposition
      split_ifs at hposition
      cases hposition
      exact .pure ⟨rfl, rfl⟩

omit [Canon] in
theorem traces_readPrior {restore : RestoreSpec} {op : McpOp} :
    Prog.Traces (Asks position) d (readPrior restore op position) s fun _ _ => True := by
  rw [readPrior]
  split
  next => exact traces_tryTransport ⟨rfl, rfl⟩
  next prior _ =>
    apply Prog.Traces.bind
    refine .orThrow fun arguments _ => ?_
    have hnames : Names position (.readPriorByTool position.server prior.byTool arguments) := rfl
    exact traces_tryTransport hnames

/-- What an inversion at a position answers with. -/
def InvertsAt (d : Deployment) (position : Position) (outcome : InvertOutcome) : Prop :=
  (∀ inverse, outcome.inverse = some inverse → Carries d inverse position) ∧
    ∀ entry ∈ outcome.reads, entry.locator.toList = position.resource

omit [Canon] in
theorem restoreOp_locator {restore : RestoreSpec} {op out : McpOp} {contents : Bytes}
    (h : restoreOp d restore op position contents = .ok (some out)) :
    out.locator = position.locator := by
  rw [restoreOp] at h
  split at h
  next =>
    split at h
    next => cases h
    next =>
      cases h
      rfl
  next =>
    split at h
    next => cases h
    next =>
      cases h
      rfl

omit [Canon] in
theorem traces_escrowed (hcodec : d.RoundTrips) {restore : RestoreSpec} {op : McpOp}
    {contents : Bytes} {R : Deployment → Wire → Wire → Prop} :
    Prog.Traces R d (escrowed restore op position contents) s fun outcome _ =>
      InvertsAt d position outcome := by
  have hreads : ∀ {digest : Cid}, ∀ entry ∈ [(⟨digest, String.ofList position.resource⟩ : ReadEntry)],
      entry.locator.toList = position.resource := by
    intro digest entry hentry
    obtain rfl := List.mem_singleton.mp hentry
    exact String.toList_ofList
  apply Prog.Traces.bind
  apply Prog.Traces.ask
  refine .ite (fun _ => ?_) fun _ => .ite (fun _ => .throw) fun _ => .pure ⟨nofun, nofun⟩
  split
  next => exact .throw
  next => exact .pure ⟨nofun, hreads⟩
  next out hout =>
    apply Prog.Traces.bind
    refine .orThrow fun payload hpayload => ?_
    refine .ite (fun _ => .pure ⟨nofun, hreads⟩) fun _ => .pure ⟨?_, hreads⟩
    rintro inverse hinverse
    cases hinverse
    exact ⟨rfl, out, hcodec _ _ hpayload, restoreOp_locator hout⟩

omit [Canon] in
theorem traces_invert (hcodec : d.RoundTrips) {delta : PlannedDelta} {pre : ObjectSnapshot}
    (hcarries : Carries d delta position) (hstable : parse position.locator = .ok position) :
    Prog.Traces (Asks position) d (invert delta pre) s fun outcome _ =>
      InvertsAt d position outcome := by
  apply Prog.Traces.bind
  apply Prog.Traces.ask
  refine .bind ((traces_operationOf hcarries hstable).mono fun answer s' h => ?_)
  obtain ⟨op, position'⟩ := answer
  obtain ⟨_, rfl⟩ := h
  refine .ite (fun _ => .throw) fun _ => ?_
  split
  next => exact .pure ⟨nofun, nofun⟩
  next restore _ =>
    refine .ite (fun _ => .throw) fun _ => ?_
    refine .bind (traces_readPrior.mono fun read s'' _ => ?_)
    cases read with
    | ok contents => exact traces_escrowed hcodec
    | error fault => exact .ite (fun _ => .throw) fun _ => .pure ⟨nofun, nofun⟩

omit [Canon] in
theorem traces_observedDigest :
    Prog.Traces (Asks position) d (observedDigest position) s fun _ _ => True := by
  have hread := (@traces_readSubject position d s).steps
  refine ⟨?_, fun _ _ => trivial⟩
  rw [Prog.final] at hread ⊢
  rw [observedDigest]
  split
  next heq => rwa [heq] at hread
  next heq => rwa [heq] at hread
  next heq => rwa [heq] at hread

theorem traces_observe {delta : PlannedDelta} {observation : Option Bytes} :
    Prog.Traces (Asks position) d (observe position delta observation) s fun applied _ =>
      applied.postcondition.scope = scopeOf d position := by
  refine .bind (traces_observedDigest.mono fun digest s' _ => ?_)
  refine .bind (traces_fingerprintAt.mono fun fp s'' hscope => ?_)
  exact .pure hscope

theorem traces_apply {delta : PlannedDelta} (hcarries : Carries d delta position)
    (hstable : parse position.locator = .ok position) :
    Prog.Traces (Asks position) d (apply delta) s fun applied _ =>
      applied.postcondition.scope = scopeOf d position := by
  refine .bind ((traces_operationOf hcarries hstable).mono fun answer s' h => ?_)
  obtain ⟨op, position'⟩ := answer
  obtain ⟨_, rfl⟩ := h
  apply Prog.Traces.bind
  apply Prog.Traces.get
  refine .ite (fun _ => traces_observe) fun _ => ?_
  have hnames : Names position' (.call position'.server position'.resource op.tool op.arguments
    delta.reference) := ⟨rfl, rfl⟩
  refine .bind ((traces_transport hnames).mono fun answered s'' _ => ?_)
  apply Prog.Traces.bind
  apply Prog.Traces.modify (.record delta.reference)
  exact traces_observe

/-- Every method of the adapter that works for an intent at `locator` asks under one position, and
reports it: to the gate, to the fingerprint, to the inversion and to the wire. -/
structure OnePosition (d : Deployment) (locator : Text) (position : Position) : Prop where
  snapshot : ∀ spelled s, spelled.toList = locator →
    Prog.Traces (Asks position) d (snapshot spelled) s fun snap _ =>
      snap.locator.toList = position.locator
  precondition : ∀ snap s, snap.locator.toList = position.locator →
    Prog.Traces (Asks position) d (precondition snap) s fun fp _ => fp.scope = scopeOf d position
  plan : ∀ intent pre s, intent.locator.toList = locator →
    Prog.Traces (fun _ _ _ => False) d (plan intent pre) s fun delta _ => Carries d delta position
  invert : ∀ delta pre s, Carries d delta position →
    Prog.Traces (Asks position) d (invert delta pre) s fun outcome _ =>
      InvertsAt d position outcome
  compares : ∀ pre : ObjectSnapshot, pre.locator.toList = position.locator →
    normalize pre.locator.toList = position.locator
  apply : ∀ delta s, Carries d delta position →
    Prog.Traces (Asks position) d (apply delta) s fun applied _ =>
      applied.postcondition.scope = scopeOf d position

theorem onePosition (hcodec : d.RoundTrips) {locator : Text} (hcalm : Calm locator)
    (hparse : parse locator = .ok position) : OnePosition d locator position := by
  obtain ⟨hlocator, hstable⟩ := parse_locator hcalm hparse
  constructor
  · rintro spelled s rfl
    exact traces_snapshot hparse
  · intro snap s hsnap
    apply traces_precondition
    rw [hsnap, hstable]
  · rintro intent pre s rfl
    exact plan_carries hcodec hparse
  · intro delta pre s hcarries
    exact traces_invert hcodec hcarries hstable
  · intro pre hpre
    rw [hpre, hlocator, normalize_normalize hcalm]
  · intro delta s hcarries
    exact traces_apply hcarries hstable

end Position

/-- A locator that makes no clause work for another one has its representative after one pass, and
the gate and the wire name one position for it. -/
theorem gate_and_wire_name_one_position [Canon] (locator : Text) (hcalm : Calm locator) :
    normalize (normalize locator) = normalize locator ∧
      ∀ d : Deployment, d.RoundTrips → ∀ position, parse locator = .ok position →
        OnePosition d locator position :=
  ⟨normalize_normalize hcalm, fun _ hcodec _ => onePosition hcodec hcalm⟩

/-- The spelling an agent may give a note at a server, and the one it is kept under. -/
def notesSpelled : Text := "HTTPS://MCP.Example:8443/sse#file:///srv/./a/../notes.md".toList

def notes : Position :=
  ⟨"https://mcp.example:8443/sse".toList, "file:///srv/notes.md".toList⟩

def notesOp : McpOp := ⟨[], notes.locator, [], "read".toList⟩

/-- The canonical DAG-CBOR of the one call. -/
def notesPayload : Bytes :=
  [0x81, 0xa3, 0x64] ++ "tool".toUTF8.toList ++ [0x64] ++ "read".toUTF8.toList ++
    [0x67] ++ "locator".toUTF8.toList ++ [0x78, 0x31] ++
    "https://mcp.example:8443/sse#file:///srv/notes.md".toUTF8.toList ++
    [0x69] ++ "arguments".toUTF8.toList ++ [0x40]

/-- A server that holds nothing at any resource, and a catalogue that declares nothing. -/
def bareDeployment : Deployment where
  answers _ _ := .ok []
  casReadFor _ := none
  specFor _ := none
  entrySound _ := true
  onReadFailureRefuses := true
  encode ops := if ops = [notesOp] then some notesPayload else none
  decode payload := if payload = notesPayload then some [notesOp] else none
  decodeGoal _ := some ("read".toList, [])
  restoreArguments _ _ := none
  contentDigest _ := ⟨[]⟩
  snapshotId _ _ := ⟨[]⟩
  elided := id

theorem bareDeployment_roundTrips : bareDeployment.RoundTrips := by
  intro ops payload h
  simp only [bareDeployment] at h ⊢
  split_ifs at h with hops
  cases h
  rw [if_pos rfl, hops]

open Tracefold.Ideal in
theorem notes_name_one_position :
    Calm notesSpelled ∧ parse notesSpelled = .ok notes ∧
      normalize (normalize notesSpelled) = normalize notesSpelled ∧
      OnePosition bareDeployment notesSpelled notes := by
  have hcalm : Calm notesSpelled := by decide
  have hparse : parse notesSpelled = .ok notes := by decide
  obtain ⟨hstable, hone⟩ := gate_and_wire_name_one_position notesSpelled hcalm
  exact ⟨hcalm, hparse, hstable, hone bareDeployment bareDeployment_roundTrips notes hparse⟩

/-- A second pass decodes a triplet that the first one has made, and the position a snapshot reports
is not the one its name is read back to. -/
theorem second_pass_moves_a_position :
    normalize (normalize "%%37e".toList) ≠ normalize "%%37e".toList ∧
      ∃ judged called, parse "mcp://h#x%%37e".toList = .ok judged ∧
        parse judged.locator = .ok called ∧ called ≠ judged := by
  refine ⟨by decide, ⟨"mcp://h".toList, "x%7e".toList⟩, ⟨"mcp://h".toList, "x~".toList⟩, ?_⟩
  decide

end Tracefold.Mcp
