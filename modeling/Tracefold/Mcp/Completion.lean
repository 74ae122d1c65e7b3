import Mathlib.Tactic.Common
import Tracefold.Mcp.Identity

/-! The second phase of an escrow: the members of an inverse that only the answer of the call can
supply. -/

namespace Tracefold.Mcp.Declared

open Library Locator Std

section Observed

variable [SerdeJson]

/-- `trailing_number`. -/
def trailingNumber (text : Text) : Option ℕ :=
  (Library.Text.rsplitOnce '/' text).bind fun split => Json.decimal64 split.2

/-- `ArgSource::resolve_from_observation`. -/
def ArgSource.resolveFromObservation (observation : Bytes) (source : ArgSource) : Option Json := do
  let observed ← SerdeJson.fromSlice observation
  match source with
  | .doResult pointer => SerdeJson.pointer pointer observed
  | .doResultNumberFrom pointer => do
    let text ← (SerdeJson.pointer pointer observed).bind Json.asString
    let number ← trailingNumber text
    return .number (.int number)
  | _ => none

/-- The source of a member that is owed, as it was written down. -/
def ArgSource.ofOwed (owed : Text) : Option ArgSource :=
  (owed.dropPrefix? "do_result:".toList).map .doResult <|>
    (owed.dropPrefix? "do_result_number_from:".toList).map .doResultNumberFrom

/-- The value of a member that is owed. -/
def owedValue (observation : Bytes) (owed : Text) : Option Json :=
  (ArgSource.ofOwed owed).bind (ArgSource.resolveFromObservation observation)

/-- The loop of `complete_inverse`: the members that are owed, put to those that are there. -/
def fill (observation : Bytes) :
    List (Text × Text) → List (Text × Json) → Option (List (Text × Json))
  | [], arguments => some arguments
  | (name, owed) :: rest, arguments => do
    let value ← owedValue observation owed
    fill observation rest (SerdeJson.insert name value arguments)

end Observed

section Complete

variable [SerdeJson]

inductive CompletionRefused where
  | argumentsAreNotTheObjectThisAdapterWrote
  | observationDidNotCarryADeclaredMember
  | completedArgumentsWouldNotSerialise
  | completedPayloadIsOverTheCeiling
  deriving DecidableEq, Repr

/-- A call that owes nothing, if it can be written down and is not over the ceiling. -/
def completed (d : Deployment) (locator tool : Text) (arguments : List (Text × Json)) :
    Except Error (Except CompletionRefused PlannedDelta) :=
  match SerdeJson.toVec (.object arguments) with
  | none => .ok (.error .completedArgumentsWouldNotSerialise)
  | some arguments =>
    match d.encode [⟨arguments, locator, [], tool⟩] with
    | none => .error .notDigestible
    | some payload =>
      if maxInversePayloadBytes < payload.length then
        .ok (.error .completedPayloadIsOverTheCeiling)
      else .ok (.ok ⟨.mcp, payload, none⟩)

/-- `McpAdapter::needs_completion`. -/
def needsCompletion (d : Deployment) (inverse : PlannedDelta) : Except Error Bool :=
  if inverse.substrate ≠ .mcp then .error .foreignDelta
  else (d.decodeOne inverse.payload).map fun op => !op.pending.isEmpty

/-- `McpAdapter::complete_inverse`, with the fact that is noted where it answers nothing. -/
def completeInverse (d : Deployment) (inverse : PlannedDelta) (observation : Bytes) :
    Except Error (Except CompletionRefused PlannedDelta) :=
  if inverse.substrate ≠ .mcp then .error .foreignDelta
  else
    match d.decodeOne inverse.payload with
    | .error e => .error e
    | .ok op =>
      if op.pending.isEmpty then .ok (.ok inverse)
      else
        match (SerdeJson.fromSlice op.arguments).bind Json.asObject with
        | none => .ok (.error .argumentsAreNotTheObjectThisAdapterWrote)
        | some arguments =>
          match fill observation op.pending arguments with
          | none => .ok (.error .observationDidNotCarryADeclaredMember)
          | some arguments => completed d op.locator op.tool arguments

end Complete

section AtOnce

variable [SerdeJson] [Sha1]

/-- The value of a source, where the answer of the call is there too. -/
def ArgSource.resolveAtOnce (forward : List (Text × Json)) (prior observation : Bytes)
    (source : ArgSource) : Option Json :=
  if source.isDoResult then source.resolveFromObservation observation
  else source.resolve forward prior

/-- A member with the value of its source. -/
def withValue (forward : List (Text × Json)) (prior observation : Bytes)
    (member : Text × ArgSource) : Option (Text × Json) :=
  (member.2.resolveAtOnce forward prior observation).map (Prod.mk member.1)

/-- The members of a template, each from its source. -/
def resolveAll (forward : List (Text × Json)) (prior observation : Bytes) :
    List (Text × ArgSource) → List (Text × Json) → Option (List (Text × Json))
  | [], resolved => some resolved
  | (name, source) :: rest, resolved => do
    let value ← source.resolveAtOnce forward prior observation
    resolveAll forward prior observation rest (SerdeJson.insert name value resolved)

/-- The restore call that members make in one step. -/
def restoreAtOnce (d : Deployment) (locator tool : Text) (members : List (Text × ArgSource))
    (forward : List (Text × Json)) (prior observation : Bytes) :
    Except Error (Except CompletionRefused PlannedDelta) :=
  match resolveAll forward prior observation members [] with
  | none => .ok (.error .observationDidNotCarryADeclaredMember)
  | some arguments => completed d locator tool arguments

end AtOnce

section Fill

variable [SerdeJson] [Sha1] {observation prior : Bytes} {forward resolved : List (Text × Json)}
  {members pending : List (Text × ArgSource)}

/-- How the members that are owed are written down. -/
def owing (pending : List (Text × ArgSource)) : List (Text × Text) :=
  pending.map fun member => (member.1, member.2.owed)

omit [SerdeJson] [Sha1] in
theorem ofOwed_owed {source : ArgSource} (h : source.isDoResult = true) :
    ArgSource.ofOwed source.owed = some source := by
  cases source with
  | doResult pointer =>
    have hword : ("do_result:".toList ++ pointer).dropPrefix? "do_result:".toList = some pointer := by
      simp [List.dropPrefix?]
    change ((List.dropPrefix? ("do_result:".toList ++ pointer) _).map _ <|> _) = _
    rw [hword]
    rfl
  | doResultNumberFrom pointer =>
    have hother : ("do_result_number_from:".toList ++ pointer).dropPrefix? "do_result:".toList =
        none := by
      simp [List.dropPrefix?]
    have hword : ("do_result_number_from:".toList ++ pointer).dropPrefix?
        "do_result_number_from:".toList = some pointer := by
      simp [List.dropPrefix?]
    change ((List.dropPrefix? ("do_result_number_from:".toList ++ pointer) _).map _ <|>
      (List.dropPrefix? ("do_result_number_from:".toList ++ pointer) _).map _) = _
    rw [hother, hword]
    rfl
  | _ => cases h

omit [Sha1] in
theorem owedValue_owed {source : ArgSource} (h : source.isDoResult = true) :
    owedValue observation source.owed = source.resolveFromObservation observation := by
  rw [owedValue, ofOwed_owed h, Option.bind_some]

omit [Sha1] in
theorem fill_cons (name owed : Text) (rest : List (Text × Text)) (arguments : List (Text × Json)) :
    fill observation ((name, owed) :: rest) arguments =
      (owedValue observation owed).bind fun value =>
        fill observation rest (SerdeJson.insert name value arguments) := rfl

theorem resolveAll_cons (name : Text) (source : ArgSource) (rest : List (Text × ArgSource))
    (arguments : List (Text × Json)) :
    resolveAll forward prior observation ((name, source) :: rest) arguments =
      (source.resolveAtOnce forward prior observation).bind fun value =>
        resolveAll forward prior observation rest (SerdeJson.insert name value arguments) := rfl

theorem resolveAll_append (a b : List (Text × ArgSource)) (arguments : List (Text × Json)) :
    resolveAll forward prior observation (a ++ b) arguments =
      (resolveAll forward prior observation a arguments).bind
        (resolveAll forward prior observation b) := by
  induction a generalizing arguments with
  | nil => rfl
  | cons member rest ih =>
    obtain ⟨name, source⟩ := member
    rw [List.cons_append, resolveAll_cons, resolveAll_cons, Option.bind_assoc]
    exact Option.bind_congr fun value _ => ih _

theorem fill_owing (h : ∀ member ∈ pending, member.2.isDoResult = true)
    (arguments : List (Text × Json)) :
    fill observation (owing pending) arguments =
      resolveAll forward prior observation pending arguments := by
  induction pending generalizing arguments with
  | nil => rfl
  | cons member rest ih =>
    obtain ⟨name, source⟩ := member
    have hlate : source.isDoResult = true := h _ List.mem_cons_self
    rw [resolveAll_cons, ArgSource.resolveAtOnce, if_pos hlate, owing, List.map_cons, fill_cons,
      owedValue_owed hlate]
    exact Option.bind_congr fun value _ => ih (fun m hm => h m (List.mem_cons_of_mem _ hm)) _

/-- The members that only the answer of the call can supply, or the others. -/
def late (members : List (Text × ArgSource)) : List (Text × ArgSource) :=
  members.filter fun member => member.2.isDoResult

def prompt (members : List (Text × ArgSource)) : List (Text × ArgSource) :=
  members.filter fun member => !member.2.isDoResult

omit [SerdeJson] [Sha1] in
theorem late_cons (member : Text × ArgSource) (rest : List (Text × ArgSource)) :
    late (member :: rest) = if member.2.isDoResult then member :: late rest else late rest :=
  List.filter_cons

omit [SerdeJson] [Sha1] in
theorem prompt_cons (member : Text × ArgSource) (rest : List (Text × ArgSource)) :
    prompt (member :: rest) = if member.2.isDoResult then prompt rest else member :: prompt rest := by
  rw [prompt, List.filter_cons]
  cases member.2.isDoResult <;> rfl

theorem pending_of_splitMembers {owed : List (Text × ArgSource)}
    {done : List (Text × Json)}
    (hsplit : splitMembers forward prior members done owed = some (resolved, pending)) :
    pending = owed ++ late members := by
  induction members generalizing done owed with
  | nil =>
    cases hsplit
    exact (List.append_nil pending).symm
  | cons member rest ih =>
    obtain ⟨name, source⟩ := member
    rw [splitMembers] at hsplit
    split at hsplit
    next hlate =>
      rw [ih hsplit, late_cons, if_pos hlate, List.append_assoc]
      rfl
    next hnow =>
      obtain ⟨value, _, hsplit⟩ := Option.bind_eq_some_iff.mp hsplit
      rw [ih hsplit, late_cons, if_neg hnow]

theorem resolved_of_splitMembers {owed : List (Text × ArgSource)} {done : List (Text × Json)}
    (hsplit : splitMembers forward prior members done owed = some (resolved, pending)) :
    resolveAll forward prior observation (prompt members) done = some resolved := by
  induction members generalizing done owed with
  | nil =>
    cases hsplit
    rfl
  | cons member rest ih =>
    obtain ⟨name, source⟩ := member
    rw [splitMembers] at hsplit
    rw [prompt_cons]
    split at hsplit
    next hlate =>
      rw [if_pos hlate]
      exact ih hsplit
    next hnow =>
      obtain ⟨value, hvalue, hsplit⟩ := Option.bind_eq_some_iff.mp hsplit
      rw [if_neg hnow, resolveAll_cons, ArgSource.resolveAtOnce, if_neg hnow, hvalue]
      exact ih hsplit

/-- What is split when the inverse is escrowed and filled behind the call is resolved in one go, the
members that were owed behind the others. -/
theorem fill_splitMembers
    (hsplit : splitMembers forward prior members [] [] = some (resolved, pending)) :
    fill observation (owing pending) resolved =
      resolveAll forward prior observation (prompt members ++ late members) [] := by
  have hpending : pending = late members := pending_of_splitMembers hsplit
  have howed : ∀ member ∈ pending, member.2.isDoResult = true := by
    intro member hmember
    rw [hpending] at hmember
    exact (List.mem_filter.mp hmember).2
  rw [resolveAll_append, resolved_of_splitMembers hsplit, Option.bind_some, ← hpending]
  exact fill_owing howed resolved

omit [SerdeJson] [Sha1] in
theorem perm_prompt_late (members : List (Text × ArgSource)) :
    (prompt members ++ late members).Perm members :=
  List.perm_append_comm.trans
    (List.filter_append_perm (fun member : Text × ArgSource => member.2.isDoResult) members)

omit [SerdeJson] [Sha1] in
theorem nodup_of_ascending {entries : List (Text × ArgSource)} (h : Ascending entries) :
    (entries.map Prod.fst).Nodup := by
  rw [List.Nodup, List.pairwise_map]
  refine h.imp fun {a b} hlt heq => ?_
  rw [heq, compare_self] at hlt
  cases hlt

theorem members_resolveAll (hinserts : SerdeJson.InsertsMembers) {done : List (Text × Json)}
    (hnodup : (members.map Prod.fst).Nodup)
    (hnew : ∀ member ∈ members, member.1 ∉ done.map Prod.fst) :
    (resolveAll forward prior observation members done).map Multiset.ofList =
      (members.mapM (withValue forward prior observation)).map
        fun more => Multiset.ofList (done ++ more) := by
  induction members generalizing done with
  | nil => simp [resolveAll]
  | cons member rest ih =>
    obtain ⟨name, source⟩ := member
    rw [List.map_cons, List.nodup_cons] at hnodup
    rw [resolveAll_cons, Text.mapM_cons_eq, withValue]
    dsimp only
    cases source.resolveAtOnce forward prior observation with
    | none => rfl
    | some value =>
      have hput := hinserts name value done (hnew _ List.mem_cons_self)
      rw [Option.bind_some, Option.map_some, Option.bind_some, ih hnodup.2, Option.map_map]
      · refine Option.map_congr fun more _ => Multiset.coe_eq_coe.mpr ?_
        rw [List.append_cons]
        exact hput.append_right more
      · intro other hother hmem
        rw [(hput.map Prod.fst).mem_iff, List.map_append, List.mem_append] at hmem
        rcases hmem with hmem | hmem
        · exact hnew other (List.mem_cons_of_mem _ hother) hmem
        · have hname : other.1 = name := List.mem_singleton.mp hmem
          exact hnodup.1 (List.mem_map.mpr ⟨other, hother, hname⟩)

theorem members_of_perm (hinserts : SerdeJson.InsertsMembers) {members' : List (Text × ArgSource)}
    (hperm : members'.Perm members) (hnodup : (members.map Prod.fst).Nodup) :
    (resolveAll forward prior observation members' []).map Multiset.ofList =
      (resolveAll forward prior observation members []).map Multiset.ofList := by
  have hnew : ∀ member : Text × ArgSource, member.1 ∉ ([] : List (Text × Json)).map Prod.fst :=
    fun _ => List.not_mem_nil
  have hnodup' := (hperm.map Prod.fst).nodup_iff.mpr hnodup
  rw [members_resolveAll hinserts hnodup' fun m _ => hnew m,
    members_resolveAll hinserts hnodup fun m _ => hnew m]
  exact Text.mapM_perm hperm

/-- Whether a template has a member that only the answer of the call can supply. -/
def RestoreTemplate.owes (template : RestoreTemplate) : Bool :=
  template.arguments.any fun member => member.2.isDoResult

theorem owing_isEmpty {template : RestoreTemplate}
    (hsplit : splitMembers forward prior template.arguments [] [] = some (resolved, pending)) :
    (owing pending).isEmpty = !template.owes := by
  rw [owing, List.isEmpty_map, pending_of_splitMembers hsplit, List.nil_append, late,
    RestoreTemplate.owes]
  induction template.arguments with
  | nil => rfl
  | cons member rest ih =>
    rw [List.filter_cons, List.any_cons]
    cases member.2.isDoResult with
    | true => rfl
    | false => exact ih

end Fill

section Escrowed

variable [SerdeJson] [Sha1] {c : Catalogue} {d : Deployment} {s s' : Wire}
  {delta inverse : PlannedDelta} {pre : ObjectSnapshot} {op : McpOp} {spec : RestoreSpec}
  {template : RestoreTemplate} {reads : List ReadEntry}

/-- How an inverse is escrowed by a template: from one answer of the server and the arguments of
the call, the members that have a value by now, and those that are owed one. -/
structure EscrowedFrom (d : Deployment) (s s' : Wire) (op : McpOp) (spec : RestoreSpec)
    (template : RestoreTemplate) (inverse : PlannedDelta) (position : Position) (contents : Bytes)
    (forward resolved : List (Text × Json)) (pending : List (Text × ArgSource))
    (arguments : Bytes) : Prop where
  place : op.position = .ok position
  read : ∃ request, s' = asked s request ∧ d.answers s.requests request = .ok contents
  forward_eq : (SerdeJson.fromSlice op.arguments).bind Json.asObject = some forward
  split : splitMembers forward contents template.arguments [] [] = some (resolved, pending)
  written : SerdeJson.toVec (.object resolved) = some arguments
  named : spec.restoredBy.isEmpty = false
  substrate : inverse.substrate = .mcp
  payload : d.encode [⟨arguments, position.locator, owing pending, spec.restoredBy⟩] =
    some inverse.payload

omit [SerdeJson] [Sha1] in
theorem ends_readPrior {restore : Mcp.RestoreSpec} {position : Position} :
    Prog.Ends d (readPrior restore op position) s (fun _ => True) fun answer s' =>
      ∃ request, s' = asked s request ∧ d.answers s.requests request = answer := by
  rw [readPrior]
  cases restore.readBy with
  | none => exact ⟨_, rfl, rfl⟩
  | some read =>
    apply Prog.Ends.bind
    apply Prog.Ends.orThrow
    · exact fun _ => trivial
    · exact fun arguments _ => ⟨_, rfl, rfl⟩

omit [SerdeJson] [Sha1] in
theorem named_of_sound (hspec : c.specFor op.tool = some spec)
    (hsound : c.entryFault op.tool = .ok ()) : spec.restoredBy.isEmpty = false := by
  rw [Bool.eq_false_iff]
  intro hempty
  have hnothing : namesNothing spec.restoredBy = true := by
    rw [List.isEmpty_iff.mp hempty]
    rfl
  have hfault : spec.fault = .error .restoreFace := by
    rw [RestoreSpec.fault, if_pos hnothing]
  have hlookup : c.restores.lookup op.tool = some spec := hspec
  rw [Catalogue.entryFault, hlookup] at hsound
  dsimp only at hsound
  rw [hfault] at hsound
  cases hsound

theorem resolveSplit_eq_some {prior arguments : Bytes} {pending : List (Text × ArgSource)}
    (h : template.resolveSplit op.arguments prior = some (arguments, pending)) :
    ∃ forward resolved, (SerdeJson.fromSlice op.arguments).bind Json.asObject = some forward ∧
      splitMembers forward prior template.arguments [] [] = some (resolved, pending) ∧
      SerdeJson.toVec (.object resolved) = some arguments := by
  obtain ⟨forward, hforward, h⟩ := Option.bind_eq_some_iff.mp h
  obtain ⟨⟨resolved, pending'⟩, hsplit, h⟩ := Option.bind_eq_some_iff.mp h
  obtain ⟨arguments', hwritten, h⟩ := Option.bind_eq_some_iff.mp h
  cases h
  exact ⟨forward, resolved, hforward, hsplit, hwritten⟩

theorem ends_invert (hone : d.decodeOne delta.payload = .ok op)
    (hspec : c.specFor op.tool = some spec) (htemplate : spec.arguments = some template) :
    Prog.Ends (c.deployed d) (invert delta pre) s (fun _ => True) fun outcome s' =>
      ∀ inverse reads, outcome = .inverted inverse reads →
        ∃ position contents forward resolved pending arguments,
          EscrowedFrom d s s' op spec template inverse position contents forward resolved pending
            arguments := by
  apply Prog.Ends.bind
  apply Prog.Ends.ask
  apply Prog.Ends.bind
  apply ends_operationOf trivial
  intro op' position hone' hplace
  obtain rfl := Except.ok.inj (hone.symm.trans hone')
  refine .ite (fun _ => .throw trivial) fun _ => ?_
  rw [deployed_specFor, hspec]
  refine .ite (fun _ => .throw trivial) fun hsound => ?_
  have hentry : c.entryFault op.tool = .ok () := deployed_entrySound (by simpa using hsound)
  apply Prog.Ends.bind
  apply ends_readPrior.mono
  rintro answer s₁ ⟨request, rfl, hanswer⟩
  cases answer with
  | error fault => exact .ite (fun _ => .throw trivial) fun _ => .pure fun _ _ h => by cases h
  | ok contents =>
    apply Prog.Ends.bind
    apply Prog.Ends.ask
    refine .ite (fun _ => ?_) fun _ => .ite (fun _ => .throw trivial) fun _ => .pure fun _ _ h => by cases h
    have htemplate' : spec.declared.template = some fun arguments contents =>
        (template.resolveSplit arguments contents).map fun split => (split.1, owing split.2) :=
      congrArg (Option.map _) htemplate
    rw [restoreOp, htemplate']
    dsimp only
    cases hsplit : template.resolveSplit op.arguments contents with
    | none => exact .pure fun _ _ h => by cases h
    | some split =>
      obtain ⟨arguments, pending⟩ := split
      obtain ⟨forward, resolved, hforward, hmembers, hwritten⟩ := resolveSplit_eq_some hsplit
      apply Prog.Ends.bind
      refine .orThrow (fun _ => trivial) fun payload hpayload => ?_
      refine .ite (fun _ => .pure fun _ _ h => by cases h) fun _ => .pure ?_
      rintro inverse reads hinverse
      cases hinverse
      exact ⟨position, contents, forward, resolved, pending, arguments, hplace,
        ⟨request, rfl, hanswer⟩, hforward, hmembers, hwritten, named_of_sound hspec hentry, rfl,
        hpayload⟩

omit [SerdeJson] [Sha1] in
theorem decodeOne_of_encode (hcodec : d.RoundTrips) {payload : Bytes}
    (hencode : d.encode [op] = some payload) (hnamed : op.tool.isEmpty = false) :
    d.decodeOne payload = .ok op := by
  have hformed : [op].all McpOp.wellFormed = true := by
    rw [List.all_cons, List.all_nil, McpOp.wellFormed, hnamed]
    rfl
  have hlength : ¬ maxOps < [op].length := Nat.lt_irrefl 1
  rw [Deployment.decodeOne, hcodec _ _ hencode]
  dsimp only
  rw [if_neg hlength, if_pos hformed]

omit [SerdeJson] [Sha1] in
theorem named_of_decodeOne {payload : Bytes} (h : d.decodeOne payload = .ok op) :
    op.tool.isEmpty = false := by
  rw [Deployment.decodeOne] at h
  split at h
  next => cases h
  next ops _ =>
    split at h
    next => cases h
    next =>
      split at h
      next => cases h
      next first rest =>
        split at h
        next hformed =>
          cases h
          rw [List.all_cons, Bool.and_eq_true, McpOp.wellFormed, Bool.not_eq_true'] at hformed
          exact hformed.1
        next => cases h

omit [Sha1] in
theorem completeInverse_of_decodeOne (hsubstrate : inverse.substrate = .mcp)
    (hone : d.decodeOne inverse.payload = .ok op) (observation : Bytes) :
    completeInverse d inverse observation =
      if op.pending.isEmpty then .ok (.ok inverse)
      else
        match (SerdeJson.fromSlice op.arguments).bind Json.asObject with
        | none => .ok (.error .argumentsAreNotTheObjectThisAdapterWrote)
        | some arguments =>
          match fill observation op.pending arguments with
          | none => .ok (.error .observationDidNotCarryADeclaredMember)
          | some arguments => completed d op.locator op.tool arguments := by
  rw [completeInverse, if_neg (not_not.mpr hsubstrate), hone]

omit [SerdeJson] [Sha1] in
theorem needsCompletion_of_decodeOne (hsubstrate : inverse.substrate = .mcp)
    (hone : d.decodeOne inverse.payload = .ok op) :
    needsCompletion d inverse = .ok (!op.pending.isEmpty) := by
  rw [needsCompletion, if_neg (not_not.mpr hsubstrate), hone]
  rfl

omit [Sha1] in
theorem completed_eq_ok {locator tool : Text} {arguments : List (Text × Json)}
    (h : completed d locator tool arguments = .ok (.ok inverse)) :
    inverse.substrate = .mcp ∧
      ∃ written, d.encode [⟨written, locator, [], tool⟩] = some inverse.payload := by
  rw [completed] at h
  split at h
  next => cases h
  next written _ =>
    split at h
    next => cases h
    next payload hpayload =>
      split at h
      next => cases h
      next =>
        cases h
        exact ⟨rfl, written, hpayload⟩

/-- What owes nothing is left as it is. -/
def Settled (d : Deployment) (inverse : PlannedDelta) : Prop :=
  needsCompletion d inverse = .ok false ∧
    ∀ observation, completeInverse d inverse observation = .ok (.ok inverse)

omit [Sha1] in
theorem settled_of_decodeOne (hsubstrate : inverse.substrate = .mcp)
    (hone : d.decodeOne inverse.payload = .ok op) (hpending : op.pending.isEmpty = true) :
    Settled d inverse := by
  constructor
  · rw [needsCompletion_of_decodeOne hsubstrate hone, hpending]
    rfl
  · intro observation
    rw [completeInverse_of_decodeOne hsubstrate hone, if_pos hpending]

omit [Sha1] in
theorem settled_of_completeInverse (hcodec : d.RoundTrips) {whole : PlannedDelta}
    {observation : Bytes} (hone : d.decodeOne inverse.payload = .ok op)
    (h : completeInverse d inverse observation = .ok (.ok whole)) : Settled d whole := by
  have hsubstrate : inverse.substrate = .mcp := by
    by_contra hne
    rw [completeInverse, if_pos hne] at h
    cases h
  rw [completeInverse_of_decodeOne hsubstrate hone] at h
  split at h
  next hpending =>
    cases h
    exact settled_of_decodeOne hsubstrate hone hpending
  next =>
    split at h
    next => cases h
    next =>
      split at h
      next => cases h
      next =>
        obtain ⟨hmcp, written, hencode⟩ := completed_eq_ok h
        have hnamed := named_of_decodeOne hone
        exact settled_of_decodeOne hmcp (decodeOne_of_encode hcodec hencode hnamed) rfl

/-- An inverse that is escrowed in two phases is the restore call that its template declares: if it
owes nothing it is one, and otherwise the members that the answer supplies, put behind the others,
make it the one that would have been escrowed had the answer been there, or it is refused for what
that one lacks. Its members are those that the template gives in its own order. What comes of it owes
nothing any more. -/
theorem completion_is_the_restore_at_once (hcodec : d.RoundTrips)
    (hone : d.decodeOne delta.payload = .ok op) (hspec : c.specFor op.tool = some spec)
    (htemplate : spec.arguments = some template)
    (hinverted : invert delta pre (c.deployed d) s = (.ok (.inverted inverse reads), s')) :
    ∃ position contents forward resolved pending arguments,
      EscrowedFrom d s s' op spec template inverse position contents forward resolved pending
        arguments ∧
      needsCompletion d inverse = .ok template.owes ∧
      (template.owes = false → Settled d inverse) ∧
      (template.owes = true → SerdeJson.fromSlice arguments = some (.object resolved) →
        ∀ observation, completeInverse d inverse observation =
          restoreAtOnce d position.locator spec.restoredBy
            (prompt template.arguments ++ late template.arguments) forward contents observation) ∧
      (SerdeJson.InsertsMembers → ∀ observation,
        (resolveAll forward contents observation
            (prompt template.arguments ++ late template.arguments) []).map Multiset.ofList =
          (resolveAll forward contents observation template.arguments []).map Multiset.ofList) ∧
      ∀ observation whole, completeInverse d inverse observation = .ok (.ok whole) →
        Settled d whole := by
  have hends := @ends_invert _ _ c d s delta pre op spec template hone hspec htemplate
  rw [Prog.Ends, hinverted] at hends
  obtain ⟨position, contents, forward, resolved, pending, arguments, hescrow⟩ :=
    hends inverse reads rfl
  have hone' := decodeOne_of_encode hcodec hescrow.payload hescrow.named
  have hempty := owing_isEmpty hescrow.split
  refine ⟨position, contents, forward, resolved, pending, arguments, hescrow, ?_, ?_, ?_, ?_, ?_⟩
  · rw [needsCompletion_of_decodeOne hescrow.substrate hone', hempty, Bool.not_not]
  · intro howes
    apply settled_of_decodeOne hescrow.substrate hone'
    rw [hempty, howes]
    rfl
  · intro howes hback observation
    rw [completeInverse_of_decodeOne hescrow.substrate hone', hempty, howes, hback]
    dsimp only [Option.bind_some, Json.asObject]
    rw [fill_splitMembers hescrow.split]
    rfl
  · exact fun hinserts observation => members_of_perm hinserts (perm_prompt_late template.arguments)
      (nodup_of_ascending template.ascending)
  · exact fun observation whole h => settled_of_completeInverse hcodec hone' h

end Escrowed

namespace Issues

open Notes (quoted emptyObject answer written payload start)
open DagCbor (utf8 encodeText headBytes)

/-- A member whose value is a text, as it is written. -/
def spelled : Text × Json → Option Text
  | (name, .string text) => some (quoted name ++ ':' :: quoted text)
  | _ => none

scoped instance serdeJson : SerdeJson where
  fromSlice bytes :=
    if bytes = emptyObject then some (.object [])
    else if bytes = answer "b" then some (.object [("id".toList, .string "b".toList)])
    else if bytes = written "state".toList "closed".toList then
      some (.object [("state".toList, .string "closed".toList)])
    else none
  toVec
    | .object members => (members.mapM spelled).map fun parts =>
      utf8 (String.ofList ('\x7b' :: (List.intercalate [','] parts) ++ ['\x7d']))
    | _ => none
  pointer := Json.pointer
  insert := Json.insert
  floatText _ := []

scoped instance sha1 : Sha1 where
  digest _ := []

theorem insertsMembers : SerdeJson.InsertsMembers :=
  fun _ _ _ h => .of_eq (Json.insert_of_notMem h)

def position : Position := ⟨"mcp://h".toList, "i".toList⟩

/-- The name of an issue is owed, and comes before the state that it is put in. -/
def template : RestoreTemplate where
  arguments := [("id".toList, .doResult "/id".toList), ("state".toList, .const "closed".toList)]
  ascending := List.pairwise_pair.mpr (by decide)

theorem ascending_nil : Ascending ([] : List (Text × CasRead)) := List.Pairwise.nil

/-- An issue is closed by the name that opening it answers. -/
def close : RestoreSpec := ⟨"close".toList, some template, none⟩

def catalogue : Catalogue where
  restores := [("open".toList, close)]
  restores_ascending := List.pairwise_singleton _ _
  onReadFailureRefuses := true
  casReads := []
  casReads_ascending := ascending_nil

def opens : McpOp := ⟨emptyObject, position.locator, [], "open".toList⟩

/-- The close call that is still owed the name of the issue. -/
def closes : McpOp :=
  ⟨written "state".toList "closed".toList, position.locator, [("id".toList, "do_result:/id".toList)],
    "close".toList⟩

/-- The close call of an issue, its name behind its state. -/
def closed : McpOp :=
  ⟨utf8 "\x7b\"state\":\"closed\",\"id\":\"b\"\x7d", position.locator, [], "close".toList⟩

/-- The canonical DAG-CBOR of the call that is owed a name. -/
def closesPayload : Bytes :=
  [0x81, 0xa4] ++ encodeText "tool" ++ encodeText "close" ++ encodeText "locator" ++
    encodeText (String.ofList position.locator) ++ encodeText "pending" ++ [0xa1] ++
    encodeText "id" ++ [0xa1] ++ encodeText "do_result" ++ encodeText "/id" ++
    encodeText "arguments" ++ headBytes 2 closes.arguments.length ++ closes.arguments

def server : Deployment where
  answers _ _ := .ok emptyObject
  casReadFor _ := none
  specFor _ := none
  entrySound _ := true
  onReadFailureRefuses := true
  encode ops :=
    if ops = [opens] then some (payload opens)
    else if ops = [closes] then some closesPayload
    else if ops = [closed] then some (payload closed)
    else none
  decode bytes :=
    if bytes = payload opens then some [opens]
    else if bytes = closesPayload then some [closes]
    else if bytes = payload closed then some [closed]
    else none
  decodeGoal _ := none
  restoreArguments _ _ := none
  contentDigest contents := ⟨contents.map UInt8.toNat⟩
  snapshotId _ _ := ⟨[]⟩
  elided scope := scope

theorem server_roundTrips : server.RoundTrips := by
  intro ops bytes h
  have hopens : closesPayload ≠ payload opens := by decide
  have hclosed : payload closed ≠ payload opens ∧ payload closed ≠ closesPayload := by
    decide
  simp only [server] at h ⊢
  split at h
  next heq =>
    cases h
    rw [if_pos rfl, heq]
  next =>
    split at h
    next heq =>
      cases h
      rw [if_neg hopens, if_pos rfl, heq]
    next =>
      split at h
      next heq =>
        cases h
        rw [if_neg hclosed.1, if_neg hclosed.2, if_pos rfl, heq]
      next => cases h

def delta : PlannedDelta := ⟨.mcp, payload opens, none⟩

def seen : ObjectSnapshot := ⟨⟨[]⟩, .mcp, String.ofList position.locator, ⟨[]⟩, .bytes⟩

def owingInverse : PlannedDelta := ⟨.mcp, closesPayload, none⟩

end Issues

open Notes (start answer written payload emptyObject)
open Issues

/-- The name that opening an issue answers makes the call that closes it, behind the state that the
template gives behind it. -/
theorem completion_is_the_restore_at_once_issue :
    completeInverse server owingInverse (answer "b") = .ok (.ok ⟨.mcp, payload closed, none⟩) ∧
      (resolveAll [] emptyObject (answer "b") template.arguments []).map Multiset.ofList =
        some (Multiset.ofList
          [("state".toList, .string "closed".toList), ("id".toList, .string "b".toList)]) := by
  have hanswer : (invert delta seen (catalogue.deployed server) start).1 =
      .ok (.inverted owingInverse [⟨server.contentDigest emptyObject, "i"⟩]) := by
    decide
  have hone : server.decodeOne delta.payload = .ok opens := by
    decide
  have hspec : catalogue.specFor opens.tool = some close := rfl
  have hplace : opens.position = .ok position := by
    decide
  obtain ⟨position', contents, forward, resolved, pending, arguments, hescrow, _, _, hwhole, horder,
      _⟩ := completion_is_the_restore_at_once server_roundTrips hone hspec rfl (Prod.ext hanswer rfl)
  obtain rfl := Except.ok.inj (hplace.symm.trans hescrow.place)
  obtain ⟨request, _, hread⟩ := hescrow.read
  obtain rfl : emptyObject = contents := Except.ok.inj hread
  have hforward : (SerdeJson.fromSlice opens.arguments).bind Json.asObject = some [] := rfl
  obtain rfl := Option.some.inj (hforward.symm.trans hescrow.forward_eq)
  have hsplit : splitMembers [] emptyObject template.arguments [] [] =
      some ([("state".toList, .string "closed".toList)], late template.arguments) := rfl
  obtain ⟨rfl, rfl⟩ := Prod.mk.inj (Option.some.inj (hsplit.symm.trans hescrow.split))
  have hwritten : SerdeJson.toVec (.object [("state".toList, .string "closed".toList)]) =
      some (written "state".toList "closed".toList) := rfl
  obtain rfl := Option.some.inj (hwritten.symm.trans hescrow.written)
  have hback : SerdeJson.fromSlice (written "state".toList "closed".toList) =
      some (.object [("state".toList, .string "closed".toList)]) :=
    (if_neg (by decide)).trans ((if_neg (by decide)).trans (if_pos rfl))
  have hobserved : SerdeJson.fromSlice (answer "b") =
      some (.object [("id".toList, .string "b".toList)]) :=
    (if_neg (by decide)).trans (if_pos rfl)
  have hlate : (ArgSource.doResult "/id".toList).resolveAtOnce [] emptyObject (answer "b") =
      some (.string "b".toList) := by
    have howed : (ArgSource.doResult "/id".toList).isDoResult = true := rfl
    rw [ArgSource.resolveAtOnce, if_pos howed, ArgSource.resolveFromObservation, hobserved]
    rfl
  have hall : resolveAll [] emptyObject (answer "b")
      (prompt template.arguments ++ late template.arguments) [] =
        some [("state".toList, .string "closed".toList), ("id".toList, .string "b".toList)] := by
    have howed : late template.arguments = [("id".toList, .doResult "/id".toList)] := rfl
    rw [resolveAll_append, resolved_of_splitMembers hsplit, Option.bind_some, howed,
      resolveAll_cons, hlate]
    rfl
  refine ⟨?_, ?_⟩
  · rw [hwhole rfl hback, restoreAtOnce, hall]
    decide
  · rw [← horder insertsMembers, hall]
    rfl

end Tracefold.Mcp.Declared
