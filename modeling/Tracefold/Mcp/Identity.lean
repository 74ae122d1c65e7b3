import Mathlib.Tactic.Common
import Tracefold.Mcp.Reads

/-! The object an escrow is of: what the identity of a declared read spells, and what of it the answer
has said. -/

namespace Tracefold.Mcp.Declared

open Library Locator

section Spelling

variable [SerdeJson] {answered forward : Json} {parts : List IdentityPart}

def IdentityPart.isAnswer : IdentityPart → Bool
  | .answer _ => true
  | _ => false

/-- The text of a part, and the empty one for a part of the answer. -/
def IdentityPart.hollow (answered forward : Json) (part : IdentityPart) : Option Text :=
  (part.text answered forward).map fun text => if part.isAnswer then [] else text

/-- The text of a part that does not wait for an answer. -/
def IdentityPart.own (forward : Json) : IdentityPart → Option Text
  | .literal text => some text
  | .answer _ => some []
  | .forward member => (forward.get member).bind identityText

/-- What some parts spell, each by a text of its own. -/
def spelling (text : IdentityPart → Option Text) (parts : List IdentityPart) : Option Text :=
  (parts.mapM text).map List.flatten

omit [SerdeJson] in
theorem spelling_nil {text : IdentityPart → Option Text} : spelling text [] = some [] := rfl

omit [SerdeJson] in
theorem spelling_cons {text : IdentityPart → Option Text} {part : IdentityPart} :
    spelling text (part :: parts) =
      (text part).bind fun t => (spelling text parts).map fun rest => t ++ rest := by
  rw [spelling, spelling, List.mapM_cons]
  cases text part with
  | none => rfl
  | some t =>
    cases parts.mapM text with
    | none => rfl
    | some texts => rfl

/-- Whether a part of the answer spells anything. -/
def readsAnswer (answered forward : Json) (parts : List IdentityPart) : Bool :=
  parts.any fun part => part.isAnswer && (part.text answered forward).any fun text => !text.isEmpty

theorem readsAnswer_cons {part : IdentityPart} :
    readsAnswer answered forward (part :: parts) =
      ((part.isAnswer && (part.text answered forward).any fun text => !text.isEmpty) ||
        readsAnswer answered forward parts) := List.any_cons

theorem spellParts_cons {part : IdentityPart} {text spelled : Text} {read : Bool}
    (h : part.text answered forward = some text) :
    spellParts answered forward (part :: parts) spelled read =
      spellParts answered forward parts (spelled ++ text)
        (read || (part.isAnswer && !text.isEmpty)) := by
  cases part <;> simp [spellParts, h, IdentityPart.isAnswer]

theorem spellParts_eq_ok {spelled spelled' : Text} {read read' : Bool} :
    spellParts answered forward parts spelled read = .ok (spelled', read') ↔
      ∃ text, spelling (IdentityPart.text answered forward) parts = some text ∧
        spelled' = spelled ++ text ∧ read' = (read || readsAnswer answered forward parts) := by
  induction parts generalizing spelled read with
  | nil =>
    simp [spellParts, spelling_nil, readsAnswer, eq_comm]
  | cons part rest ih =>
    rw [spelling_cons]
    cases htext : part.text answered forward with
    | none => simp [spellParts, htext]
    | some text =>
      rw [spellParts_cons htext, ih, readsAnswer_cons, htext, Option.any_some]
      simp only [Option.bind_some, Option.map_eq_some_iff, Bool.or_assoc]
      constructor
      · rintro ⟨more, hmore, hspelled, hread'⟩
        exact ⟨text ++ more, ⟨more, hmore, rfl⟩, by rw [hspelled, List.append_assoc], hread'⟩
      · rintro ⟨_, ⟨more, hmore, rfl⟩, hspelled, hread'⟩
        exact ⟨more, hmore, by rw [hspelled, List.append_assoc], hread'⟩

theorem resourceFrom_eq_ok {identity : ObjectIdentity} {contents arguments : Bytes} {spelled : Text} :
    identity.resourceFrom contents arguments = .ok spelled ↔
      ∃ answered forward, SerdeJson.fromSlice contents = some answered ∧
        SerdeJson.fromSlice arguments = some forward ∧
        spelling (IdentityPart.text answered forward) identity.parts = some spelled ∧
        readsAnswer answered forward identity.parts = true := by
  rw [ObjectIdentity.resourceFrom]
  cases hanswered : SerdeJson.fromSlice contents with
  | none => simp
  | some answered =>
    cases hforward : SerdeJson.fromSlice arguments with
    | none => simp
    | some forward =>
      dsimp only
      constructor
      · intro h
        split at h
        next => cases h
        next spelled' read hparts =>
          split_ifs at h with hread
          cases h
          obtain ⟨text, htext, rfl, rfl⟩ := spellParts_eq_ok.mp hparts
          exact ⟨answered, forward, rfl, rfl, htext, by simpa using hread⟩
      · rintro ⟨_, _, ⟨⟩, ⟨⟩, hspelled, hread⟩
        have hparts : spellParts answered forward identity.parts [] false = .ok (spelled, true) :=
          spellParts_eq_ok.mpr ⟨spelled, hspelled, rfl, by rw [hread, Bool.false_or]⟩
        rw [hparts]
        rfl

/-- Where all that the answer spells is empty, it spells what it does without the answer. -/
theorem spelling_hollow (h : readsAnswer answered forward parts = false) :
    spelling (IdentityPart.hollow answered forward) parts =
      spelling (IdentityPart.text answered forward) parts := by
  induction parts with
  | nil => rfl
  | cons part rest ih =>
    rw [readsAnswer_cons, Bool.or_eq_false_iff] at h
    rw [spelling_cons, spelling_cons, ih h.2, IdentityPart.hollow]
    cases htext : part.text answered forward with
    | none => rfl
    | some text =>
      rw [htext, Option.any_some] at h
      rw [Option.map_some]
      split
      next hanswer =>
        have hempty : text = [] := by simpa [hanswer] using h.1
        rw [hempty]
      next => rfl

theorem hollow_eq_own {spelled : Text}
    (h : spelling (IdentityPart.text answered forward) parts = some spelled) :
    spelling (IdentityPart.hollow answered forward) parts =
      spelling (IdentityPart.own forward) parts := by
  induction parts generalizing spelled with
  | nil => rfl
  | cons part rest ih =>
    rw [spelling_cons, Option.bind_eq_some_iff] at h
    obtain ⟨text, htext, h⟩ := h
    obtain ⟨more, hmore, _⟩ := Option.map_eq_some_iff.mp h
    have hpart : part.hollow answered forward = part.own forward := by
      rw [IdentityPart.hollow, htext, Option.map_some]
      cases part with
      | literal literal =>
        cases htext
        rfl
      | answer pointer => rfl
      | forward member => exact htext.symm
    rw [spelling_cons, spelling_cons, ih hmore, hpart]

end Spelling

section Bound

variable [SerdeJson] {identity : ObjectIdentity} {contents arguments : Bytes} {resource : Text}

/-- The answer names the resource: what is spelled of it and of the forward call normalizes to the
resource, and what is spelled with nothing for the answer does not. -/
def Bears (identity : ObjectIdentity) (contents arguments : Bytes) (resource : Text) : Prop :=
  ∃ answered forward spelled, SerdeJson.fromSlice contents = some answered ∧
    SerdeJson.fromSlice arguments = some forward ∧
    spelling (IdentityPart.text answered forward) identity.parts = some spelled ∧
    normalize spelled = resource ∧
    ∀ hollow, spelling (IdentityPart.hollow answered forward) identity.parts = some hollow →
      normalize hollow ≠ resource

/-- The literals of an identity and its members of the forward call spell the resource alone. -/
def SpelledAlone (identity : ObjectIdentity) (arguments : Bytes) (resource : Text) : Prop :=
  ∃ forward own, SerdeJson.fromSlice arguments = some forward ∧
    spelling (IdentityPart.own forward) identity.parts = some own ∧ normalize own = resource

/-- What the adapter asks of an answer. -/
def Passes (identity : ObjectIdentity) (contents arguments : Bytes) (resource : Text) : Prop :=
  ∃ spelled, identity.resourceFrom contents arguments = .ok spelled ∧ normalize spelled = resource

theorem Bears.passes (h : Bears identity contents arguments resource) :
    Passes identity contents arguments resource := by
  obtain ⟨answered, forward, spelled, hanswered, hforward, hspelled, hresource, hhollow⟩ := h
  refine ⟨spelled, resourceFrom_eq_ok.mpr ⟨answered, forward, hanswered, hforward, hspelled, ?_⟩,
    hresource⟩
  by_contra hread
  rw [Bool.not_eq_true] at hread
  exact hhollow spelled ((spelling_hollow hread).trans hspelled) hresource

theorem Passes.bears_iff (h : Passes identity contents arguments resource) :
    Bears identity contents arguments resource ↔ ¬ SpelledAlone identity arguments resource := by
  obtain ⟨spelled, hfrom, hresource⟩ := h
  obtain ⟨answered, forward, hanswered, hforward, hspelled, _⟩ := resourceFrom_eq_ok.mp hfrom
  have hown := hollow_eq_own hspelled
  constructor
  · rintro ⟨answered', forward', _, hanswered', hforward', _, _, hhollow⟩ ⟨_, own, hsame, hspell, heq⟩
    obtain rfl := Option.some.inj (hanswered.symm.trans hanswered')
    obtain rfl := Option.some.inj (hforward.symm.trans hforward')
    obtain rfl := Option.some.inj (hforward.symm.trans hsame)
    exact hhollow own (hown.trans hspell) heq
  · intro halone
    refine ⟨answered, forward, spelled, hanswered, hforward, hspelled, hresource, ?_⟩
    intro hollow hhollow heq
    exact halone ⟨forward, hollow, hforward, hown.symm.trans hhollow, heq⟩

theorem bears_iff : Bears identity contents arguments resource ↔
    Passes identity contents arguments resource ∧ ¬ SpelledAlone identity arguments resource := by
  constructor
  · exact fun h => ⟨h.passes, h.passes.bears_iff.mp h⟩
  · exact fun h => h.1.bears_iff.mpr h.2

theorem boundTo_iff [Sha1] {op : McpOp} {position : Position} {read : PriorRead} {restore : Mcp.RestoreSpec}
    (h : restore.readBy = some read.declared) :
    boundTo restore op position contents = true ↔
      Passes read.identity contents op.arguments position.resource := by
  have hfrom : read.declared.resourceFrom contents op.arguments =
      (read.identity.resourceFrom contents op.arguments).toOption := rfl
  rw [boundTo, h]
  dsimp only
  rw [hfrom, Passes]
  cases read.identity.resourceFrom contents op.arguments with
  | error fault => simp [Except.toOption]
  | ok spelled => simp [Except.toOption]

end Bound

section Escrow

variable {d : Deployment} {s : Wire} {op : McpOp} {position : Position} {contents : Bytes}

/-- What is attested of a read. -/
def attestedRead (d : Deployment) (position : Position) (contents : Bytes) : List ReadEntry :=
  [⟨d.contentDigest contents, String.ofList position.resource⟩]

/-- An answer of another object is refused, or nothing is known. -/
def unboundResult (d : Deployment) : Except Error InvertOutcome :=
  if d.onReadFailureRefuses then .error .objectUnbound else .ok (.undetermined [])

/-- No answer is refused, or nothing is known. -/
def unansweredResult (d : Deployment) : Except Error InvertOutcome :=
  if d.onReadFailureRefuses then .error .readFailure else .ok (.undetermined [])

theorem escrowed_unbound {restore : Mcp.RestoreSpec} (h : boundTo restore op position contents = false) :
    escrowed restore op position contents d s = (unboundResult d, s) := by
  rw [escrowed, unboundResult]
  change (if boundTo restore op position contents = true then _ else _ : Road InvertOutcome) d s = _
  rw [h, if_neg Bool.false_ne_true]
  split_ifs
  · rfl
  · rfl

theorem restoreOp_error {restore : Mcp.RestoreSpec} {e : Error}
    (h : restoreOp d restore op position contents = .error e) : e = .notDigestible := by
  rw [restoreOp] at h
  split at h
  next =>
    split at h
    next => exact (Except.error.inj h).symm
    next => cases h
  next =>
    split at h
    next => cases h
    next => cases h

theorem escrowed_bound {restore : Mcp.RestoreSpec} (h : boundTo restore op position contents = true) :
    ∃ result, escrowed restore op position contents d s = (result, s) ∧
      result ≠ .error .objectUnbound ∧
      ∀ outcome, result = .ok outcome → outcome.reads = attestedRead d position contents := by
  have hattested : ∀ {outcome : InvertOutcome}, outcome.reads = attestedRead d position contents →
      ∀ outcome', (.ok outcome : Except Error InvertOutcome) = .ok outcome' →
        outcome'.reads = attestedRead d position contents := by
    intro outcome hreads outcome' heq
    rwa [← Except.ok.inj heq]
  rw [escrowed]
  change ∃ result,
    (if boundTo restore op position contents = true then _ else _ : Road InvertOutcome) d s = _ ∧ _
  rw [if_pos h]
  cases hrestore : restoreOp d restore op position contents with
  | error e =>
    rw [restoreOp_error hrestore]
    exact ⟨_, rfl, nofun, nofun⟩
  | ok out =>
    cases out with
    | none => exact ⟨_, rfl, nofun, hattested rfl⟩
    | some out =>
      dsimp only
      cases hpayload : d.encode [out] with
      | none => exact ⟨_, rfl, nofun, nofun⟩
      | some payload =>
        rw [Prog.bind_of_ok (Prog.orThrow_eq_ok.mpr ⟨rfl, rfl⟩)]
        split_ifs
        · exact ⟨_, rfl, nofun, hattested rfl⟩
        · exact ⟨_, rfl, nofun, hattested rfl⟩

end Escrow

section Inversion

variable [SerdeJson] [Sha1]

/-- The delta is a call, at a position, of a tool that is declared with a read. -/
structure DeclaredWithRead (c : Catalogue) (d : Deployment) (delta : PlannedDelta) (op : McpOp)
    (position : Position) (spec : RestoreSpec) (read : PriorRead) : Prop where
  one : d.decodeOne delta.payload = .ok op
  place : op.position = .ok position
  restore : c.specFor op.tool = some spec
  readBy : spec.readBy = some read

/-- What is asked before the read is sent. -/
structure Admitted (c : Catalogue) (delta : PlannedDelta) (pre : ObjectSnapshot) (op : McpOp)
    (position : Position) (read : PriorRead) (arguments : Bytes) : Prop where
  substrate : delta.substrate = .mcp
  named : normalize pre.locator.toList = position.locator
  sound : c.entryFault op.tool = .ok ()
  arguments_eq : read.argumentsFromForward op.arguments = some arguments

variable {c : Catalogue} {d : Deployment} {delta : PlannedDelta} {pre : ObjectSnapshot} {s : Wire}
  {op : McpOp} {position : Position} {spec : RestoreSpec} {read : PriorRead} {arguments : Bytes}

/-- The read that is declared, with the arguments of one call. -/
def PriorRead.request (read : PriorRead) (position : Position) (arguments : Bytes) : Request :=
  .readPriorByTool position.server read.byTool arguments

def asked (s : Wire) (request : Request) : Wire := { s with requests := s.requests ++ [request] }

omit [SerdeJson] [Sha1] in
theorem operationOf_eq {d : Deployment} (hone : d.decodeOne delta.payload = .ok op)
    (hplace : op.position = .ok position) :
    operationOf delta d s = (if delta.substrate = .mcp then .ok (op, position) else .error .foreignDelta, s) := by
  rw [operationOf]
  change (if delta.substrate ≠ .mcp then _ else _ : Road (McpOp × Position)) d s = _
  rw [hone]
  dsimp only
  rw [hplace]
  by_cases hmcp : delta.substrate = .mcp
  · rw [if_neg (not_not.mpr hmcp), if_pos hmcp]
    rfl
  · rw [if_pos hmcp, if_neg hmcp]
    rfl

theorem invert_admitted (h : DeclaredWithRead c d delta op position spec read)
    (hadmitted : Admitted c delta pre op position read arguments) :
    invert delta pre (c.deployed d) s =
      match d.answers s.requests (read.request position arguments) with
      | .ok contents => escrowed spec.declared op position contents (c.deployed d)
          (asked s (read.request position arguments))
      | .error _ => (unansweredResult (c.deployed d), asked s (read.request position arguments)) := by
  have hop := @operationOf_eq delta s op position (c.deployed d) h.one h.place
  rw [if_pos hadmitted.substrate] at hop
  have hread : spec.declared.readBy = some read.declared :=
    congrArg (Option.map PriorRead.declared) h.readBy
  have hsound : (c.deployed d).entrySound op.tool = true := by
    change (c.entryFault op.tool).toOption.isSome = true
    rw [hadmitted.sound]
    rfl
  rw [invert]
  change (operationOf delta >>= _ : Road InvertOutcome) (c.deployed d) s = _
  rw [Prog.bind_of_ok hop]
  dsimp only
  rw [if_neg (not_not.mpr hadmitted.named), deployed_specFor, h.restore, Option.map_some]
  dsimp only
  rw [hsound, Bool.not_true, if_neg Bool.false_ne_true]
  have hanswer : readPrior spec.declared op position (c.deployed d) s =
      (.ok (d.answers s.requests (read.request position arguments)),
        asked s (read.request position arguments)) := by
    rw [readPrior, hread]
    dsimp only
    exact Prog.bind_of_ok (Prog.orThrow_eq_ok.mpr ⟨hadmitted.arguments_eq, rfl⟩)
  rw [Prog.bind_of_ok hanswer, hread]
  cases d.answers s.requests (read.request position arguments) with
  | ok contents => rfl
  | error fault =>
    dsimp only
    rw [unansweredResult, Option.isSome_some, if_pos rfl]
    split_ifs
    · rfl
    · rfl

/-- Where something is not as it has to be, nothing is asked. -/
theorem invert_unadmitted (h : DeclaredWithRead c d delta op position spec read)
    (hnone : ∀ arguments, ¬ Admitted c delta pre op position read arguments) :
    ∃ e, invert delta pre (c.deployed d) s = (.error e, s) := by
  have hop := @operationOf_eq delta s op position (c.deployed d) h.one h.place
  have hread : spec.declared.readBy = some read.declared :=
    congrArg (Option.map PriorRead.declared) h.readBy
  rw [invert]
  change ∃ e, (operationOf delta >>= _ : Road InvertOutcome) (c.deployed d) s = _
  by_cases hsubstrate : delta.substrate = .mcp
  · rw [if_pos hsubstrate] at hop
    rw [Prog.bind_of_ok hop]
    dsimp only
    by_cases hnamed : normalize pre.locator.toList = position.locator
    · rw [if_neg (not_not.mpr hnamed), deployed_specFor, h.restore, Option.map_some]
      dsimp only
      cases hentry : (c.deployed d).entrySound op.tool with
      | false => exact ⟨_, rfl⟩
      | true =>
        cases harguments : read.argumentsFromForward op.arguments with
        | none =>
          have hstop : readPrior spec.declared op position (c.deployed d) s =
              (.error .declarationUnsound, s) := by
            rw [readPrior, hread]
            dsimp only
            apply Prog.bind_of_error
            change Prog.orThrow (read.argumentsFromForward op.arguments) _ _ _ = _
            rw [harguments]
            rfl
          exact ⟨_, Prog.bind_of_error hstop⟩
        | some arguments =>
          exact absurd ⟨hsubstrate, hnamed, deployed_entrySound hentry, harguments⟩ (hnone arguments)
    · rw [if_pos hnamed]
      exact ⟨_, rfl⟩
  · rw [if_neg hsubstrate] at hop
    exact ⟨_, Prog.bind_of_error hop⟩

/-- The escrow is of the object the change is about, by the word of the answer: an inverse comes of one
read, which alone is attested and which names the object; and an answer that does not name it, or none,
gives no inverse. -/
structure BoundByAnswer (c : Catalogue) (d : Deployment) (delta : PlannedDelta) (pre : ObjectSnapshot)
    (s : Wire) (op : McpOp) (position : Position) (read : PriorRead) : Prop where
  inverted : ∀ inverse reads s',
    invert delta pre (c.deployed d) s = (.ok (.inverted inverse reads), s') →
      ∃ arguments contents, s' = asked s (read.request position arguments) ∧
        d.answers s.requests (read.request position arguments) = .ok contents ∧
        reads = attestedRead d position contents ∧
        Bears read.identity contents op.arguments position.resource
  unbound : ∀ arguments contents result,
    invert delta pre (c.deployed d) s = (result, asked s (read.request position arguments)) →
      d.answers s.requests (read.request position arguments) = .ok contents →
        ¬ Bears read.identity contents op.arguments position.resource →
          result = unboundResult (c.deployed d)
  unanswered : ∀ arguments fault result,
    invert delta pre (c.deployed d) s = (result, asked s (read.request position arguments)) →
      d.answers s.requests (read.request position arguments) = .error fault →
        result = unansweredResult (c.deployed d)

/-- The answer would pass, and is not needed to. -/
def PassesIdly (c : Catalogue) (d : Deployment) (delta : PlannedDelta) (pre : ObjectSnapshot)
    (s : Wire) (op : McpOp) (position : Position) (read : PriorRead) : Prop :=
  SpelledAlone read.identity op.arguments position.resource ∧
    ∃ arguments contents, Admitted c delta pre op position read arguments ∧
      d.answers s.requests (read.request position arguments) = .ok contents ∧
      Passes read.identity contents op.arguments position.resource

omit [SerdeJson] [Sha1] in
theorem asked_injective {request request' : Request} (h : asked s request = asked s request') :
    request = request' := by
  have hlast := congrArg (fun s : Wire => s.requests.getLast?) h
  simpa [asked] using hlast

omit [SerdeJson] [Sha1] in
theorem ne_asked {request : Request} : s ≠ asked s request := by
  intro h
  have hlength := congrArg (fun s : Wire => s.requests.length) h
  simp [asked] at hlength

/-- Where no answer passes idly, the escrow is of the object the change is about. -/
theorem bound_of_not_idle (h : DeclaredWithRead c d delta op position spec read)
    (hadmitted : Admitted c delta pre op position read arguments)
    (hidle : ¬ PassesIdly c d delta pre s op position read) :
    BoundByAnswer c d delta pre s op position read := by
  have hread : spec.declared.readBy = some read.declared :=
    congrArg (Option.map PriorRead.declared) h.readBy
  have hrun := @invert_admitted _ _ c d delta pre s op position spec read arguments h hadmitted
  have hsame : ∀ {result result' arguments'},
      invert delta pre (c.deployed d) s = (result, asked s (read.request position arguments)) →
      invert delta pre (c.deployed d) s = (result', asked s (read.request position arguments')) →
      result' = result ∧ d.answers s.requests (read.request position arguments') =
        d.answers s.requests (read.request position arguments) := by
    intro result result' arguments' hrun hrun'
    obtain ⟨hresult, hasked⟩ := Prod.mk.inj (hrun'.symm.trans hrun)
    exact ⟨hresult, by rw [asked_injective hasked]⟩
  cases hanswer : d.answers s.requests (read.request position arguments) with
  | error fault =>
    rw [hanswer] at hrun
    dsimp only at hrun
    constructor
    · intro inverse reads s' hinverted
      rw [hrun, unansweredResult] at hinverted
      split_ifs at hinverted
      · cases hinverted
      · cases hinverted
    · intro arguments' contents result hsent hcontents
      cases hcontents.symm.trans ((hsame hrun hsent).2.trans hanswer)
    · intro arguments' fault' result hsent _
      exact (hsame hrun hsent).1
  | ok contents =>
    rw [hanswer] at hrun
    dsimp only at hrun
    by_cases hpasses : Passes read.identity contents op.arguments position.resource
    · obtain ⟨result, hresult, _, hattested⟩ :=
        @escrowed_bound (c.deployed d) _ _ _ _ _ ((boundTo_iff hread).mpr hpasses)
      rw [hresult] at hrun
      have hbears : Bears read.identity contents op.arguments position.resource :=
        bears_iff.mpr ⟨hpasses, fun halone =>
          hidle ⟨halone, arguments, contents, hadmitted, hanswer, hpasses⟩⟩
      constructor
      · intro inverse reads s' hinverted
        obtain ⟨hout, hstate⟩ := Prod.mk.inj (hinverted.symm.trans hrun)
        exact ⟨arguments, contents, hstate, hanswer, hattested _ hout.symm, hbears⟩
      · intro arguments' contents' result' hsent hcontents hnot
        cases hcontents.symm.trans ((hsame hrun hsent).2.trans hanswer)
        exact absurd hbears hnot
      · intro arguments' fault result' hsent hfault
        cases hfault.symm.trans ((hsame hrun hsent).2.trans hanswer)
    · have hunbound : boundTo spec.declared op position contents = false := by
        rw [← Bool.not_eq_true, boundTo_iff hread]
        exact hpasses
      rw [escrowed_unbound hunbound] at hrun
      constructor
      · intro inverse reads s' hinverted
        rw [hrun, unboundResult] at hinverted
        split_ifs at hinverted
        · cases hinverted
        · cases hinverted
      · intro arguments' contents' result' hsent _ _
        exact (hsame hrun hsent).1
      · intro arguments' fault result' hsent hfault
        cases hfault.symm.trans ((hsame hrun hsent).2.trans hanswer)

theorem bound_of_unadmitted (h : DeclaredWithRead c d delta op position spec read)
    (hnone : ∀ arguments, ¬ Admitted c delta pre op position read arguments) :
    BoundByAnswer c d delta pre s op position read := by
  obtain ⟨e, hrun⟩ := @invert_unadmitted _ _ c d delta pre s op position spec read h hnone
  constructor
  · intro inverse reads s' hinverted
    rw [hrun] at hinverted
    cases hinverted
  · intro arguments contents result hsent
    rw [hrun] at hsent
    exact absurd (Prod.mk.inj hsent).2 ne_asked
  · intro arguments fault result hsent
    rw [hrun] at hsent
    exact absurd (Prod.mk.inj hsent).2 ne_asked

/-- An answer that passes idly is escrowed, and not refused. -/
theorem not_bound_of_idle (h : DeclaredWithRead c d delta op position spec read)
    (hidle : PassesIdly c d delta pre s op position read) :
    ¬ BoundByAnswer c d delta pre s op position read := by
  intro hbound
  obtain ⟨halone, arguments, contents, hadmitted, hanswer, hpasses⟩ := hidle
  have hread : spec.declared.readBy = some read.declared :=
    congrArg (Option.map PriorRead.declared) h.readBy
  have hrun := @invert_admitted _ _ c d delta pre s op position spec read arguments h hadmitted
  rw [hanswer] at hrun
  dsimp only at hrun
  obtain ⟨result, hresult, herror, hattested⟩ :=
    @escrowed_bound (c.deployed d) _ _ _ _ _ ((boundTo_iff hread).mpr hpasses)
  rw [hresult] at hrun
  have hnot : ¬ Bears read.identity contents op.arguments position.resource :=
    fun hbears => (bears_iff.mp hbears).2 halone
  have hout := hbound.unbound arguments contents result hrun hanswer hnot
  rw [unboundResult] at hout
  split_ifs at hout
  · exact herror hout
  · cases hattested _ hout

/-- The escrow is of the object the change is about, by the word of the answer, unless an answer passes
where the identity spells the object alone. -/
theorem bound_by_answer_iff (h : DeclaredWithRead c d delta op position spec read) :
    BoundByAnswer c d delta pre s op position read ↔
      ¬ PassesIdly c d delta pre s op position read := by
  constructor
  · exact fun hbound hidle => not_bound_of_idle h hidle hbound
  · intro hidle
    by_cases hadmitted : ∃ arguments, Admitted c delta pre op position read arguments
    · obtain ⟨arguments, hadmitted⟩ := hadmitted
      exact bound_of_not_idle h hadmitted hidle
    · exact bound_of_unadmitted h (not_exists.mp hadmitted)

end Inversion

namespace Notes

open DagCbor (utf8)

/-- A text of JSON, its quotation marks escaped. -/
def quoted (text : Text) : Text :=
  '"' :: text.flatMap (fun c => if c = '"' then ['\\', '"'] else [c]) ++ ['"']

/-- An object of one member, which is a text. -/
def object (member text : Text) : Text := '\x7b' :: quoted member ++ ':' :: quoted text ++ ['\x7d']

def written (member text : Text) : Bytes := utf8 (String.ofList (object member text))

def emptyObject : Bytes := utf8 "\x7b\x7d"

/-- The answer of a server that names a note. -/
def answer (id : String) : Bytes := written "id".toList id.toList

scoped instance serdeJson : SerdeJson where
  fromSlice bytes :=
    if bytes = emptyObject then some (.object [])
    else if bytes = answer "b" then some (.object [("id".toList, .string "b".toList)])
    else if bytes = answer "." then some (.object [("id".toList, .string ".".toList)])
    else none
  toVec
    | .object [] => some emptyObject
    | .object [(member, .string text)] => some (written member text)
    | _ => none
  pointer := Json.pointer
  insert := Json.insert
  floatText _ := []

scoped instance sha1 : Sha1 where
  digest _ := []

def read (directory : String) : PriorRead where
  byTool := "get".toList
  arguments := ⟨[], List.Pairwise.nil⟩
  identity := ⟨[.literal directory.toList, .answer "/id".toList]⟩

def restore (directory : String) : RestoreSpec where
  restoredBy := "write".toList
  arguments := some ⟨[("content".toList, .priorContentsUtf8)], List.pairwise_singleton _ _⟩
  readBy := some (read directory)

/-- The notes below a directory, which are edited, got and written. -/
def catalogue (directory : String) : Catalogue where
  restores := [("edit".toList, restore directory)]
  restores_ascending := List.pairwise_singleton _ _
  onReadFailureRefuses := true
  casReads := []
  casReads_ascending := List.Pairwise.nil

def position (note : String) : Position := ⟨"mcp://h".toList, note.toList⟩

/-- The edit of a note. -/
def edit (note : String) : McpOp := ⟨emptyObject, (position note).locator, [], "edit".toList⟩

/-- The write of what was answered of a note. -/
def kept (note id : String) : McpOp :=
  ⟨written "content".toList (object "id".toList id.toList), (position note).locator, [],
    "write".toList⟩

/-- The canonical DAG-CBOR of a call. -/
def payload (op : McpOp) : Bytes :=
  [0x81, 0xa3] ++ DagCbor.encodeText "tool" ++ DagCbor.encodeText (String.ofList op.tool) ++
    DagCbor.encodeText "locator" ++ DagCbor.encodeText (String.ofList op.locator) ++
    DagCbor.encodeText "arguments" ++ DagCbor.headBytes 2 op.arguments.length ++ op.arguments

/-- A server whose every answer names one note. -/
def server (note id : String) : Deployment where
  answers _ _ := .ok (answer id)
  casReadFor _ := none
  specFor _ := none
  entrySound _ := true
  onReadFailureRefuses := true
  encode
    | [op] => some (payload op)
    | _ => none
  decode bytes := if bytes = payload (edit note) then some [edit note] else none
  decodeGoal _ := none
  restoreArguments _ _ := none
  contentDigest contents := ⟨contents.map UInt8.toNat⟩
  snapshotId _ _ := ⟨[]⟩
  elided scope := scope

def delta (note : String) : PlannedDelta := ⟨.mcp, payload (edit note), none⟩

def seen (note : String) : ObjectSnapshot :=
  ⟨⟨[]⟩, .mcp, String.ofList (position note).locator, ⟨[]⟩, .bytes⟩

def start : Wire := ⟨[], []⟩

theorem declaredWithRead {directory note id : String}
    (hone : (server note id).decodeOne (delta note).payload = .ok (edit note))
    (hplace : (edit note).position = .ok (position note)) :
    DeclaredWithRead (catalogue directory) (server note id) (delta note) (edit note) (position note)
      (restore directory) (read directory) :=
  ⟨hone, hplace, rfl, rfl⟩

end Notes

open Notes in
/-- A note is named by what the answer spells of it, and its inverse is escrowed. -/
theorem note_is_bound :
    BoundByAnswer (catalogue "file:///a/") (server "file:///a/b" "b") (delta "file:///a/b")
        (seen "file:///a/b") start (edit "file:///a/b") (position "file:///a/b")
        (read "file:///a/") ∧
      (invert (delta "file:///a/b") (seen "file:///a/b")
        ((catalogue "file:///a/").deployed (server "file:///a/b" "b")) start).1 =
          .ok (.inverted ⟨.mcp, payload (kept "file:///a/b" "b"), none⟩
            (attestedRead (server "file:///a/b" "b") (position "file:///a/b") (answer "b"))) := by
  have hdeclared := @declaredWithRead "file:///a/" "file:///a/b" "b" (by decide) (by decide)
  refine ⟨(bound_by_answer_iff hdeclared).mpr ?_, by decide⟩
  rintro ⟨⟨forward, own, hforward, hown, hresource⟩, _⟩
  have hempty : SerdeJson.fromSlice (edit "file:///a/b").arguments = some (.object []) := by
    rfl
  obtain rfl := Option.some.inj (hempty.symm.trans hforward)
  have hspelled : spelling (IdentityPart.own (.object [])) (read "file:///a/").identity.parts =
      some "file:///a/".toList := by
    decide
  obtain rfl := Option.some.inj (hspelled.symm.trans hown)
  revert hresource
  decide

open Notes in
/-- An answer that names a directory by a dot is escrowed as the note that the literal spells. -/
theorem idle_answer_is_escrowed :
    DeclaredWithRead (catalogue "file:///a/b/") (server "file:///a/b/" ".") (delta "file:///a/b/")
        (edit "file:///a/b/") (position "file:///a/b/") (restore "file:///a/b/")
        (read "file:///a/b/") ∧
      (∃ inverse reads s', invert (delta "file:///a/b/") (seen "file:///a/b/")
        ((catalogue "file:///a/b/").deployed (server "file:///a/b/" ".")) start =
          (.ok (.inverted inverse reads), s')) ∧
      ¬ BoundByAnswer (catalogue "file:///a/b/") (server "file:///a/b/" ".") (delta "file:///a/b/")
        (seen "file:///a/b/") start (edit "file:///a/b/") (position "file:///a/b/")
        (read "file:///a/b/") := by
  have hdeclared := @declaredWithRead "file:///a/b/" "file:///a/b/" "." (by decide)
    (by decide)
  refine ⟨hdeclared, ?_, ?_⟩
  · have hanswer : (invert (delta "file:///a/b/") (seen "file:///a/b/")
        ((catalogue "file:///a/b/").deployed (server "file:///a/b/" ".")) start).1 =
          .ok (.inverted ⟨.mcp, payload (kept "file:///a/b/" "."), none⟩
            (attestedRead (server "file:///a/b/" ".") (position "file:///a/b/") (answer "."))) := by
      decide
    exact ⟨_, _, _, Prod.ext hanswer rfl⟩
  · apply not_bound_of_idle hdeclared
    refine ⟨⟨.object [], "file:///a/b/".toList, rfl, by decide, by decide⟩,
      emptyObject, answer ".", ⟨rfl, by decide, by decide, by decide⟩, rfl, ?_⟩
    exact ⟨"file:///a/b/.".toList, by decide, by decide⟩

end Tracefold.Mcp.Declared
