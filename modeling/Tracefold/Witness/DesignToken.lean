import Mathlib.Tactic.Common
import Tracefold.Cbor.Record
import Tracefold.Spelling

/-! A design-token document: its members, the predicate it is held to, and what serde writes and
reads of one. -/

namespace Tracefold.Witness

open Spelling (Digest)
open DagCbor

/-- `DESIGN_TOKEN_TAG`. -/
def designTokenTag : String := "gx.design-token.v1"

inductive Layer where
  | intent
  | role
  deriving DecidableEq, Repr

/-- The member `at` is the address. -/
structure KernelString where
  address : String
  text : String
  deriving DecidableEq, Repr

structure Board where
  strings : List KernelString
  boardId : String
  deriving DecidableEq, Repr

/-- The member `namespace` is the name of one. -/
structure Declaration where
  name : String
  layer : Layer
  meaning : String
  parents : List Digest
  namespaceName : String
  deriving DecidableEq, Repr

inductive Document where
  | board (board : Board)
  | declaration (declaration : Declaration)
  deriving DecidableEq, Repr

structure DesignToken where
  gxKind : String
  document : Document
  deriving DecidableEq, Repr

section Check

/-- `design_token::Refusal`. -/
inductive TokenRefusal where
  | unorderedKernel (address after : String)
  | empty (member : String)
  | unorderedParents (index : ℕ)
  deriving DecidableEq, Repr

/-- The loop over a kernel: every address holds something, and comes after the one before it in the
order of their bytes. -/
def checkKernel : Option String → List KernelString → Except TokenRefusal Unit
  | _, [] => .ok ()
  | previous, entry :: rest =>
    if entry.address.isEmpty then .error (.empty "at")
    else
      match previous with
      | none => checkKernel (some entry.address) rest
      | some before =>
        if utf8 entry.address ≤ utf8 before then .error (.unorderedKernel entry.address before)
        else checkKernel (some entry.address) rest

/-- The loop over the members that have to hold something. -/
def checkNamed : List (String × String) → Except TokenRefusal Unit
  | [] => .ok ()
  | (name, value) :: rest => if value.isEmpty then .error (.empty name) else checkNamed rest

/-- The loop over the parents, from the one at an index on. -/
def checkParents : ℕ → List Digest → Except TokenRefusal Unit
  | index, before :: next :: rest =>
    if next.toList ≤ before.toList then .error (.unorderedParents index)
    else checkParents (index + 1) (next :: rest)
  | _, _ => .ok ()

/-- `DesignToken::check`. -/
def DesignToken.check (token : DesignToken) : Except TokenRefusal Unit :=
  match token.document with
  | .board board =>
    if board.boardId.isEmpty then .error (.empty "board_id") else checkKernel none board.strings
  | .declaration declaration => do
    checkNamed [("name", declaration.name), ("meaning", declaration.meaning),
      ("namespace", declaration.namespaceName)]
    checkParents 1 declaration.parents

end Check

section Write

/-! What serde makes of a token: a struct is a map of its members, in the order that they are written
in, a variant a map of its name. -/

def Layer.name : Layer → String
  | .intent => "intent"
  | .role => "role"

def digestValue (cid : Digest) : Value := .bytes cid.toList

def KernelString.members (s : KernelString) : List (String × Value) :=
  [("at", .text s.address), ("text", .text s.text)]

def KernelString.value (s : KernelString) : Value := mapOf s.members

def Board.members (b : Board) : List (String × Value) :=
  [("strings", .array (b.strings.map KernelString.value)), ("board_id", .text b.boardId)]

def Board.value (b : Board) : Value := mapOf b.members

def Declaration.members (d : Declaration) : List (String × Value) :=
  [("name", .text d.name), ("layer", .text d.layer.name), ("meaning", .text d.meaning),
    ("parents", .array (d.parents.map digestValue)), ("namespace", .text d.namespaceName)]

def Declaration.value (d : Declaration) : Value := mapOf d.members

def Document.value : Document → Value
  | .board b => mapOf [("board", b.value)]
  | .declaration d => mapOf [("declaration", d.value)]

def DesignToken.members (t : DesignToken) : List (String × Value) :=
  [("gx_kind", .text t.gxKind), ("document", t.document.value)]

def DesignToken.value (t : DesignToken) : Value := mapOf t.members

end Write

section Read

def ofLayer : Value → Option Layer
  | .text name => if name = "intent" then some .intent else if name = "role" then some .role else none
  | _ => none

def ofDigest : Value → Option Digest
  | .bytes raw => if h : raw.length = 32 then some ⟨raw.toArray, h⟩ else none
  | _ => none

def ofKernelString : Value → Option KernelString
  | .map entries => do
    let address ← required ofText entries "at"
    let text ← required ofText entries "text"
    return ⟨address, text⟩
  | _ => none

def ofBoard : Value → Option Board
  | .map entries => do
    let strings ← required (ofArray ofKernelString) entries "strings"
    let boardId ← required ofText entries "board_id"
    return ⟨strings, boardId⟩
  | _ => none

def ofDeclaration : Value → Option Declaration
  | .map entries => do
    let name ← required ofText entries "name"
    let layer ← required ofLayer entries "layer"
    let meaning ← required ofText entries "meaning"
    let parents ← required (ofArray ofDigest) entries "parents"
    let namespaceName ← required ofText entries "namespace"
    return ⟨name, layer, meaning, parents, namespaceName⟩
  | _ => none

/-- A variant is a map of one entry, the name of the variant and what it holds. -/
def ofDocument : Value → Option Document
  | .map [(name, v)] =>
    if name = "board" then (ofBoard v).map .board
    else if name = "declaration" then (ofDeclaration v).map .declaration
    else none
  | _ => none

def ofDesignToken : Value → Option DesignToken
  | .map entries => do
    let gxKind ← required ofText entries "gx_kind"
    let document ← required ofDocument entries "document"
    return ⟨gxKind, document⟩
  | _ => none

end Read

section Members

/-! Whether a document holds a member that the schema does not name, which the reader passes over. -/

def kernelOnly (v : Value) : Bool := v.members = 2

def boardOnly : Value → Bool
  | .map entries =>
    entries.length = 2 &&
      match member entries "strings" with
      | some (.array items) => items.all kernelOnly
      | _ => false
  | _ => false

def documentOnly : Value → Bool
  | .map [(name, v)] => if name = "board" then boardOnly v else v.members = 5
  | _ => false

/-- No map of a token holds a member beyond those of its struct. -/
def tokenOnly : Value → Bool
  | .map entries => entries.length = 2 && ((member entries "document").any documentOnly)
  | _ => false

end Members

section Written

variable {v : Value}

theorem KernelString.inOrder (s : KernelString) : InOrder s.members := by
  apply inOrder_of_keys
  show [encodeText "at", encodeText "text"].Pairwise (· < ·)
  decide

theorem Board.inOrder (b : Board) : InOrder b.members := by
  apply inOrder_of_keys
  show [encodeText "strings", encodeText "board_id"].Pairwise (· < ·)
  decide

theorem Declaration.inOrder (d : Declaration) : InOrder d.members := by
  apply inOrder_of_keys
  show [encodeText "name", encodeText "layer", encodeText "meaning", encodeText "parents",
    encodeText "namespace"].Pairwise (· < ·)
  decide

theorem DesignToken.inOrder (t : DesignToken) : InOrder t.members := by
  apply inOrder_of_keys
  show [encodeText "gx_kind", encodeText "document"].Pairwise (· < ·)
  decide

theorem KernelString.value_eq (s : KernelString) : s.value = .map s.members := mapOf_inOrder s.inOrder

theorem Board.value_eq (b : Board) : b.value = .map b.members := mapOf_inOrder b.inOrder

theorem Declaration.value_eq (d : Declaration) : d.value = .map d.members := mapOf_inOrder d.inOrder

theorem DesignToken.value_eq (t : DesignToken) : t.value = .map t.members := mapOf_inOrder t.inOrder

theorem ofLayer_eq_some {layer : Layer} : ofLayer v = some layer ↔ v = .text layer.name := by
  constructor
  · intro h
    cases v with
    | text name =>
      rw [ofLayer] at h
      split_ifs at h with hintent hrole
      · cases h
        rw [hintent]
        rfl
      · cases h
        rw [hrole]
        rfl
    | _ => cases h
  · rintro rfl
    cases layer <;> rfl

theorem ofDigest_eq_some {cid : Digest} : ofDigest v = some cid ↔ v = digestValue cid := by
  constructor
  · intro h
    cases v with
    | bytes raw =>
      rw [ofDigest] at h
      split_ifs at h with hlength
      rw [← Option.some.inj h]
      rfl
    | _ => cases h
  · rintro rfl
    exact dif_pos cid.length_toList

theorem ofKernelString_eq_some {s : KernelString} : ofKernelString v = some s ↔
    ∃ entries, v = .map entries ∧ member entries "at" = some (.text s.address) ∧
      member entries "text" = some (.text s.text) := by
  constructor
  · intro h
    cases v with
    | map entries =>
      obtain ⟨address, haddress, h⟩ := Option.bind_eq_some_iff.mp h
      obtain ⟨text, htext, h⟩ := Option.bind_eq_some_iff.mp h
      cases h
      exact ⟨entries, rfl, required_text.mp haddress, required_text.mp htext⟩
    | _ => cases h
  · rintro ⟨entries, rfl, haddress, htext⟩
    apply Option.bind_eq_some_iff.mpr
    refine ⟨_, required_text.mpr haddress, ?_⟩
    apply Option.bind_eq_some_iff.mpr
    exact ⟨_, required_text.mpr htext, rfl⟩

theorem ofBoard_eq_some {b : Board} : ofBoard v = some b ↔
    ∃ entries items, v = .map entries ∧ member entries "strings" = some (.array items) ∧
      List.Forall₂ (fun v s => ofKernelString v = some s) items b.strings ∧
      member entries "board_id" = some (.text b.boardId) := by
  constructor
  · intro h
    cases v with
    | map entries =>
      obtain ⟨strings, hstrings, h⟩ := Option.bind_eq_some_iff.mp h
      obtain ⟨boardId, hboardId, h⟩ := Option.bind_eq_some_iff.mp h
      cases h
      obtain ⟨items, hmember, hitems⟩ := required_array.mp hstrings
      exact ⟨entries, items, rfl, hmember, hitems, required_text.mp hboardId⟩
    | _ => cases h
  · rintro ⟨entries, items, rfl, hmember, hitems, hboardId⟩
    apply Option.bind_eq_some_iff.mpr
    refine ⟨_, required_array.mpr ⟨items, hmember, hitems⟩, ?_⟩
    apply Option.bind_eq_some_iff.mpr
    exact ⟨_, required_text.mpr hboardId, rfl⟩

theorem ofDeclaration_eq_some {d : Declaration} : ofDeclaration v = some d ↔
    ∃ entries, v = .map entries ∧ member entries "name" = some (.text d.name) ∧
      member entries "layer" = some (.text d.layer.name) ∧
      member entries "meaning" = some (.text d.meaning) ∧
      member entries "parents" = some (.array (d.parents.map digestValue)) ∧
      member entries "namespace" = some (.text d.namespaceName) := by
  have hlayer : ∀ {entries : List (String × Value)} {layer : Layer},
      required ofLayer entries "layer" = some layer ↔
        member entries "layer" = some (.text layer.name) := by
    intro entries layer
    simp [required_eq_some, ofLayer_eq_some]
  have hdigest : ∀ v cid, ofDigest v = some cid ↔ v = digestValue cid := fun _ _ => ofDigest_eq_some
  constructor
  · intro h
    cases v with
    | map entries =>
      obtain ⟨name, hname, h⟩ := Option.bind_eq_some_iff.mp h
      obtain ⟨layer, hlayer', h⟩ := Option.bind_eq_some_iff.mp h
      obtain ⟨meaning, hmeaning, h⟩ := Option.bind_eq_some_iff.mp h
      obtain ⟨parents, hparents, h⟩ := Option.bind_eq_some_iff.mp h
      obtain ⟨namespaceName, hnamespace, h⟩ := Option.bind_eq_some_iff.mp h
      cases h
      exact ⟨entries, rfl, required_text.mp hname, hlayer.mp hlayer', required_text.mp hmeaning,
        (required_array_exact hdigest).mp hparents, required_text.mp hnamespace⟩
    | _ => cases h
  · rintro ⟨entries, rfl, hname, hlayer', hmeaning, hparents, hnamespace⟩
    rw [ofDeclaration, required_text.mpr hname, hlayer.mpr hlayer', required_text.mpr hmeaning,
      (required_array_exact hdigest).mpr hparents, required_text.mpr hnamespace]
    rfl

theorem ofDesignToken_eq_some {t : DesignToken} : ofDesignToken v = some t ↔
    ∃ entries inner, v = .map entries ∧ member entries "gx_kind" = some (.text t.gxKind) ∧
      member entries "document" = some inner ∧ ofDocument inner = some t.document := by
  constructor
  · intro h
    cases v with
    | map entries =>
      obtain ⟨gxKind, hkind, h⟩ := Option.bind_eq_some_iff.mp h
      obtain ⟨document, hdocument, h⟩ := Option.bind_eq_some_iff.mp h
      cases h
      obtain ⟨inner, hmember, hread⟩ := required_eq_some.mp hdocument
      exact ⟨entries, inner, rfl, required_text.mp hkind, hmember, hread⟩
    | _ => cases h
  · rintro ⟨entries, inner, rfl, hkind, hmember, hread⟩
    rw [ofDesignToken, required_text.mpr hkind, required_eq_some.mpr ⟨inner, hmember, hread⟩]
    rfl

theorem KernelString.written {s : KernelString} (hv : v.Canonical) (h : ofKernelString v = some s) :
    s.value.Canonical ∧ (kernelOnly v = true ↔ v = s.value) := by
  obtain ⟨entries, rfl, haddress, htext⟩ := ofKernelString_eq_some.mp h
  rw [s.value_eq]
  constructor
  · apply canonical_record s.inOrder (by simp [members])
    simp only [members, List.forall_mem_cons, List.not_mem_nil, false_implies, implies_true, and_true]
    exact ⟨⟨by decide, hv.member haddress⟩, by decide, hv.member htext⟩
  · rw [map_eq_iff hv s.inOrder, kernelOnly, decide_eq_true_iff]
    simp [members, haddress, htext, Value.members]

theorem Declaration.written {d : Declaration} (hv : v.Canonical) (h : ofDeclaration v = some d) :
    d.value.Canonical ∧ (v.members = 5 ↔ v = d.value) := by
  obtain ⟨entries, rfl, hname, hlayer, hmeaning, hparents, hnamespace⟩ := ofDeclaration_eq_some.mp h
  rw [d.value_eq]
  constructor
  · apply canonical_record d.inOrder (by simp [members])
    simp only [members, List.forall_mem_cons, List.not_mem_nil, false_implies, implies_true, and_true]
    exact ⟨⟨by decide, hv.member hname⟩, ⟨by decide, hv.member hlayer⟩,
      ⟨by decide, hv.member hmeaning⟩, ⟨by decide, hv.member hparents⟩,
      by decide, hv.member hnamespace⟩
  · rw [map_eq_iff hv d.inOrder]
    simp [members, hname, hlayer, hmeaning, hparents, hnamespace, Value.members]

theorem Board.written {b : Board} (hv : v.Canonical) (h : ofBoard v = some b) :
    b.value.Canonical ∧ (boardOnly v = true ↔ v = b.value) := by
  obtain ⟨entries, items, rfl, hstrings, hitems, hboardId⟩ := ofBoard_eq_some.mp h
  have harray := hv.member hstrings
  rw [b.value_eq]
  constructor
  · have hagain := canonical_values hitems harray fun _ _ hv _ hs => (KernelString.written hv hs).1
    apply canonical_record b.inOrder (by simp [members])
    simp only [members, List.forall_mem_cons, List.not_mem_nil, false_implies, implies_true, and_true]
    exact ⟨⟨by decide, hagain⟩, by decide, hv.member hboardId⟩
  · have hkernel : ∀ v ∈ items, ∀ s, ofKernelString v = some s →
        (kernelOnly v = true ↔ v = s.value) := by
      intro v hv s hs
      exact (KernelString.written (harray.items.2 v hv) hs).2
    rw [map_eq_iff hv b.inOrder, boardOnly, hstrings, Bool.and_eq_true, decide_eq_true_iff,
      List.all_eq_true, forall₂_values hitems hkernel]
    simp [members, hstrings, hboardId]

theorem Document.value_eq (d : Document) : d.value = match d with
    | .board b => .map [("board", b.value)]
    | .declaration d => .map [("declaration", d.value)] := by
  cases d <;> rfl

theorem ofDocument_eq_some {d : Document} : ofDocument v = some d ↔
    (∃ inner b, v = .map [("board", inner)] ∧ d = .board b ∧ ofBoard inner = some b) ∨
      ∃ inner e, v = .map [("declaration", inner)] ∧ d = .declaration e ∧
        ofDeclaration inner = some e := by
  constructor
  · intro h
    unfold ofDocument at h
    split at h
    next name inner =>
      split_ifs at h with hboard hdeclaration
      · obtain ⟨b, hb, rfl⟩ := Option.map_eq_some_iff.mp h
        exact .inl ⟨inner, b, by rw [hboard], rfl, hb⟩
      · obtain ⟨e, he, rfl⟩ := Option.map_eq_some_iff.mp h
        exact .inr ⟨inner, e, by rw [hdeclaration], rfl, he⟩
    next => cases h
  · rintro (⟨inner, b, rfl, rfl, hb⟩ | ⟨inner, e, rfl, rfl, he⟩)
    · rw [ofDocument, if_pos rfl, hb]
      rfl
    · rw [ofDocument, if_neg (by decide), if_pos rfl, he]
      rfl

theorem Document.written {d : Document} (hv : v.Canonical) (h : ofDocument v = some d) :
    d.value.Canonical ∧ (documentOnly v = true ↔ v = d.value) := by
  have hsingle : ∀ {name : String} {again : Value}, (utf8 name).length < 2 ^ 64 →
      again.Canonical → (Value.map [(name, again)]).Canonical := by
    intro name again hname hagain
    apply canonical_record (List.pairwise_singleton _ _) (by simp)
    simpa using ⟨hname, hagain⟩
  rw [d.value_eq]
  rcases ofDocument_eq_some.mp h with ⟨inner, b, rfl, rfl, hb⟩ | ⟨inner, e, rfl, rfl, he⟩
  · obtain ⟨hcanonical, honly⟩ := Board.written (hv.member member_self) hb
    refine ⟨hsingle (by decide) hcanonical, ?_⟩
    simpa [documentOnly] using honly
  · obtain ⟨hcanonical, honly⟩ := Declaration.written (hv.member member_self) he
    refine ⟨hsingle (by decide) hcanonical, ?_⟩
    simpa [documentOnly] using honly

/-- A token that was read of a canonical value has a canonical value, and it is the one that was read
if no member was passed over. -/
theorem DesignToken.written {t : DesignToken} (hv : v.Canonical) (h : ofDesignToken v = some t) :
    t.value.Canonical ∧ (tokenOnly v = true ↔ v = t.value) := by
  obtain ⟨entries, inner, rfl, hkind, hdocument, hread⟩ := ofDesignToken_eq_some.mp h
  obtain ⟨hcanonical, honly⟩ := Document.written (hv.member hdocument) hread
  rw [t.value_eq]
  constructor
  · apply canonical_record t.inOrder (by simp [members])
    simp only [members, List.forall_mem_cons, List.not_mem_nil, false_implies, implies_true, and_true]
    exact ⟨⟨by decide, hv.member hkind⟩, by decide, hcanonical⟩
  · rw [map_eq_iff hv t.inOrder, tokenOnly, hdocument, Bool.and_eq_true, decide_eq_true_iff,
      Option.any_some, honly]
    simp [members, hkind, hdocument]

theorem ofKernelString_value (s : KernelString) : ofKernelString s.value = some s := by
  apply ofKernelString_eq_some.mpr
  refine ⟨_, s.value_eq, ?_, ?_⟩
  · exact member_of_mem s.inOrder (by simp [KernelString.members])
  · exact member_of_mem s.inOrder (by simp [KernelString.members])

theorem ofBoard_value (b : Board) : ofBoard b.value = some b := by
  apply ofBoard_eq_some.mpr
  refine ⟨_, _, b.value_eq, member_of_mem b.inOrder List.mem_cons_self, ?_, ?_⟩
  · rw [List.forall₂_map_left_iff]
    exact List.forall₂_same.mpr fun s _ => ofKernelString_value s
  · exact member_of_mem b.inOrder (by simp [Board.members])

theorem ofDeclaration_value (d : Declaration) : ofDeclaration d.value = some d := by
  apply ofDeclaration_eq_some.mpr
  refine ⟨_, d.value_eq, ?_, ?_, ?_, ?_, ?_⟩ <;>
    exact member_of_mem d.inOrder (by simp [Declaration.members])

theorem ofDocument_value (d : Document) : ofDocument d.value = some d := by
  apply ofDocument_eq_some.mpr
  cases d with
  | board b => exact .inl ⟨_, b, rfl, rfl, ofBoard_value b⟩
  | declaration e => exact .inr ⟨_, e, rfl, rfl, ofDeclaration_value e⟩

theorem ofDesignToken_value (t : DesignToken) : ofDesignToken t.value = some t := by
  apply ofDesignToken_eq_some.mpr
  refine ⟨_, _, t.value_eq, member_of_mem t.inOrder List.mem_cons_self, ?_, ofDocument_value _⟩
  exact member_of_mem t.inOrder (by simp [DesignToken.members])

theorem KernelString.depth_value (s : KernelString) : s.value.depth < 2 := by
  rw [s.value_eq, Value.depth, depthEntries_lt]
  simp [members, Value.depth]

theorem Board.depth_value (b : Board) : b.value.depth < 4 := by
  rw [b.value_eq, Value.depth, depthEntries_lt]
  simp only [members, List.forall_mem_cons, List.not_mem_nil, false_implies, implies_true, and_true]
  constructor
  · rw [Value.depth, depthItems_lt, List.forall_mem_map]
    exact fun s _ => s.depth_value
  · exact Nat.zero_lt_succ _

theorem Declaration.depth_value (d : Declaration) : d.value.depth < 4 := by
  rw [d.value_eq, Value.depth, depthEntries_lt]
  simp only [members, List.forall_mem_cons, List.not_mem_nil, false_implies, implies_true, and_true]
  refine ⟨Nat.zero_lt_succ _, Nat.zero_lt_succ _, Nat.zero_lt_succ _, ?_, Nat.zero_lt_succ _⟩
  rw [Value.depth, depthItems_lt, List.forall_mem_map]
  exact fun _ _ => Nat.zero_lt_succ _

theorem Document.depth_value (d : Document) : d.value.depth < 5 := by
  rw [d.value_eq]
  cases d with
  | board b =>
    rw [Value.depth, depthEntries_lt, List.forall_mem_singleton]
    exact b.depth_value
  | declaration e =>
    rw [Value.depth, depthEntries_lt, List.forall_mem_singleton]
    exact e.depth_value

theorem DesignToken.depth_value (t : DesignToken) : t.value.depth ≤ maxDepth := by
  have hlt : t.value.depth < 6 := by
    rw [t.value_eq, Value.depth, depthEntries_lt]
    simp only [members, List.forall_mem_cons, List.not_mem_nil, false_implies, implies_true, and_true]
    exact ⟨Nat.zero_lt_succ _, t.document.depth_value⟩
  exact (Nat.lt_succ_iff.mp hlt).trans (by decide)

end Written

end Tracefold.Witness
