import Mathlib.Tactic.Common
import Tracefold.Mcp.Catalogue

/-! Where a pointer that is bound to the forward call leads in the prior document. -/

namespace Tracefold.Mcp.Declared

open Library Locator

section Shape

/-- A segment cut where a token of the pointer ends. A text of the forward call is not cut. -/
def PointerSegment.pieces : PointerSegment → List (List PointerSegment)
  | .literal text => (text.splitOn '/').map fun piece => [.literal piece]
  | .forward member => [[.forward member]]

/-- The tokens that a pointer is declared to have, each with the segments that spell it. -/
def shape : List PointerSegment → List (List PointerSegment)
  | [] => [[]]
  | segment :: rest => Text.weld segment.pieces (shape rest)

/-- What a segment adds to a name: a text of the forward call stands for itself. -/
def PointerSegment.name (forward : List (Text × Json)) : PointerSegment → Option Text
  | .literal text => some (Json.unescape text)
  | .forward member => (forward.lookup member).bind Json.asString

/-- The name that the segments of a token spell. -/
def nameOf (forward : List (Text × Json)) (token : List PointerSegment) : Option Text :=
  (token.mapM (PointerSegment.name forward)).map List.flatten

/-- The first token of a pointer is empty and names nothing. -/
def rooted : List Text → Option (List Text)
  | [] :: names => some names
  | _ => none

end Shape

variable {forward : List (Text × Json)}

theorem shape_ne_nil (segments : List PointerSegment) : shape segments ≠ [] := by
  induction segments with
  | nil => exact List.cons_ne_nil _ _
  | cons segment rest ih => exact Text.weld_ne_nil ih segment.pieces

theorem nameOf_append (a b : List PointerSegment) :
    nameOf forward (a ++ b) =
      (nameOf forward a).bind fun x => (nameOf forward b).map (x ++ ·) := by
  unfold nameOf
  rw [List.mapM_append]
  cases a.mapM (PointerSegment.name forward) with
  | none => rfl
  | some names =>
    cases b.mapM (PointerSegment.name forward) with
    | none => rfl
    | some names' => exact congrArg some List.flatten_append

theorem nameOf_singleton (segment : PointerSegment) :
    nameOf forward [segment] = segment.name forward := by
  unfold nameOf
  rw [Text.mapM_cons_eq, List.mapM_nil]
  cases segment.name forward with
  | none => rfl
  | some name => exact congrArg some (List.append_nil name)

theorem names_of_pieces (segment : PointerSegment) :
    segment.pieces.mapM (nameOf forward) =
      (segment.resolve forward).map fun text => (text.splitOn '/').map Json.unescape := by
  cases segment with
  | literal text =>
    rw [PointerSegment.pieces, PointerSegment.resolve, Option.map_some]
    induction text.splitOn '/' with
    | nil => rfl
    | cons piece rest ih =>
      rw [List.map_cons, Text.mapM_cons_eq, ih, nameOf_singleton]
      rfl
  | forward member =>
    rw [PointerSegment.pieces, PointerSegment.resolve, Text.mapM_cons_eq, nameOf_singleton,
      PointerSegment.name, List.mapM_nil, Option.map_map]
    cases (forward.lookup member).bind Json.asString with
    | none => rfl
    | some text =>
      refine congrArg some ?_
      rw [Function.comp, List.splitOn_eq_singleton (Json.slash_notMem_escape text),
        List.map_singleton, Json.unescape_escape]

/-- No literal of a pointer ends in the tilde that the text behind it could complete. -/
def Closed (segments : List PointerSegment) : Prop :=
  ∀ text, .literal text ∈ segments → text.getLast? ≠ some '~'

theorem getLast?_resolve {segment : PointerSegment} {rest : List PointerSegment} {text : Text}
    (h : Closed (segment :: rest)) (hresolve : segment.resolve forward = some text) :
    text.getLast? ≠ some '~' := by
  cases segment with
  | literal text' =>
    cases hresolve
    exact h text List.mem_cons_self
  | forward member =>
    obtain ⟨value, _, rfl⟩ := Option.map_eq_some_iff.mp hresolve
    exact Json.getLast?_escape value

theorem tokens_of_append {a : Text} (h : a.getLast? ≠ some '~') (b : Text) :
    ((a ++ b).splitOn '/').map Json.unescape =
      Text.weld ((a.splitOn '/').map Json.unescape) ((b.splitOn '/').map Json.unescape) := by
  rw [Text.splitOn_append, Text.map_weld (List.splitOn_ne_nil '/' a)]
  intro last hlast piece
  refine Json.unescape_append (fun hend => h ?_) piece
  obtain ⟨before, rfl⟩ := Text.suffix_of_splitOn hlast
  rw [List.getLast?_append, hend, Option.some_or]

theorem resolve_cons (segment : PointerSegment) (rest : List PointerSegment) :
    (PriorPointer.bound (segment :: rest)).resolve forward =
      (segment.resolve forward).bind fun text =>
        ((PriorPointer.bound rest).resolve forward).map (text ++ ·) := by
  rw [PriorPointer.resolve, PriorPointer.resolve, Text.mapM_cons_eq]
  cases segment.resolve forward <;> cases rest.mapM (PointerSegment.resolve forward) <;> rfl

/-- The tokens of a bound pointer are its declared tokens, with what the forward call names. -/
theorem names_of_shape {segments : List PointerSegment} (h : Closed segments) :
    (shape segments).mapM (nameOf forward) =
      ((PriorPointer.bound segments).resolve forward).map fun pointer =>
        (pointer.splitOn '/').map Json.unescape := by
  induction segments with
  | nil => rfl
  | cons segment rest ih =>
    have hrest := ih fun text hmem => h text (List.mem_cons_of_mem segment hmem)
    rw [shape, Text.mapM_weld nameOf_append _ (shape_ne_nil rest), names_of_pieces, hrest,
      resolve_cons]
    cases hresolve : segment.resolve forward with
    | none => rfl
    | some text =>
      cases (PriorPointer.bound rest).resolve forward with
      | none => rfl
      | some pointer => exact congrArg some (tokens_of_append (getLast?_resolve h hresolve) _).symm

theorem tokens_eq_rooted (pointer : Text) :
    Json.tokens pointer = rooted ((pointer.splitOn '/').map Json.unescape) := by
  cases pointer with
  | nil => rfl
  | cons c rest =>
    rw [Json.tokens, List.splitOn_cons_eq_if_modifyHead]
    by_cases hc : c = '/'
    · subst hc
      rfl
    · obtain ⟨piece, pieces, hpieces⟩ := List.exists_cons_of_ne_nil (List.splitOn_ne_nil '/' rest)
      obtain ⟨c', name, hname⟩ :=
        List.exists_cons_of_ne_nil (Json.unescape_ne_nil (List.cons_ne_nil c piece))
      rw [if_neg hc, beq_false_of_ne hc, hpieces, if_neg Bool.false_ne_true, List.modifyHead_cons,
        List.map_cons, hname]
      rfl

section Read

variable [SerdeJson] [Sha1]

/-- A pointer bound to the forward call leads along the tokens it is declared to have, whatever
texts the call carries: each of them is within the name of its token, as it is. -/
theorem bound_pointer_keeps_its_shape {segments : List PointerSegment}
    (hpointer : SerdeJson.ReadsPointers) (h : Closed segments) (forward : List (Text × Json))
    (prior : Bytes) :
    (ArgSource.priorJson (.bound segments)).resolve forward prior = (do
      let names ← (shape segments).mapM (nameOf forward)
      let path ← rooted names
      let document ← SerdeJson.fromSlice prior
      Json.follow document path) := by
  rw [ArgSource.resolve, names_of_shape h]
  cases (PriorPointer.bound segments).resolve forward with
  | none => rfl
  | some pointer =>
    have hread : SerdeJson.pointer pointer = Json.pointer pointer := funext (hpointer pointer)
    change (SerdeJson.fromSlice prior).bind (SerdeJson.pointer pointer) =
      (rooted ((pointer.splitOn '/').map Json.unescape)).bind fun path =>
        (SerdeJson.fromSlice prior).bind fun document => Json.follow document path
    rw [← tokens_eq_rooted, hread]
    unfold Json.pointer
    cases Json.tokens pointer <;> cases SerdeJson.fromSlice prior <;> rfl

end Read

namespace Gists

open DagCbor (utf8)

/-- A gist of one file, whose name has both characters that a pointer escapes. -/
def gist : Json :=
  .object [("files".toList, .object [("a/b~1c".toList, .object [("content".toList, .null)])])]

def written : Bytes := utf8 "\x7b\"files\":\x7b\"a/b~1c\":\x7b\"content\":null\x7d\x7d\x7d"

scoped instance serdeJson : SerdeJson where
  fromSlice bytes := if bytes = written then some gist else none
  toVec _ := none
  pointer := Json.pointer
  insert := Json.insert
  floatText _ := []

scoped instance sha1 : Sha1 where
  digest _ := []

def segments : List PointerSegment :=
  [.literal "/files/".toList, .forward "filename".toList, .literal "/content".toList]

theorem segments_closed : Closed segments := by
  intro text hmem
  simp only [segments, List.mem_cons, PointerSegment.literal.injEq, reduceCtorEq, List.not_mem_nil,
    or_false, false_or] at hmem
  rcases hmem with rfl | rfl <;> decide

theorem bound_pointer_keeps_its_shape_gist :
    (ArgSource.priorJson (.bound segments)).resolve
      [("filename".toList, .string "a/b~1c".toList)] written = some .null := by
  have hread : SerdeJson.fromSlice written = some gist := if_pos rfl
  rw [bound_pointer_keeps_its_shape (fun _ _ => rfl) segments_closed, hread]
  rfl

end Gists

end Tracefold.Mcp.Declared
