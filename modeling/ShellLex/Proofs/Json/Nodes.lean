import ShellLex.Proofs.Calls
import ShellLex.Proofs.Json.Values
import ShellLex.Proofs.Views
/-!
What the JSON of a tree tells. The text is that of one value, which is the tree's view: so it tells
all of a tree but offsets and what is lost in decoding, and its `Data` are the texts of the leaves
in the order of the source.
-/
namespace ShellLex

def Leaf.View.value (l : Leaf.View) : Json.Value :=
  .object [("Type", .string "Leaf".toList), ("Kind", .string l.kind.name.toList),
    ("Data", .string l.text)]

namespace View

mutual

def value : View → Json.Value
  | .leaf l => l.value
  | .word parts => .object [("Type", .string "Word".toList), ("Nodes", .array (valueAll parts))]
  | .enclosed form opening parts closing =>
    .object [("Type", .string form.name.toList), (form.fields.1, opening.value),
      ("Nodes", .array (valueAll parts)), (form.fields.2, closing.value)]

def valueAll : List View → List Json.Value
  | [] => []
  | view :: views => view.value :: valueAll views

end

end View

namespace Json

theorem write_leaf (l : Leaf) : l.view.value.write = leaf l := rfl

mutual

/-- The text of a node is that of its view's value. -/
theorem write_node (n : Node) : n.view.value.write = node n := by
  match n with
  | .leaf l => exact write_leaf l
  | .word nodes =>
    simp only [Node.view, View.value, Value.write, Value.writeMembers, node, write_nodeAll nodes]
  | .enclosed form opening nodes closing =>
    simp only [Node.view, View.value, Value.write, Value.writeMembers, node, write_nodeAll nodes,
      write_leaf]

theorem write_nodeAll (nodes : List Node) :
    Value.writeAll (View.valueAll (Node.viewAll nodes)) = nodeAll nodes := by
  match nodes with
  | [] => rfl
  | n :: nodes =>
    rw [Node.viewAll, View.valueAll, Value.writeAll, nodeAll, write_node n, write_nodeAll nodes]

end

end Json

theorem toJson_eq (nodes : List Node) :
    (toJson nodes).toList = (Json.Value.array (View.valueAll (Node.viewAll nodes))).write := by
  rw [toJson, String.toList_ofList, Json.Value.write, Json.write_nodeAll]

section Injective

theorem Leaf.View.value_inj {l l' : Leaf.View} (h : l.value = l'.value) : l = l' := by
  obtain ⟨kind, text⟩ := l
  obtain ⟨kind', text'⟩ := l'
  simp only [value, Json.Value.object.injEq, List.cons.injEq, Prod.mk.injEq, true_and,
    Json.Value.string.injEq, and_true] at h
  rw [Kind.name_inj h.1, h.2]

mutual

/-- A value is that of one view only. -/
theorem View.value_inj (view view' : View) (h : view.value = view'.value) : view = view' := by
  match view, view' with
  | .leaf l, .leaf l' => rw [Leaf.View.value_inj h]
  | .word parts, .word parts' =>
    simp only [value, Json.Value.object.injEq, List.cons.injEq, Prod.mk.injEq, true_and,
      Json.Value.array.injEq, and_true] at h
    rw [View.valueAll_inj parts parts' h]
  | .enclosed form opening parts closing, .enclosed form' opening' parts' closing' =>
    simp only [value, Json.Value.object.injEq, List.cons.injEq, Prod.mk.injEq, true_and,
      Json.Value.string.injEq, Json.Value.array.injEq, and_true] at h
    obtain ⟨hform, ⟨_, hopening⟩, hparts, _, hclosing⟩ := h
    rw [Enclosure.name_inj hform, Leaf.View.value_inj hopening, Leaf.View.value_inj hclosing,
      View.valueAll_inj parts parts' hparts]
  | .leaf _, .word _ | .word _, .leaf _ => simp [value, Leaf.View.value] at h
  | .leaf _, .enclosed form _ _ _ | .enclosed form _ _ _, .leaf _ =>
    simp [value, Leaf.View.value] at h
  | .word _, .enclosed form _ _ _ | .enclosed form _ _ _, .word _ => simp [value] at h

theorem View.valueAll_inj (views views' : List View)
    (h : View.valueAll views = View.valueAll views') : views = views' := by
  match views, views' with
  | [], [] => rfl
  | view :: views, view' :: views' =>
    obtain ⟨hview, hviews⟩ := List.cons.inj h
    rw [View.value_inj view view' hview, View.valueAll_inj views views' hviews]
  | [], _ :: _ | _ :: _, [] => nomatch h

end

end Injective

namespace Json

def Value.text? : Value → Option (List Char)
  | .string text => some text
  | .array _ | .object _ => none

def Value.textOf? (name : String) (members : List (String × Value)) : Option (List Char) :=
  (members.lookup name).bind Value.text?

mutual

/-- The `Data` of all objects whose `Type` is `Leaf`, in the order of the text. -/
def Value.leafData : Value → List (List Char)
  | .string _ => []
  | .array values => leafDataAll values
  | .object members =>
    if textOf? "Type" members = some "Leaf".toList then (textOf? "Data" members).toList
    else leafDataMembers members

def Value.leafDataAll : List Value → List (List Char)
  | [] => []
  | value :: values => value.leafData ++ leafDataAll values

def Value.leafDataMembers : List (String × Value) → List (List Char)
  | [] => []
  | (_, value) :: members => value.leafData ++ leafDataMembers members

end

theorem leafData_leaf (l : Leaf.View) : l.value.leafData = [l.text] := rfl

/-- An object of another type than `Leaf` has no `Data` but those of its members. -/
theorem leafData_composite {type : String} {members : List (String × Value)} (h : type ≠ "Leaf") :
    (Value.object (("Type", .string type.toList) :: members)).leafData =
      Value.leafDataMembers members := by
  have found : Value.textOf? "Type" (("Type", .string type.toList) :: members) =
      some type.toList := rfl
  have other : some type.toList ≠ some "Leaf".toList := fun heq =>
    h (String.toList_injective (Option.some.inj heq))
  rw [Value.leafData, found, if_neg other, Value.leafDataMembers, Value.leafData, List.nil_append]

mutual

/-- The `Data` of a view are the texts of its leaves. -/
theorem leafData_value (view : View) : view.value.leafData = view.texts := by
  match view with
  | .leaf l => exact leafData_leaf l
  | .word parts =>
    rw [View.value, leafData_composite (by decide), Value.leafDataMembers, Value.leafDataMembers,
      List.append_nil, Value.leafData, View.texts, leafData_valueAll parts]
  | .enclosed form opening parts closing =>
    rw [View.value, leafData_composite (by cases form <;> decide)]
    simp only [Value.leafDataMembers, leafData_leaf, Value.leafData, leafData_valueAll parts,
      View.texts, List.singleton_append, List.append_nil]

theorem leafData_valueAll (views : List View) :
    Value.leafDataAll (View.valueAll views) = View.textsAll views := by
  match views with
  | [] => rfl
  | view :: views =>
    rw [View.valueAll, Value.leafDataAll, View.textsAll, leafData_value view,
      leafData_valueAll views]

end

end Json

namespace Utf8

/-- Without faults, the texts of consecutive pieces encode to what the pieces are of. -/
theorem encode_flatten_lossy {pieces : List (List UInt8)} (h : ∀ bytes ∈ pieces, Valid bytes) :
    encode (pieces.map lossy).flatten = pieces.flatten := by
  induction pieces with
  | nil => rfl
  | cons bytes pieces ih =>
    obtain ⟨⟨text, ht⟩, hpieces⟩ := List.forall_mem_cons.mp h
    rw [List.map_cons, List.flatten_cons, List.flatten_cons, encode, List.flatMap_append]
    change encode (lossy bytes) ++ encode (pieces.map lossy).flatten = _
    rw [ih hpieces, lossy_of_decode? ht, encode_of_decode? ht]

end Utf8

/-- JSON tells all of a tree but offsets and what is lost in decoding. The text is that of one value
only, whose `Data` are the texts of the leaves; these are pieces of the source in order, all of it,
so that without faults in them the `Data` encode to the source. -/
theorem toJson_faithful :
    (∀ nodes nodes', toJson nodes = toJson nodes' ↔ Node.viewAll nodes = Node.viewAll nodes') ∧
    ∀ source nodes, tokenize source = .ok nodes →
      let pieces := (Node.leavesAll nodes).map Leaf.data
      pieces.flatten = source ∧
      ∃ value : Json.Value,
        (∀ other : Json.Value, other.write = (toJson nodes).toList ↔ other = value) ∧
        value.leafData = pieces.map Utf8.lossy ∧
        ((∀ bytes ∈ pieces, Utf8.Valid bytes) → Utf8.encode value.leafData.flatten = source) := by
  constructor
  · intro nodes nodes'
    constructor
    · intro h
      have written := congrArg String.toList h
      rw [toJson_eq, toJson_eq] at written
      have values := Json.Value.array.inj (Json.Value.write_delimits.injective written)
      exact View.valueAll_inj _ _ values
    · intro h
      rw [← String.toList_inj, toJson_eq, toJson_eq, h]
  · intro source nodes h pieces
    have whole : pieces.flatten = source := by
      rw [← textAll_of_tokenize h, Node.textAll_eq_leaves, List.flatMap_def]
    have data : (Json.Value.array (View.valueAll (Node.viewAll nodes))).leafData =
        pieces.map Utf8.lossy := by
      rw [Json.Value.leafData, Json.leafData_valueAll, View.textsAll_view, List.map_map]
      rfl
    refine ⟨whole, _, fun other => ?_, data, fun hvalid => ?_⟩
    · rw [toJson_eq]
      exact Json.Value.write_delimits.injective.eq_iff
    · rw [data, Utf8.encode_flatten_lossy hvalid, whole]

/-- Bytes that do not decode show alike, and what is in quotes is listed between them. -/
theorem toJson_faithful_lossy :
    let source (b : UInt8) := ascii "\"" ++ b :: ascii "$x\"y"
    let nodes (b : UInt8) : List Node := [.word [.enclosed .quotes ⟨.quote, ascii "\"", 0⟩
      [.leaf ⟨.term, [b], 1⟩, .leaf ⟨.variable, ascii "$x", 2⟩] ⟨.quote, ascii "\"", 4⟩,
      .leaf ⟨.term, ascii "y", 5⟩]]
    tokenize (source 0xFE) = .ok (nodes 0xFE) ∧ toJson (nodes 0xFE) = toJson (nodes 0xFF) ∧
      ∃ value : Json.Value, value.write = (toJson (nodes 0xFE)).toList ∧
        value.leafData = [['"'], [Utf8.replacement], ['$', 'x'], ['"'], ['y']] := by
  intro source nodes
  have read : tokenize (source 0xFE) = .ok (nodes 0xFE) := by rfl
  obtain ⟨_, value, unique, data, _⟩ := toJson_faithful.2 _ _ read
  have same : Node.viewAll (nodes 0xFE) = Node.viewAll (nodes 0xFF) := by rfl
  exact ⟨read, (toJson_faithful.1 _ _).mpr same, value, (unique value).mpr rfl, data⟩

end ShellLex
