import ShellLex.Proofs.Characters
import ShellLex.Proofs.Json.Nodes
import ShellLex.Proofs.Outline.Nodes
import ShellLex.Node.Sexpr
/-!
Replacement characters in dumps. A dump in any of the three forms has no more of them than the texts
of the leaves, and these have none of their own where the bytes of each leaf are valid.
-/
namespace ShellLex

def replaced (text : List Char) : Nat := text.count Utf8.replacement

@[simp] theorem replaced_nil : replaced [] = 0 := rfl

@[simp] theorem replaced_append (text text' : List Char) :
    replaced (text ++ text') = replaced text + replaced text' := List.count_append

@[simp] theorem replaced_cons (c : Char) (text : List Char) :
    replaced (c :: text) = replaced text + if c = '\uFFFD' then 1 else 0 := by
  simp [replaced, Utf8.replacement, List.count_cons]

section Spelling

variable {write : Char → List Char}

/-- A spelling that adds none to a character adds none to a text. -/
theorem replaced_flatMap (h : ∀ c, replaced (write c) ≤ replaced [c]) (text : List Char) :
    replaced (text.flatMap write) ≤ replaced text := by
  induction text with
  | nil => exact Nat.le_refl _
  | cons c text ih =>
    rw [List.flatMap_cons, ← List.singleton_append, replaced_append, replaced_append]
    exact Nat.add_le_add (h c) ih

theorem replaced_toDigits (n : Nat) : replaced (Nat.toDigits 16 n) = 0 := by
  refine List.count_eq_zero.mpr fun h => ?_
  have hex := Text.mem_toDigits_hex h
  revert hex
  decide

theorem replaced_literal (hidden : Char → Bool) (text : List Char) :
    replaced (Text.literalWith hidden text) ≤ replaced text := by
  have char (c : Char) : replaced (Text.literalChar hidden c) ≤ replaced [c] := by
    unfold Text.literalChar
    split
    case h_7 =>
      split
      · simp [Text.codePoint, replaced_toDigits]
      · exact Nat.le_refl _
    all_goals exact Nat.zero_le _
  simpa [Text.literalWith] using replaced_flatMap char text

end Spelling

def shown (leaves : List Leaf) : List Char := leaves.flatMap fun l => Utf8.lossy l.data

theorem replaced_shown_append (ls ls' : List Leaf) :
    replaced (shown (ls ++ ls')) = replaced (shown ls) + replaced (shown ls') := by
  rw [shown, List.flatMap_append, replaced_append]
  rfl

theorem replaced_shown_cons (l : Leaf) (ls : List Leaf) :
    replaced (shown (l :: ls)) = replaced (Utf8.lossy l.data) + replaced (shown ls) := by
  rw [shown, List.flatMap_cons, replaced_append]
  rfl

namespace Json

theorem replaced_string (text : List Char) : replaced (string text) ≤ replaced text := by
  have char (c : Char) : replaced (stringChar c) ≤ replaced [c] := by
    unfold stringChar
    split
    case h_8 =>
      split
      · have zeros (n : Nat) : replaced (List.replicate n '0') = 0 :=
          List.count_eq_zero.mpr fun h => absurd (List.eq_of_mem_replicate h) (by decide)
        simp [unitEscape, zeros, replaced_toDigits]
      · exact Nat.le_refl _
    all_goals exact Nat.zero_le _
  simpa [string] using replaced_flatMap char text

theorem replaced_intercalate (texts : List (List Char)) :
    replaced (List.intercalate [','] texts) = replaced texts.flatten := by
  cases texts with
  | nil => rfl
  | cons first rest =>
    rw [intercalate_cons, List.flatten_cons, replaced_append, replaced_append]
    congr 1
    induction rest with
    | nil => rfl
    | cons next rest ih => simp [ih]

theorem replaced_object (members : List (List Char)) :
    replaced (object members) = replaced members.flatten := by
  simp [object, replaced_intercalate]

theorem replaced_array (values : List (List Char)) :
    replaced (array values) = replaced values.flatten := by
  simp [array, replaced_intercalate]

theorem replaced_member {name : String} (h : replaced (string name.toList) = 0)
    (value : List Char) : replaced (member name value) = replaced value := by
  simp [member, h]

theorem replaced_type (value : List Char) : replaced (member "Type" value) = replaced value :=
  replaced_member (by decide) value

theorem replaced_nodes (value : List Char) : replaced (member "Nodes" value) = replaced value :=
  replaced_member (by decide) value

theorem replaced_leaf (l : Leaf) : replaced (leaf l) ≤ replaced (Utf8.lossy l.data) := by
  have type : replaced (string "Leaf".toList) = 0 := by decide
  have kind : replaced (string l.kind.name.toList) = 0 := by cases l.kind <;> decide
  have data := replaced_string (Utf8.lossy l.data)
  simp only [leaf, replaced_object, List.flatten_cons, List.flatten_nil, List.append_nil,
    replaced_append, replaced_type, type]
  rw [replaced_member (by decide), replaced_member (by decide), kind]
  omega

mutual

theorem replaced_node (n : Node) : replaced (node n) ≤ replaced (shown n.leaves) := by
  match n with
  | .leaf l =>
    have only := replaced_leaf l
    rwa [node, Node.leaves, replaced_shown_cons]
  | .word nodes =>
    have type : replaced (string "Word".toList) = 0 := by decide
    have inside := replaced_nodeAll nodes
    simp only [node, Node.leaves, replaced_object, List.flatten_cons, List.flatten_nil,
      List.append_nil, replaced_append, replaced_type, replaced_nodes, replaced_array, type]
    omega
  | .enclosed form opening nodes closing =>
    have type : replaced (string form.name.toList) = 0 := by cases form <;> decide
    have first : replaced (string form.fields.1.toList) = 0 := by cases form <;> decide
    have last : replaced (string form.fields.2.toList) = 0 := by cases form <;> decide
    have before := replaced_leaf opening
    have inside := replaced_nodeAll nodes
    have behind := replaced_leaf closing
    simp only [node, Node.leaves, replaced_object, List.flatten_cons, List.flatten_nil,
      List.append_nil, replaced_append, replaced_type, replaced_nodes, replaced_member first,
      replaced_member last, replaced_array, replaced_shown_append, replaced_shown_cons, type]
    omega

theorem replaced_nodeAll (nodes : List Node) :
    replaced (nodeAll nodes).flatten ≤ replaced (shown (Node.leavesAll nodes)) := by
  match nodes with
  | [] => exact Nat.le_refl _
  | n :: nodes =>
    rw [nodeAll, Node.leavesAll, List.flatten_cons, replaced_append, replaced_shown_append]
    exact Nat.add_le_add (replaced_node n) (replaced_nodeAll nodes)

end

end Json

namespace Sexpr

theorem replaced_leaf (l : Leaf) : replaced (leaf l) ≤ replaced (Utf8.lossy l.data) := by
  have kind : replaced l.kind.name.toList = 0 := by cases l.kind <;> decide
  simpa [leaf, kind, Text.literal] using replaced_literal Text.isHidden (Utf8.lossy l.data)

mutual

theorem replaced_node (n : Node) : replaced (node n) ≤ replaced (shown n.leaves) := by
  match n with
  | .leaf l =>
    have only := replaced_leaf l
    rwa [node, Node.leaves, replaced_shown_cons]
  | .word nodes =>
    have inside := replaced_members nodes
    simpa [node, Node.leaves] using inside
  | .enclosed form opening nodes closing =>
    have name : replaced (head form).toList = 0 := by cases form <;> decide
    have inside := replaced_members nodes
    simp [node, Node.leaves, replaced_shown_append, replaced_shown_cons, name]
    omega

theorem replaced_members (nodes : List Node) :
    replaced (members nodes) ≤ replaced (shown (Node.leavesAll nodes)) := by
  match nodes with
  | [] => exact Nat.le_refl _
  | n :: nodes =>
    have first := replaced_node n
    have rest := replaced_members nodes
    simp [members, Node.leavesAll, replaced_shown_append]
    omega

end

end Sexpr

namespace Outline

variable {hidden : Char → Bool}

theorem replaced_margin (level : Nat) : replaced (margin level) = 0 := by
  induction level with
  | zero => rfl
  | succ level ih => simp [margin_succ, indent, ih]

theorem replaced_leaf (l : Leaf) : replaced (leaf hidden l) ≤ replaced (Utf8.lossy l.data) := by
  have kind : replaced l.kind.name.toList = 0 := by cases l.kind <;> decide
  have literal := replaced_literal hidden (Utf8.lossy l.data)
  rw [← List.append_nil (leaf hidden l), leaf_append]
  simpa [kind] using literal

theorem replaced_field (level : Nat) {name : String} (hn : replaced name.toList = 0) (l : Leaf) :
    replaced (fieldText hidden level name l) ≤ replaced (Utf8.lossy l.data) := by
  simpa [fieldText, hn, replaced_margin] using replaced_leaf l

mutual

theorem replaced_node (level : Nat) (n : Node) :
    replaced ((node hidden level n).flatMap Line.render) ≤ replaced (shown n.leaves) := by
  match n with
  | .leaf l =>
    have only : replaced (leaf hidden l) ≤ _ := replaced_leaf l
    rw [text_leaf, Node.leaves, replaced_shown_cons]
    simpa [replaced_margin] using Nat.le_add_right_of_le only
  | .word nodes =>
    have list := replaced_list (level + 1) nodes
    rw [text_word]
    simpa [Node.leaves, replaced_margin] using list
  | .enclosed form opening nodes closing =>
    have name : replaced form.name.toList = 0 := by cases form <;> decide
    have fields : replaced form.fields.1.toList = 0 ∧ replaced form.fields.2.toList = 0 := by
      cases form <;> decide
    have first : replaced (fieldText hidden (level + 1) form.fields.1 opening) ≤ _ :=
      replaced_field _ fields.1 opening
    have last : replaced (fieldText hidden (level + 1) form.fields.2 closing) ≤ _ :=
      replaced_field _ fields.2 closing
    have list := replaced_list (level + 1) nodes
    rw [text_enclosed]
    simp [Node.leaves, replaced_shown_append, replaced_shown_cons, replaced_margin, name]
    omega

theorem replaced_list (level : Nat) (nodes : List Node) :
    replaced (listText hidden level nodes) ≤ replaced (shown (Node.leavesAll nodes)) := by
  have inside := replaced_nodeAll (level + 1) nodes
  simpa [listText, replaced_margin] using inside

theorem replaced_nodeAll (level : Nat) (nodes : List Node) :
    replaced ((nodeAll hidden level nodes).flatMap Line.render) ≤
      replaced (shown (Node.leavesAll nodes)) := by
  match nodes with
  | [] => exact Nat.le_refl _
  | n :: nodes =>
    rw [nodeAll, List.flatMap_append, replaced_append, Node.leavesAll, replaced_shown_append]
    exact Nat.add_le_add (replaced_node level n) (replaced_nodeAll level nodes)

end

end Outline

section Dumps

variable {source : List UInt8} {text : List Char} {nodes : List Node}

theorem replaced_toJson (nodes : List Node) :
    replaced (toJson nodes).toList ≤ replaced (shown (Node.leavesAll nodes)) := by
  rw [toJson, String.toList_ofList, Json.replaced_array]
  exact Json.replaced_nodeAll nodes

theorem replaced_sexprs (nodes : List Node) :
    replaced ((sexprs nodes).flatMap String.toList) ≤
      replaced (shown (Node.leavesAll nodes)) := by
  induction nodes with
  | nil => exact Nat.le_refl _
  | cons n nodes ih =>
    rw [sexprs, List.map_cons, List.flatMap_cons, replaced_append, Node.leavesAll,
      replaced_shown_append, Node.sexpr, String.toList_ofList]
    exact Nat.add_le_add (Sexpr.replaced_node n) ih

theorem replaced_toOutline (nodes : List Node) :
    replaced (toOutline nodes).toList ≤ replaced (shown (Node.leavesAll nodes)) := by
  rw [toOutline, String.toList_ofList, Outline.render_eq]
  simpa [Outline.replaced_margin] using Outline.replaced_nodeAll 1 nodes

/-- Where the bytes of all leaves are valid, their texts make up the text. -/
theorem shown_of_tokenize (h : tokenize (Utf8.encode text) = .ok nodes)
    (hv : ∀ l ∈ Node.leavesAll nodes, Utf8.Valid l.data) :
    shown (Node.leavesAll nodes) = text := by
  have pieces : ((Node.leavesAll nodes).map Leaf.data).flatten = Utf8.encode text := by
    rw [← List.flatMap_def, ← Node.textAll_eq_leaves, textAll_of_tokenize h]
  have texts := Utf8.encode_flatten_lossy (List.forall_mem_map.mpr hv)
  rw [pieces, List.map_map] at texts
  rw [shown, List.flatMap_def]
  exact Utf8.encode_inj texts

/-- No leaf of a text cuts a character, unless it has arithmetic in it or a character of several
bytes right after a dollar or a backslash; so no dump has a replacement character that the text has
not. The word that is found in the place of `in` is told as it is. -/
theorem tokenize_characters (ht : Utf8.decode? source = some text)
    (hx : ¬ ascii "$((" <:+: source) (sheltered : Sheltered text) :
    (∀ nodes, tokenize source = .ok nodes →
      (∀ l ∈ Node.leavesAll nodes, Utf8.Valid l.data) ∧
      replaced (toJson nodes).toList ≤ replaced text ∧
      replaced ((sexprs nodes).flatMap String.toList) ≤ replaced text ∧
      replaced (toOutline nodes).toList ≤ replaced text) ∧
    ∀ e got, tokenize source = .error e → e.cause = .expectedIn got →
      Utf8.encode got.toList = (source.drop e.pos).takeWhile isPlain := by
  obtain rfl := Utf8.encode_of_decode? ht
  constructor
  · intro nodes h
    have valid := valid_of_tokenize hx sheltered h
    have pieces := shown_of_tokenize h valid
    rw [← pieces]
    exact ⟨valid, replaced_toJson nodes, replaced_sexprs nodes, replaced_toOutline nodes⟩
  · intro e got h hc
    exact (got_of_tokenize h hc).2.2

/-- A string in double quotes and a comment, with an escape, a name and characters of up to four
bytes around them. -/
theorem tokenize_characters_quoted :
    let text := "é\"\\\"€$x🙂\"$(ß#\uFFFD\n)".toList
    Sheltered text ∧ ∃ nodes, tokenize (Utf8.encode text) = .ok nodes ∧
      ∀ l ∈ Node.leavesAll nodes, Utf8.Valid l.data := by
  intro text
  have ht : Utf8.decode? (Utf8.encode text) = some text := by decide +kernel
  have hx : ¬ ascii "$((" <:+: Utf8.encode text := by decide +kernel
  have sheltered : Sheltered text := by decide +kernel
  have answers : (tokenize (Utf8.encode text)).isOk := by decide +kernel
  cases h : tokenize (Utf8.encode text) with
  | ok nodes => exact ⟨sheltered, nodes, rfl, ((tokenize_characters ht hx sheltered).1 nodes h).1⟩
  | error e =>
    rw [h] at answers
    exact absurd answers Bool.false_ne_true

end Dumps

end ShellLex
