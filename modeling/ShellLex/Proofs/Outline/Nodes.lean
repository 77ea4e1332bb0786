import ShellLex.Proofs.Lines
import ShellLex.Proofs.Literals
import ShellLex.Proofs.Outline.Printer
import ShellLex.Proofs.Views
/-!
What an outline tells. Each line ends where its text does and its level is the number of its marks,
which are as many as the brackets that are open there; so the text tells all of a tree but offsets
and what is lost in decoding.
-/
namespace ShellLex

namespace Outline

def Line.ofText : List Char → Line
  | '.' :: ' ' :: ' ' :: text => { ofText text with level := (ofText text).level + 1 }
  | text => ⟨0, text⟩

/-- Lines in brackets. What stands between an opening line and the closing line of its own level is
one level deeper, and all other lines that follow one another are of the same level. -/
inductive Nested : (level : Nat) → List Line → Prop where
  | nil {level} : Nested level []
  | item {level text rest} (ho : text.getLast? ∉ [some '[', some '\x7b'])
      (hc : text ∉ [[']'], ['\x7d']]) (h : Nested level rest) :
      Nested level (⟨level, text⟩ :: rest)
  | block {level label opening closing inside rest}
      (hb : (opening, closing) ∈ [('[', ']'), ('\x7b', '\x7d')])
      (hi : Nested (level + 1) inside) (h : Nested level rest) :
      Nested level (⟨level, label ++ [opening]⟩ :: (inside ++ ⟨level, [closing]⟩ :: rest))

structure Proper (text : List Char) : Prop where
  steady : Text.Steady text
  unmarked : text.head? ≠ some '.'

section Reading

variable {line : Line} {lines : List Line} {level : Nat} {text : List Char}

theorem ofText_unmarked (h : text.head? ≠ some '.') : Line.ofText text = ⟨0, text⟩ := by
  unfold Line.ofText
  split
  · exact absurd rfl h
  · rfl

theorem ofText_margin (h : text.head? ≠ some '.') (level : Nat) :
    Line.ofText (margin level ++ text) = ⟨level, text⟩ := by
  induction level with
  | zero => exact ofText_unmarked h
  | succ level ih =>
    have peel : margin (level + 1) ++ text = '.' :: ' ' :: ' ' :: (margin level ++ text) := rfl
    rw [peel, Line.ofText, ih]

theorem margin_steady (level : Nat) : Text.Steady (margin level) := by
  induction level with
  | zero => exact ⟨by simp [margin], by simp [margin]⟩
  | succ level ih =>
    have one : Text.Steady indent := ⟨by decide, by decide⟩
    exact one.append ih

/-- The lines of a text are the lines that it was made of. -/
theorem lines_render (h : ∀ line ∈ lines, Proper line.text) :
    (Text.lines (lines.flatMap Line.render)).map Line.ofText = lines := by
  induction lines with
  | nil => rfl
  | cons line lines ih =>
    obtain ⟨hline, hlines⟩ := List.forall_mem_cons.mp h
    have steady := (margin_steady line.level).append hline.steady
    have first : line.render ++ lines.flatMap Line.render =
        (margin line.level ++ line.text) ++ '\n' :: lines.flatMap Line.render := by
      simp [Line.render, margin]
    rw [List.flatMap_cons, first, Text.lines_append steady.single, steady.dropReturn, List.map_cons,
      ofText_margin hline.unmarked, ih hlines]

end Reading

section Nesting

variable {hidden : Char → Bool} {level : Nat} {lines lines' : List Line}

theorem Nested.append (h : Nested level lines) (k : Nested level lines') :
    Nested level (lines ++ lines') := by
  induction h with
  | nil => exact k
  | item ho hc _ ih => exact .item ho hc (ih k)
  | block hb hi _ _ ih =>
    rw [List.cons_append, List.append_assoc, List.cons_append]
    exact .block hb hi (ih k)

theorem nested_list (label : String) (h : Nested (level + 1) lines) :
    Nested level (list level label lines) := .block (by decide) h .nil

theorem nested_composite (name : String) (h : Nested (level + 1) lines) :
    Nested level (composite level name lines) := by
  have whole : Nested level (⟨level, name.toList ++ [' '] ++ ['\x7b']⟩ ::
      (lines ++ ⟨level, ['\x7d']⟩ :: [])) := .block (by decide) h .nil
  rw [List.append_assoc] at whole
  exact whole

theorem leaf_ends (hidden : Char → Bool) (l : Leaf) :
    ∃ text, leaf hidden l = text ++ [' ', '\x7d'] := ⟨_, rfl⟩

/-- A line that ends in a leaf has no bracket of its own. -/
theorem nested_leaf (start : List Char) (l : Leaf) (h : Nested level lines) :
    Nested level (⟨level, start ++ leaf hidden l⟩ :: lines) := by
  obtain ⟨text, ht⟩ := leaf_ends hidden l
  rw [ht, ← List.append_assoc]
  exact .item (by simp) (by simp [List.append_eq_singleton_iff]) h

mutual

theorem nested_node (level : Nat) (n : Node) : Nested level (node hidden level n) := by
  match n with
  | .leaf l => exact nested_leaf [] l .nil
  | .word nodes =>
    rw [node]
    exact nested_composite _ (nested_list _ (nested_nodeAll (level + 2) nodes))
  | .enclosed form opening nodes closing =>
    rw [node]
    exact nested_composite _ <| nested_leaf _ opening <| nested_leaf _ closing <|
      nested_list _ (nested_nodeAll (level + 2) nodes)

theorem nested_nodeAll (level : Nat) (nodes : List Node) :
    Nested level (nodeAll hidden level nodes) := by
  match nodes with
  | [] => exact .nil
  | n :: nodes =>
    rw [nodeAll]
    exact (nested_node level n).append (nested_nodeAll level nodes)

end

end Nesting

section Telling

variable {hidden : Char → Bool} {level : Nat} {r r' : List Char}

theorem margin_succ (level : Nat) : margin (level + 1) = margin level ++ indent := by
  simp [margin, List.replicate_succ']

theorem leaf_append (hidden : Char → Bool) (l : Leaf) (r : List Char) :
    leaf hidden l ++ r = "Leaf ".toList ++ (l.kind.name.toList ++ ' ' :: '\x7b' :: ' ' ::
      (Text.literalWith hidden (Utf8.lossy l.data) ++ ' ' :: '\x7d' :: r)) := by
  delta leaf
  simp

/-- A leaf tells what shows of it, whatever follows. -/
theorem leaf_tells {l l' : Leaf} (h : leaf hidden l ++ r = leaf hidden l' ++ r') :
    l.view = l'.view ∧ r = r' := by
  rw [leaf_append, leaf_append, List.append_cancel_left_eq] at h
  obtain ⟨hkind, _, htail⟩ := Text.append_mark_inj l.kind.blank_notMem_name
    l'.kind.blank_notMem_name h
  obtain ⟨_, htail⟩ := List.cons.inj htail
  obtain ⟨_, htail⟩ := List.cons.inj htail
  obtain ⟨htext, htail⟩ := Text.literalWith_delimits hidden _ _ _ _ htail
  obtain ⟨_, htail⟩ := List.cons.inj htail
  refine ⟨?_, (List.cons.inj htail).2⟩
  rw [Leaf.view, Leaf.view, Kind.name_inj hkind, htext]

def listText (hidden : Char → Bool) (level : Nat) (nodes : List Node) : List Char :=
  margin level ++ ("Nodes: [\n".toList ++ ((nodeAll hidden (level + 1) nodes).flatMap Line.render ++
    (margin level ++ [']', '\n'])))

def fieldText (hidden : Char → Bool) (level : Nat) (name : String) (l : Leaf) : List Char :=
  margin level ++ (name.toList ++ (':' :: ' ' :: (leaf hidden l ++ ['\n'])))

theorem text_leaf (l : Leaf) :
    (node hidden level (.leaf l)).flatMap Line.render =
      margin level ++ (leaf hidden l ++ ['\n']) := by
  simp [node, Line.render, margin]

theorem text_word (nodes : List Node) :
    (node hidden level (.word nodes)).flatMap Line.render =
      margin level ++ ("Word \x7b\n".toList ++ (listText hidden (level + 1) nodes ++
        (margin level ++ ['\x7d', '\n']))) := by
  simp [node, composite, list, listText, Line.render, margin]

theorem text_enclosed (form : Enclosure) (opening closing : Leaf) (nodes : List Node) :
    (node hidden level (.enclosed form opening nodes closing)).flatMap Line.render =
      margin level ++ (form.name.toList ++ (" \x7b\n".toList ++
        (fieldText hidden (level + 1) form.fields.1 opening ++
          (fieldText hidden (level + 1) form.fields.2 closing ++
            (listText hidden (level + 1) nodes ++ (margin level ++ ['\x7d', '\n'])))))) := by
  simp [node, composite, field, list, listText, fieldText, Line.render, margin]

theorem fieldText_tells {name : String} {l l' : Leaf}
    (h : fieldText hidden level name l ++ r = fieldText hidden level name l' ++ r') :
    l.view = l'.view ∧ r = r' := by
  simp only [fieldText, List.append_assoc, List.append_cancel_left_eq, List.cons_append,
    List.cons.injEq, true_and] at h
  obtain ⟨hview, hr⟩ := leaf_tells h
  exact ⟨hview, (List.cons.inj hr).2⟩

mutual

/-- The text of a node tells what shows of it, whatever follows. -/
theorem node_tells (level : Nat) (n n' : Node) {r r' : List Char}
    (h : (node hidden level n).flatMap Line.render ++ r =
      (node hidden level n').flatMap Line.render ++ r') : n.view = n'.view ∧ r = r' := by
  match n, n' with
  | .leaf l, .leaf l' =>
    simp only [text_leaf, List.append_assoc, List.append_cancel_left_eq] at h
    obtain ⟨hview, hr⟩ := leaf_tells h
    exact ⟨congrArg View.leaf hview, (List.cons.inj hr).2⟩
  | .word nodes, .word nodes' =>
    simp only [text_word, List.append_assoc, List.append_cancel_left_eq] at h
    obtain ⟨hviews, hr⟩ := listText_tells (level + 1) nodes nodes' h
    exact ⟨congrArg View.word hviews, by simpa using hr⟩
  | .enclosed form opening nodes closing, .enclosed form' opening' nodes' closing' =>
    simp only [text_enclosed, List.append_assoc, List.append_cancel_left_eq] at h
    obtain rfl : form = form' := by
      revert h
      cases form <;> cases form' <;> simp [Enclosure.name]
    rw [List.append_cancel_left_eq, List.append_cancel_left_eq] at h
    obtain ⟨hopening, h⟩ := fieldText_tells h
    obtain ⟨hclosing, h⟩ := fieldText_tells h
    obtain ⟨hviews, hr⟩ := listText_tells (level + 1) nodes nodes' h
    exact ⟨by simp only [Node.view, hopening, hclosing, hviews], by simpa using hr⟩
  -- The names of a leaf, a word and the composites begin with different letters.
  | .leaf l, .word nodes | .word nodes, .leaf l =>
    simp [text_leaf, text_word, leaf_append] at h
  | .leaf l, .enclosed form opening nodes closing
  | .enclosed form opening nodes closing, .leaf l =>
    cases form <;> simp [text_leaf, text_enclosed, leaf_append, Enclosure.name] at h
  | .word nodes, .enclosed form opening nodes' closing
  | .enclosed form opening nodes' closing, .word nodes =>
    cases form <;> simp [text_word, text_enclosed, Enclosure.name] at h

/-- So does the text of the list in a composite. -/
theorem listText_tells (level : Nat) (nodes nodes' : List Node) {r r' : List Char}
    (h : listText hidden level nodes ++ r = listText hidden level nodes' ++ r') :
    Node.viewAll nodes = Node.viewAll nodes' ∧ r = r' := by
  simp only [listText, List.append_assoc, List.append_cancel_left_eq] at h
  exact nodeAll_tells level nodes nodes' h

/-- And so do the nodes of a list, up to the bracket that closes it. -/
theorem nodeAll_tells (level : Nat) (nodes nodes' : List Node) {r r' : List Char}
    (h : (nodeAll hidden (level + 1) nodes).flatMap Line.render ++
        (margin level ++ ([']', '\n'] ++ r)) =
      (nodeAll hidden (level + 1) nodes').flatMap Line.render ++
        (margin level ++ ([']', '\n'] ++ r'))) :
    Node.viewAll nodes = Node.viewAll nodes' ∧ r = r' := by
  match nodes, nodes' with
  | [], [] =>
    simp [nodeAll] at h
    exact ⟨rfl, h⟩
  | n :: nodes, n' :: nodes' =>
    simp only [nodeAll, List.flatMap_append, List.append_assoc] at h
    obtain ⟨hview, hrest⟩ := node_tells (level + 1) n n' h
    obtain ⟨hviews, hr⟩ := nodeAll_tells level nodes nodes' hrest
    exact ⟨by rw [Node.viewAll, Node.viewAll, hview, hviews], hr⟩
  | [], n :: nodes | n :: nodes, [] =>
    -- The mark of one level more stands where the bracket would.
    obtain ⟨text, lines, hn⟩ := node_starts hidden (level + 1) n
    have first : Line.render ⟨level + 1, text⟩ =
      margin level ++ (indent ++ (text ++ ['\n'])) := by
      rw [← List.append_assoc, ← margin_succ]
      simp [Line.render, margin]
    simp [nodeAll, hn, first, indent] at h

end

end Telling

section Showing

variable {hidden : Char → Bool}

theorem leaf_congr {l l' : Leaf} (h : l.view = l'.view) : leaf hidden l = leaf hidden l' := by
  obtain ⟨hkind, htext⟩ := Leaf.View.mk.inj h
  delta leaf
  rw [hkind, htext]

mutual

/-- No more of a node is written than what shows of it. -/
theorem node_congr (level : Nat) {n n' : Node} (h : n.view = n'.view) :
    node hidden level n = node hidden level n' := by
  match n, n' with
  | .leaf l, .leaf l' =>
    rw [node, node, leaf_congr (View.leaf.inj h)]
  | .word nodes, .word nodes' =>
    rw [node, node, nodeAll_congr (level + 2) (View.word.inj h)]
  | .enclosed form opening nodes closing, .enclosed form' opening' nodes' closing' =>
    obtain ⟨rfl, hopening, hnodes, hclosing⟩ := View.enclosed.inj h
    rw [node, node, nodeAll_congr (level + 2) hnodes]
    simp only [field, leaf_congr hopening, leaf_congr hclosing]
  | .leaf _, .word _ | .leaf _, .enclosed .. | .word _, .leaf _ | .word _, .enclosed ..
  | .enclosed .., .leaf _ | .enclosed .., .word _ => cases h

theorem nodeAll_congr (level : Nat) {nodes nodes' : List Node}
    (h : Node.viewAll nodes = Node.viewAll nodes') :
    nodeAll hidden level nodes = nodeAll hidden level nodes' := by
  match nodes, nodes' with
  | [], [] => rfl
  | n :: nodes, n' :: nodes' =>
    obtain ⟨hn, hnodes⟩ := List.cons.inj h
    rw [nodeAll, nodeAll, node_congr level hn, nodeAll_congr level hnodes]
  | [], _ :: _ | _ :: _, [] => cases h

end

theorem render_eq (nodes : List Node) :
    render hidden nodes = "[\n".toList ++ ((nodeAll hidden 1 nodes).flatMap Line.render ++
      (margin 0 ++ ([']', '\n'] ++ []))) := by
  simp [render, lines, list, Line.render, margin]

/-- The text tells what shows of a tree, and nothing else. -/
theorem render_inj {nodes nodes' : List Node} :
    render hidden nodes = render hidden nodes' ↔ Node.viewAll nodes = Node.viewAll nodes' := by
  constructor
  · intro h
    rw [render_eq, render_eq, List.append_cancel_left_eq] at h
    exact (nodeAll_tells 0 nodes nodes' h).1
  · intro h
    rw [render_eq, render_eq, nodeAll_congr 1 h]

end Showing

section Lines

variable {hidden : Char → Bool}

theorem leaf_steady (hidden : Char → Bool) (l : Leaf) : Text.Steady (leaf hidden l) where
  single := by
    have kind : '\n' ∉ l.kind.name.toList := by cases l.kind <;> decide
    have shown := leaf_append hidden l []
    rw [List.append_nil] at shown
    rw [shown]
    simp [kind, Text.newline_notMem_literalWith]
  unreturned := by
    obtain ⟨text, ht⟩ := leaf_ends hidden l
    simp [ht]

/-- A line that ends in a leaf is proper if there is no mark at its start. -/
theorem proper_leaf (start : List Char) (h : Text.Steady start) (hm : start.head? ≠ some '.')
    (l : Leaf) : Proper (start ++ leaf hidden l) where
  steady := h.append (leaf_steady hidden l)
  unmarked := by
    have shown := leaf_append hidden l []
    rw [List.append_nil] at shown
    rw [List.head?_append]
    cases start with
    | nil => simp [shown]
    | cons c start => simpa using hm

theorem proper_field (form : Enclosure) {name : String} (l : Leaf)
    (h : name = form.fields.1 ∨ name = form.fields.2) :
    Proper (name.toList ++ [':', ' '] ++ leaf hidden l) := by
  rcases h with rfl | rfl <;> cases form <;>
    exact proper_leaf _ ⟨by decide, by decide⟩ (by decide) l

theorem proper_list (level : Nat) {label : String} (hl : Proper (label.toList ++ ['[']))
    {items : List Line} (h : ∀ line ∈ items, Proper line.text) :
    ∀ line ∈ list level label items, Proper line.text := by
  have last : Proper [']'] := ⟨⟨by decide, by decide⟩, by decide⟩
  simp only [list, List.forall_mem_cons, List.forall_mem_append]
  exact ⟨hl, h, last, by simp⟩

theorem proper_composite (level : Nat) {name : String} (hn : Proper (name.toList ++ [' ', '\x7b']))
    {fields : List Line} (h : ∀ line ∈ fields, Proper line.text) :
    ∀ line ∈ composite level name fields, Proper line.text := by
  have last : Proper ['\x7d'] := ⟨⟨by decide, by decide⟩, by decide⟩
  simp only [composite, List.forall_mem_cons, List.forall_mem_append]
  exact ⟨hn, h, last, by simp⟩

mutual

theorem proper_node (level : Nat) (n : Node) :
    ∀ line ∈ node hidden level n, Proper line.text := by
  have nodesLabel : Proper ("Nodes: ".toList ++ ['[']) := ⟨⟨by decide, by decide⟩, by decide⟩
  match n with
  | .leaf l =>
    rw [node, List.forall_mem_singleton]
    exact proper_leaf [] ⟨by decide, by decide⟩ (by decide) l
  | .word nodes =>
    rw [node]
    exact proper_composite level ⟨⟨by decide, by decide⟩, by decide⟩
      (proper_list (level + 1) nodesLabel (proper_nodeAll (level + 2) nodes))
  | .enclosed form opening nodes closing =>
    have first : Proper (form.name.toList ++ [' ', '\x7b']) := by
      cases form <;> exact ⟨⟨by decide, by decide⟩, by decide⟩
    rw [node]
    refine proper_composite level first ?_
    simp only [List.forall_mem_cons]
    exact ⟨proper_field form opening (.inl rfl), proper_field form closing (.inr rfl),
      proper_list (level + 1) nodesLabel (proper_nodeAll (level + 2) nodes)⟩

theorem proper_nodeAll (level : Nat) (nodes : List Node) :
    ∀ line ∈ nodeAll hidden level nodes, Proper line.text := by
  match nodes with
  | [] => simp [nodeAll]
  | n :: nodes =>
    rw [nodeAll, List.forall_mem_append]
    exact ⟨proper_node level n, proper_nodeAll level nodes⟩

end

/-- The lines of an outline, at their levels, can be told from its text. -/
theorem lines_of_render (nodes : List Node) :
    (Text.lines (render hidden nodes)).map Line.ofText = lines hidden nodes :=
  lines_render (proper_list 0 ⟨⟨by decide, by decide⟩, by decide⟩ (proper_nodeAll 1 nodes))

theorem nested_lines (nodes : List Node) : Nested 0 (lines hidden nodes) :=
  nested_list _ (nested_nodeAll 1 nodes)

end Lines

/-- Whatever characters are spelled by number, two trees have the same text exactly if nothing that
shows of them differs; the marks before each line are as many as there are brackets around it; and
the printer writes that text and comes back to the depth that it began at. -/
theorem print_faithful (hidden : Char → Bool) :
    (∀ nodes nodes',
      render hidden nodes = render hidden nodes' ↔ Node.viewAll nodes = Node.viewAll nodes') ∧
    (∀ nodes, (Text.lines (render hidden nodes)).map Line.ofText = lines hidden nodes ∧
      Nested 0 (lines hidden nodes)) ∧
    (∀ nodes (p : Printer), ((Printing.print hidden nodes).run p).2.depth = p.depth) ∧
    ∀ nodes written, (Printing.print hidden nodes).run ⟨0, written⟩ =
      ((), ⟨0, written ++ render hidden nodes⟩) := by
  refine ⟨fun _ _ => render_inj, fun nodes => ⟨lines_of_render nodes, nested_lines nodes⟩, ?_, ?_⟩
  · intro nodes p
    rw [Printing.adds_print nodes p]
  · intro nodes written
    rw [Printing.adds_print nodes]
    exact congrArg (fun text => ((), (⟨0, written ++ text⟩ : Printer)))
      (Printing.continued_lines nodes)

end Outline

end ShellLex
