import ShellLex.Node.Outline
/-!
Outlines written in one pass, with a count of the levels in place of a level for each line. The
opening bracket of a list and the first line of a node go on the line that was begun before them.
What is written is the outline, and the count is what it was before.
-/
namespace ShellLex

structure Printer where
  depth : Nat
  written : List Char
  deriving Repr

abbrev Printing := StateM Printer Unit

namespace Printing

def write (text : List Char) : Printing := modify fun p => { p with written := p.written ++ text }

def margin : Printing := do write (List.replicate (← get).depth Outline.indent).flatten

def deeper (inside : Printing) : Printing := do
  modify fun p => { p with depth := p.depth + 1 }
  inside
  modify fun p => { p with depth := p.depth - 1 }

def list (items : Printing) : Printing := do
  write ['[', '\n']
  deeper items
  margin
  write [']', '\n']

section Nodes

variable (hidden : Char → Bool)

def leaf (l : Leaf) : Printing := write (Outline.leaf hidden l ++ ['\n'])

def fields : List (String × Leaf) → Printing
  | [] => return
  | (name, l) :: rest => do
    margin
    write (name.toList ++ [':', ' '])
    leaf hidden l
    fields rest

def composite (name : String) (delimiters : List (String × Leaf)) (nodes : Printing) :
    Printing := do
  write (name.toList ++ [' ', '{', '\n'])
  deeper do
    fields hidden delimiters
    margin
    write "Nodes: ".toList
    list nodes
  margin
  write ['}', '\n']

mutual

def node : Node → Printing
  | .leaf l => leaf hidden l
  | .word nodes => composite hidden "Word" [] (nodeAll nodes)
  | .enclosed form opening nodes closing =>
    composite hidden form.name [(form.fields.1, opening), (form.fields.2, closing)]
      (nodeAll nodes)

def nodeAll : List Node → Printing
  | [] => return
  | n :: nodes => do
    margin
    node n
    nodeAll nodes

end

def print (nodes : List Node) : Printing := list (nodeAll hidden nodes)

end Nodes

/-- At every depth the action adds the text for that depth, and it leaves the depth. -/
def Adds (action : Printing) (text : Nat → List Char) : Prop :=
  ∀ p : Printer, action.run p = ((), ⟨p.depth, p.written ++ text p.depth⟩)

end Printing

namespace Outline

def margin (level : Nat) : List Char := (List.replicate level indent).flatten

def continued : List Line → List Char
  | [] => []
  | line :: lines => line.text ++ '\n' :: lines.flatMap Line.render

/-- The first line of a node is at its level. -/
theorem node_starts (hidden : Char → Bool) (level : Nat) (n : Node) :
    ∃ text lines, node hidden level n = ⟨level, text⟩ :: lines := by
  cases n <;> exact ⟨_, _, rfl⟩

theorem margin_continued (hidden : Char → Bool) (level : Nat) (n : Node) :
    margin level ++ continued (node hidden level n) =
      (node hidden level n).flatMap Line.render := by
  obtain ⟨text, lines, hn⟩ := node_starts hidden level n
  rw [hn]
  simp [continued, Line.render, margin]

end Outline

namespace Printing

open Outline (Line continued)

variable {action next : Printing} {text text' : Nat → List Char} {hidden : Char → Bool}

theorem adds_write (x : List Char) : Adds (write x) fun _ => x := fun _ => rfl

theorem adds_margin : Adds margin Outline.margin := fun _ => rfl

theorem adds_return : Adds (return) fun _ => [] := fun p => by simp; rfl

theorem Adds.seq (h : Adds action text) (k : Adds next text') :
    Adds (do action; next) fun depth => text depth ++ text' depth := by
  intro p
  change next.run (action.run p).2 = _
  rw [h p, k, List.append_assoc]

theorem Adds.deeper (h : Adds action text) : Adds (deeper action) fun depth => text (depth + 1) := by
  intro p
  change ((), ({ (action.run ⟨p.depth + 1, p.written⟩).2 with
    depth := (action.run ⟨p.depth + 1, p.written⟩).2.depth - 1 } : Printer)) = _
  rw [h]
  rfl

theorem Adds.congr (h : Adds action text) (heq : ∀ depth, text depth = text' depth) :
    Adds action text' := by
  intro p
  rw [h p, heq]

theorem adds_leaf (l : Leaf) : Adds (leaf hidden l) fun _ => Outline.leaf hidden l ++ ['\n'] :=
  adds_write _

theorem adds_fields (delimiters : List (String × Leaf)) :
    Adds (fields hidden delimiters) fun depth =>
      (delimiters.map fun d => Outline.field hidden depth d.1 d.2).flatMap Line.render := by
  induction delimiters with
  | nil => exact adds_return
  | cons d delimiters ih =>
    refine (adds_margin.seq <| (adds_write _).seq <| (adds_leaf d.2).seq ih).congr fun depth => ?_
    simp [Outline.field, Line.render, Outline.margin]

theorem adds_list (h : Adds action text) :
    Adds (list action) fun depth =>
      ['[', '\n'] ++ (text (depth + 1) ++ (Outline.margin depth ++ [']', '\n'])) :=
  (adds_write _).seq <| h.deeper.seq <| adds_margin.seq <| adds_write _

theorem adds_composite (hidden : Char → Bool) (name : String) (delimiters : List (String × Leaf))
    {items : Nat → List Line} (h : Adds action fun depth => (items depth).flatMap Line.render) :
    Adds (composite hidden name delimiters action) fun depth =>
      continued (Outline.composite depth name
        ((delimiters.map fun d => Outline.field hidden (depth + 1) d.1 d.2) ++
          Outline.list (depth + 1) "Nodes: " (items (depth + 2)))) := by
  have first : Adds (fields hidden delimiters) _ := adds_fields delimiters
  have inside := first.seq <| adds_margin.seq <| (adds_write "Nodes: ".toList).seq <| adds_list h
  have whole := (adds_write (name.toList ++ [' ', '{', '\n'])).seq <| inside.deeper.seq <|
    adds_margin.seq <| adds_write ['}', '\n']
  refine whole.congr fun depth => ?_
  simp [continued, Outline.composite, Outline.list, Line.render, Outline.margin]

mutual

/-- A node is written as its lines, the first of which was begun before. -/
theorem adds_node (n : Node) :
    Adds (node hidden n) fun depth => continued (Outline.node hidden depth n) := by
  match n with
  | .leaf l => exact (adds_leaf l).congr fun depth => by simp [continued, Outline.node]
  | .word nodes =>
    have whole := adds_composite hidden "Word" [] (adds_nodeAll nodes)
    simpa only [node, Outline.node, List.map_nil, List.nil_append] using whole
  | .enclosed form opening nodes closing =>
    have whole := adds_composite hidden form.name
      [(form.fields.1, opening), (form.fields.2, closing)] (adds_nodeAll nodes)
    simpa only [node, Outline.node, List.map_cons, List.map_nil, List.cons_append,
      List.nil_append] using whole

theorem adds_nodeAll (nodes : List Node) :
    Adds (nodeAll hidden nodes) fun depth =>
      (Outline.nodeAll hidden depth nodes).flatMap Line.render := by
  match nodes with
  | [] => exact adds_return
  | n :: nodes =>
    refine (adds_margin.seq <| (adds_node n).seq (adds_nodeAll nodes)).congr fun depth => ?_
    rw [← List.append_assoc, Outline.margin_continued, ← List.flatMap_append, Outline.nodeAll]

end

/-- A whole tree. From a depth of none its first line has no margin, and the text is the outline. -/
theorem adds_print (nodes : List Node) :
    Adds (print hidden nodes) fun depth =>
      continued (Outline.list depth "" (Outline.nodeAll hidden (depth + 1) nodes)) := by
  refine (adds_list (adds_nodeAll nodes)).congr fun depth => ?_
  simp [continued, Outline.list, Line.render, Outline.margin]

theorem continued_lines (nodes : List Node) :
    continued (Outline.lines hidden nodes) = Outline.render hidden nodes := by
  simp [continued, Outline.render, Outline.lines, Outline.list, Line.render]

end Printing

end ShellLex
