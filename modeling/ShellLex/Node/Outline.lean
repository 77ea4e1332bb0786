import ShellLex.Node
import ShellLex.Text.Literal
import ShellLex.Text.Utf8
/-!
Trees as indented text. An outline is a list of lines, each at a level of nesting that shows as so
many marks before it; only the last step turns the lines into text.
-/
namespace ShellLex

namespace Outline

structure Line where
  level : Nat
  text : List Char
  deriving DecidableEq, Repr

def indent : List Char := ['.', ' ', ' ']

def Line.render (line : Line) : List Char :=
  (List.replicate line.level indent).flatten ++ line.text ++ ['\n']

def leaf (hidden : Char → Bool) (l : Leaf) : List Char :=
  "Leaf ".toList ++ l.kind.name.toList ++ [' ', '{', ' '] ++
    Text.literalWith hidden (Utf8.lossy l.data) ++ [' ', '}']

def field (hidden : Char → Bool) (level : Nat) (name : String) (l : Leaf) : Line :=
  ⟨level, name.toList ++ [':', ' '] ++ leaf hidden l⟩

def list (level : Nat) (label : String) (items : List Line) : List Line :=
  ⟨level, label.toList ++ ['[']⟩ :: (items ++ [⟨level, [']']⟩])

def composite (level : Nat) (name : String) (fields : List Line) : List Line :=
  ⟨level, name.toList ++ [' ', '{']⟩ :: (fields ++ [⟨level, ['}']⟩])

mutual

/-- The delimiters of an enclosure both come before its body. -/
def node (hidden : Char → Bool) (level : Nat) : Node → List Line
  | .leaf l => [⟨level, leaf hidden l⟩]
  | .word nodes =>
    composite level "Word" (list (level + 1) "Nodes: " (nodeAll hidden (level + 2) nodes))
  | .enclosed form opening nodes closing =>
    composite level form.name
      (field hidden (level + 1) form.fields.1 opening ::
        field hidden (level + 1) form.fields.2 closing ::
        list (level + 1) "Nodes: " (nodeAll hidden (level + 2) nodes))

def nodeAll (hidden : Char → Bool) (level : Nat) : List Node → List Line
  | [] => []
  | n :: nodes => node hidden level n ++ nodeAll hidden level nodes

end

def lines (hidden : Char → Bool) (nodes : List Node) : List Line :=
  list 0 "" (nodeAll hidden 1 nodes)

def render (hidden : Char → Bool) (nodes : List Node) : List Char :=
  (lines hidden nodes).flatMap Line.render

end Outline

def toOutline (nodes : List Node) : String := String.ofList (Outline.render Text.isHidden nodes)

end ShellLex
