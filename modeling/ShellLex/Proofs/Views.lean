import ShellLex.Node
import ShellLex.Proofs.Utf8
/-!
What a dump of a tree can show. A view is a tree without its offsets and with its bytes decoded;
the leaves of a tree, delimiters among them, stand in the order of the source.
-/
namespace ShellLex

theorem Kind.name_inj {kind kind' : Kind} (h : kind.name.toList = kind'.name.toList) :
    kind = kind' := by
  revert h
  cases kind <;> cases kind' <;> decide

theorem Kind.blank_notMem_name (kind : Kind) : ' ' ∉ kind.name.toList := by
  cases kind <;> decide

theorem Enclosure.name_inj {form form' : Enclosure} (h : form.name.toList = form'.name.toList) :
    form = form' := by
  revert h
  cases form <;> cases form' <;> decide

structure Leaf.View where
  kind : Kind
  text : List Char
  deriving DecidableEq, Repr

def Leaf.view (l : Leaf) : View := ⟨l.kind, Utf8.lossy l.data⟩

inductive View where
  | leaf (leaf : Leaf.View)
  | word (parts : List View)
  | enclosed (form : Enclosure) (opening : Leaf.View) (parts : List View) (closing : Leaf.View)
  deriving Repr

namespace Node

mutual

/-- The node without its offsets, each leaf's bytes replaced by the text that they decode to. -/
def view : Node → View
  | .leaf l => .leaf l.view
  | .word nodes => .word (viewAll nodes)
  | .enclosed form opening nodes closing =>
    .enclosed form opening.view (viewAll nodes) closing.view

def viewAll : List Node → List View
  | [] => []
  | node :: nodes => node.view :: viewAll nodes

end

mutual

/-- All leaves, an opening one before and a closing one after what it encloses. -/
def leaves : Node → List Leaf
  | .leaf l => [l]
  | .word nodes => leavesAll nodes
  | .enclosed _ opening nodes closing => opening :: (leavesAll nodes ++ [closing])

def leavesAll : List Node → List Leaf
  | [] => []
  | node :: nodes => node.leaves ++ leavesAll nodes

end

mutual

theorem text_eq_leaves (node : Node) : node.text = node.leaves.flatMap Leaf.data := by
  match node with
  | .leaf l => simp [text, leaves]
  | .word nodes => rw [text, leaves, textAll_eq_leaves nodes]
  | .enclosed _ opening nodes closing => simp [text, leaves, textAll_eq_leaves nodes]

theorem textAll_eq_leaves (nodes : List Node) :
    textAll nodes = (leavesAll nodes).flatMap Leaf.data := by
  match nodes with
  | [] => rfl
  | node :: nodes =>
    rw [textAll, leavesAll, List.flatMap_append, text_eq_leaves node, textAll_eq_leaves nodes]

end

end Node

namespace View

mutual

def texts : View → List (List Char)
  | .leaf l => [l.text]
  | .word parts => textsAll parts
  | .enclosed _ opening parts closing => opening.text :: (textsAll parts ++ [closing.text])

def textsAll : List View → List (List Char)
  | [] => []
  | view :: views => view.texts ++ textsAll views

end

mutual

theorem texts_view (node : Node) : node.view.texts = node.leaves.map fun l => Utf8.lossy l.data := by
  match node with
  | .leaf l => rfl
  | .word nodes => rw [Node.view, texts, Node.leaves, textsAll_view nodes]
  | .enclosed _ opening nodes closing =>
    rw [Node.view, texts, Node.leaves, textsAll_view nodes, List.map_cons, List.map_append]
    rfl

theorem textsAll_view (nodes : List Node) :
    textsAll (Node.viewAll nodes) = (Node.leavesAll nodes).map fun l => Utf8.lossy l.data := by
  match nodes with
  | [] => rfl
  | node :: nodes =>
    rw [Node.viewAll, textsAll, Node.leavesAll, List.map_append, texts_view node,
      textsAll_view nodes]

end

end View

end ShellLex
