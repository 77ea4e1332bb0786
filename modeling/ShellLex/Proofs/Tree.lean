import ShellLex.Node
/-!
Nodes as trees: what holds of a node and of all nodes inside of it, and the same nodes read at other
offsets. Moving a node changes the offsets of its leaves and nothing else.
-/
namespace ShellLex

variable {f : Nat → Nat}

def Leaf.move (f : Nat → Nat) (leaf : Leaf) : Leaf := { leaf with pos := f leaf.pos }

@[simp] theorem Leaf.move_kind (leaf : Leaf) : (leaf.move f).kind = leaf.kind := rfl
@[simp] theorem Leaf.move_data (leaf : Leaf) : (leaf.move f).data = leaf.data := rfl
@[simp] theorem Leaf.move_pos (leaf : Leaf) : (leaf.move f).pos = f leaf.pos := rfl

namespace Node

mutual

def move (f : Nat → Nat) : Node → Node
  | .leaf l => .leaf (l.move f)
  | .word nodes => .word (moveAll f nodes)
  | .enclosed form opening nodes closing =>
    .enclosed form (opening.move f) (moveAll f nodes) (closing.move f)

def moveAll (f : Nat → Nat) : List Node → List Node
  | [] => []
  | node :: nodes => node.move f :: moveAll f nodes

end

theorem moveAll_eq_map (nodes : List Node) : moveAll f nodes = nodes.map (move f) := by
  induction nodes with
  | nil => rfl
  | cons node nodes ih => rw [moveAll, ih, List.map_cons]

@[simp] theorem moveAll_nil : moveAll f [] = [] := rfl

@[simp] theorem moveAll_cons (node : Node) (nodes : List Node) :
    moveAll f (node :: nodes) = node.move f :: moveAll f nodes := rfl

@[simp] theorem moveAll_append (nodes nodes' : List Node) :
    moveAll f (nodes ++ nodes') = moveAll f nodes ++ moveAll f nodes' := by
  simp [moveAll_eq_map]

@[simp] theorem moveAll_reverse (nodes : List Node) :
    moveAll f nodes.reverse = (moveAll f nodes).reverse := by
  simp [moveAll_eq_map]

mutual

theorem move_id (node : Node) : node.move id = node := by
  match node with
  | .leaf l => rfl
  | .word nodes => rw [move, moveAll_id nodes]
  | .enclosed form opening nodes closing =>
    rw [move, moveAll_id nodes]
    rfl

theorem moveAll_id (nodes : List Node) : moveAll id nodes = nodes := by
  match nodes with
  | [] => rfl
  | node :: nodes => rw [moveAll, move_id node, moveAll_id nodes]

end

mutual

def All (p : Node → Prop) : (node : Node) → Prop
  | .leaf l => p (.leaf l)
  | .word nodes => p (.word nodes) ∧ AllIn p nodes
  | .enclosed form opening nodes closing =>
    p (.enclosed form opening nodes closing) ∧ AllIn p nodes

def AllIn (p : Node → Prop) : List Node → Prop
  | [] => True
  | node :: nodes => node.All p ∧ AllIn p nodes

end

variable {p q : Node → Prop} {node : Node} {nodes nodes' : List Node}

theorem All.self (h : node.All p) : p node := by
  cases node with
  | leaf => exact h
  | word | enclosed => exact h.1

@[simp] theorem allIn_nil : AllIn p [] := trivial

@[simp] theorem allIn_cons : AllIn p (node :: nodes) ↔ node.All p ∧ AllIn p nodes := Iff.rfl

@[simp] theorem allIn_append : AllIn p (nodes ++ nodes') ↔ AllIn p nodes ∧ AllIn p nodes' := by
  induction nodes with
  | nil => simp
  | cons node nodes ih => simp [ih, and_assoc]

mutual

theorem All.imp {node : Node} (h : node.All p) (hpq : ∀ n, p n → q n) : node.All q := by
  match node, h with
  | .leaf l, h => exact hpq _ h
  | .word nodes, ⟨h, hn⟩ => exact ⟨hpq _ h, AllIn.imp hn hpq⟩
  | .enclosed form opening nodes closing, ⟨h, hn⟩ => exact ⟨hpq _ h, AllIn.imp hn hpq⟩

theorem AllIn.imp {nodes : List Node} (h : AllIn p nodes) (hpq : ∀ n, p n → q n) :
    AllIn q nodes := by
  match nodes, h with
  | [], _ => trivial
  | node :: nodes, ⟨h, hn⟩ => exact ⟨h.imp hpq, AllIn.imp hn hpq⟩

end

mutual

theorem all_move (node : Node) : (node.move f).All p ↔ node.All (p <| move f ·) := by
  match node with
  | .leaf l => rfl
  | .word nodes => simp only [move, All, allIn_moveAll nodes]
  | .enclosed form opening nodes closing => simp only [move, All, allIn_moveAll nodes]

theorem allIn_moveAll (nodes : List Node) :
    AllIn p (moveAll f nodes) ↔ AllIn (p <| move f ·) nodes := by
  match nodes with
  | [] => rfl
  | node :: nodes => rw [moveAll, allIn_cons, allIn_cons, all_move node, allIn_moveAll nodes]

end

mutual

@[simp] theorem text_move (node : Node) : (node.move f).text = node.text := by
  match node with
  | .leaf l => rfl
  | .word nodes => rw [move, text, text, textAll_moveAll nodes]
  | .enclosed form opening nodes closing =>
    rw [move, text, text, textAll_moveAll nodes, Leaf.move_data, Leaf.move_data]

@[simp] theorem textAll_moveAll (nodes : List Node) :
    textAll (moveAll f nodes) = textAll nodes := by
  match nodes with
  | [] => rfl
  | node :: nodes => rw [moveAll, textAll, textAll, text_move node, textAll_moveAll nodes]

end

@[simp] theorem textAll_append : textAll (nodes ++ nodes') = textAll nodes ++ textAll nodes' := by
  induction nodes with
  | nil => rfl
  | cons node nodes ih => rw [List.cons_append, textAll, ih, textAll, List.append_assoc]

theorem onlyLeaf?_moveAll (kind : Kind) (nodes : List Node) :
    onlyLeaf? kind (moveAll f nodes) = (onlyLeaf? kind nodes).map (Leaf.move f) := by
  match nodes with
  | [] => rfl
  | [.leaf l] =>
    by_cases h : l.kind = kind
    · simp [move, onlyLeaf?, h]
    · simp [move, onlyLeaf?, h]
  | [.word _] | [.enclosed _ _ _ _] => rfl
  | .leaf _ :: _ :: _ | .word _ :: _ :: _ | .enclosed _ _ _ _ :: _ :: _ => rfl

theorem onlyLeaf?_filter_moveAll (kind : Kind) (nodes : List Node) (data : List UInt8) :
    (onlyLeaf? kind (moveAll f nodes)).filter (·.data = data) =
      ((onlyLeaf? kind nodes).filter (·.data = data)).map (Leaf.move f) := by
  rw [onlyLeaf?_moveAll, Option.filter_map]
  rfl

end Node

end ShellLex
