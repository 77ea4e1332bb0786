import ShellLex.Node
/-!
Nodes as stretches of a source. A node spans the source from one offset to another if its leaves
are adjacent, begin at the first offset, end at the second and hold the bytes between them.
-/
namespace ShellLex

variable {source : List UInt8} {start middle stop : Nat}

theorem extract_append (h : start ≤ middle) (k : middle ≤ stop) :
    source.extract start middle ++ source.extract middle stop = source.extract start stop := by
  simp only [List.extract_eq_take_drop]
  have hd : source.drop middle = (source.drop start).drop (middle - start) := by
    rw [List.drop_drop, Nat.add_sub_cancel' h]
  rw [hd, ← List.take_add, show middle - start + (stop - middle) = stop - start by omega]

/-- A leaf holds the bytes of the source at its offset, and at least one of them. -/
structure Leaf.Exact (source : List UInt8) (leaf : Leaf) : Prop where
  nonempty : leaf.data ≠ []
  data : leaf.data = source.extract leaf.pos leaf.stop

theorem Leaf.Exact.pos_lt_stop {leaf : Leaf} (h : leaf.Exact source) : leaf.pos < leaf.stop := by
  have := List.length_pos_iff.mpr h.nonempty
  unfold Leaf.stop
  omega

theorem Leaf.Exact.stop_le {leaf : Leaf} (h : leaf.Exact source) : leaf.stop ≤ source.length := by
  have hsize := List.length_pos_iff.mpr h.nonempty
  have hdata := congrArg List.length h.data
  rw [List.extract_eq_take_drop, List.length_take, List.length_drop] at hdata
  unfold Leaf.stop at hdata ⊢
  omega

theorem Leaf.exact_take {kind : Kind} {pos size : Nat} (h : 0 < size)
    (hs : size ≤ (source.drop pos).length) :
    Leaf.Exact source ⟨kind, (source.drop pos).take size, pos⟩ := by
  have hl : ((source.drop pos).take size).length = size := by
    rw [List.length_take, Nat.min_eq_left hs]
  constructor
  · intro he
    rw [show (source.drop pos).take size = [] from he, List.length_nil] at hl
    omega
  · simp only [Leaf.stop, List.extract_eq_take_drop, Nat.add_sub_cancel_left, hl]

namespace Node

mutual

/-- `node` is the source from `start` to `stop`, and so is every part of it from where the part
before it ends. -/
def Spans (source : List UInt8) : Node → (start stop : Nat) → Prop
  | .leaf l, start, stop => l.Exact source ∧ l.pos = start ∧ l.stop = stop
  | .word nodes, start, stop => nodes ≠ [] ∧ SpansAll source nodes start stop
  | .enclosed _ opening nodes closing, start, stop =>
    opening.Exact source ∧ opening.pos = start ∧
      SpansAll source nodes opening.stop closing.pos ∧
      closing.Exact source ∧ closing.stop = stop

def SpansAll (source : List UInt8) : List Node → (start stop : Nat) → Prop
  | [], start, stop => start = stop
  | node :: nodes, start, stop => ∃ middle, Spans source node start middle ∧
      SpansAll source nodes middle stop

end

theorem spansAll_snoc {nodes : List Node} {node : Node} (h : SpansAll source nodes start middle)
    (k : node.Spans source middle stop) : SpansAll source (nodes ++ [node]) start stop := by
  induction nodes generalizing start with
  | nil =>
    obtain rfl : start = middle := by simpa [SpansAll] using h
    exact ⟨stop, k, rfl⟩
  | cons first nodes ih =>
    obtain ⟨m, hf, hn⟩ := h
    exact ⟨m, hf, ih hn⟩

theorem spansAll_singleton {node : Node} :
    SpansAll source [node] start stop ↔ node.Spans source start stop := by
  simp [SpansAll]

theorem Spans.with_kind {l : Leaf} (kind : Kind) (h : (Node.leaf l).Spans source start stop) :
    (Node.leaf { l with kind := kind }).Spans source start stop :=
  ⟨⟨h.1.nonempty, h.1.data⟩, h.2⟩

mutual

theorem Spans.lt {node : Node} {start stop : Nat} (h : node.Spans source start stop) :
    start < stop := by
  match node, h with
  | .leaf l, ⟨he, hp, hs⟩ =>
    have := he.pos_lt_stop
    omega
  | .word (node :: nodes), ⟨_, m, hf, hn⟩ =>
    have := hf.lt
    have := SpansAll.le hn
    omega
  | .enclosed _ opening nodes closing, ⟨ho, hp, hn, hc, hs⟩ =>
    have := ho.pos_lt_stop
    have := SpansAll.le hn
    have := hc.pos_lt_stop
    omega

theorem SpansAll.le {nodes : List Node} {start stop : Nat} (h : SpansAll source nodes start stop) :
    start ≤ stop := by
  match nodes, h with
  | [], h =>
    have : start = stop := h
    omega
  | node :: nodes, ⟨m, hf, hn⟩ =>
    have := hf.lt
    have := SpansAll.le hn
    omega

end

theorem Spans.pos_eq {node : Node} {start stop : Nat} (h : node.Spans source start stop) :
    node.pos = start := by
  match node, h with
  | .leaf l, ⟨_, hp, _⟩ => exact hp
  | .word (node :: nodes), ⟨_, m, hf, _⟩ =>
    rw [pos]
    exact hf.pos_eq
  | .enclosed _ opening nodes closing, ⟨_, hp, _⟩ => exact hp

mutual

theorem Spans.stop_eq {node : Node} {start stop : Nat} (h : node.Spans source start stop) :
    node.stop = stop := by
  match node, h with
  | .leaf l, ⟨_, _, hs⟩ =>
    rw [Node.stop]
    exact hs
  | .word nodes, ⟨hne, hn⟩ =>
    rw [Node.stop]
    exact SpansAll.stop_eq hne hn
  | .enclosed _ opening nodes closing, ⟨_, _, _, _, hs⟩ =>
    rw [Node.stop]
    exact hs

theorem SpansAll.stop_eq {nodes : List Node} {start stop : Nat} (hne : nodes ≠ [])
    (h : SpansAll source nodes start stop) : stopAll nodes = stop := by
  match nodes, h with
  | [node], ⟨m, hf, hn⟩ =>
    obtain rfl : m = stop := hn
    rw [stopAll]
    exact hf.stop_eq
  | node :: next :: nodes, ⟨m, _, hn⟩ =>
    rw [stopAll]
    · exact SpansAll.stop_eq (List.cons_ne_nil _ _) hn
    · exact List.cons_ne_nil _ _

end

mutual

theorem Spans.stop_le {node : Node} {start stop : Nat} (h : node.Spans source start stop) :
    stop ≤ source.length := by
  match node, h with
  | .leaf l, ⟨he, _, hs⟩ =>
    rw [← hs]
    exact he.stop_le
  | .word nodes, ⟨hne, hn⟩ => exact SpansAll.stop_le hne hn
  | .enclosed _ opening nodes closing, ⟨_, _, _, hc, hs⟩ =>
    rw [← hs]
    exact hc.stop_le

theorem SpansAll.stop_le {nodes : List Node} {start stop : Nat} (hne : nodes ≠ [])
    (h : SpansAll source nodes start stop) : stop ≤ source.length := by
  match nodes, h with
  | [node], ⟨m, hf, hn⟩ =>
    obtain rfl : m = stop := hn
    exact hf.stop_le
  | node :: next :: nodes, ⟨m, _, hn⟩ => exact SpansAll.stop_le (List.cons_ne_nil _ _) hn

end

mutual

/-- A node was made of the bytes that it spans. -/
theorem Spans.text_eq {node : Node} {start stop : Nat} (h : node.Spans source start stop) :
    node.text = source.extract start stop := by
  match node, h with
  | .leaf l, ⟨he, hp, hs⟩ =>
    rw [text, ← hp, ← hs]
    exact he.data
  | .word nodes, ⟨_, hn⟩ =>
    rw [text]
    exact SpansAll.text_eq hn
  | .enclosed _ opening nodes closing, ⟨ho, hp, hn, hc, hs⟩ =>
    have h₁ := Nat.le_of_lt ho.pos_lt_stop
    have h₂ := SpansAll.le hn
    have h₃ := Nat.le_of_lt hc.pos_lt_stop
    rw [text, ho.data, hc.data, SpansAll.text_eq hn, extract_append h₁ h₂,
      extract_append (Nat.le_trans h₁ h₂) h₃, hp, hs]

theorem SpansAll.text_eq {nodes : List Node} {start stop : Nat}
    (h : SpansAll source nodes start stop) : textAll nodes = source.extract start stop := by
  match nodes, h with
  | [], h =>
    obtain rfl : start = stop := h
    simp [textAll]
  | node :: nodes, ⟨m, hf, hn⟩ =>
    have h₁ := Nat.le_of_lt hf.lt
    have h₂ := SpansAll.le hn
    rw [textAll, hf.text_eq, SpansAll.text_eq hn, extract_append h₁ h₂]

end

end Node

end ShellLex
