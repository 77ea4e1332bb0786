import ShellLex.Proofs.Unlimited
/-!
How deep constructs lie one in another. Reading keeps to the levels that it is given, but an
outcome that is recalled was read where more of them may have been left, so the limit bounds the
nodes of a source only as far as it bounds the expansions among them.
-/
namespace ShellLex

namespace Node

mutual

/-- How many constructs lie one in another on any path to a leaf. -/
def nesting : Node → Nat
  | .leaf _ => 0
  | .word nodes => nestingAll nodes
  | .enclosed _ _ nodes _ => nestingAll nodes + 1

def nestingAll : List Node → Nat
  | [] => 0
  | node :: nodes => max node.nesting (nestingAll nodes)

end

/-- `node` stands among `nodes` or inside of them, with `depth` constructs around it. -/
inductive Under : (depth : Nat) → (node : Node) → (nodes : List Node) → Prop where
  | here {node nodes} (h : node ∈ nodes) : Under 0 node nodes
  | word {depth node parts nodes} (h : .word parts ∈ nodes) (hu : Under depth node parts) :
      Under depth node nodes
  | enclosed {depth node form opening body closing nodes}
      (h : .enclosed form opening body closing ∈ nodes) (hu : Under depth node body) :
      Under (depth + 1) node nodes

/-- A construct that was read from `$((`, as arithmetic or not. -/
def IsExpansion (source : List UInt8) : Node → Prop
  | .enclosed _ opening _ _ => ascii "$((" <+: source.drop opening.pos
  | _ => False

variable {node : Node} {nodes nodes' : List Node} {depth : Nat}

theorem nesting_le_nestingAll (h : node ∈ nodes) : node.nesting ≤ nestingAll nodes := by
  induction nodes with
  | nil => nomatch h
  | cons first nodes ih =>
    rw [nestingAll]
    rcases List.mem_cons.mp h with rfl | h
    · exact Nat.le_max_left _ _
    · exact Nat.le_trans (ih h) (Nat.le_max_right _ _)

@[simp] theorem nestingAll_append :
    nestingAll (nodes ++ nodes') = max (nestingAll nodes) (nestingAll nodes') := by
  induction nodes with
  | nil => simp [nestingAll]
  | cons node nodes ih =>
    rw [List.cons_append, nestingAll, nestingAll, ih, Nat.max_assoc]

@[simp] theorem nestingAll_singleton : nestingAll [node] = node.nesting := by
  simp [nestingAll]

theorem Under.mono (h : Under depth node nodes) (hs : ∀ n ∈ nodes, n ∈ nodes') :
    Under depth node nodes' := by
  cases h with
  | here h => exact .here (hs _ h)
  | word h hu => exact .word (hs _ h) hu
  | enclosed h hu => exact .enclosed (hs _ h) hu

theorem Under.nesting_le (h : Under depth node nodes) :
    depth + node.nesting ≤ nestingAll nodes := by
  induction h with
  | here h =>
    rw [Nat.zero_add]
    exact nesting_le_nestingAll h
  | word h _ ih =>
    have := nesting_le_nestingAll h
    rw [nesting] at this
    exact Nat.le_trans ih this
  | enclosed h _ ih =>
    have := nesting_le_nestingAll h
    rw [nesting] at this
    omega

end Node

variable {source : List UInt8} {recalls : Prop} {levels pos stop : Nat} {nodes : List Node}

theorem Reads.expansion_shape {goal : Goal} (h : Reads source recalls levels goal pos nodes stop)
    (hg : goal = .expansion) : ∃ node, nodes = [node] ∧ node.IsExpansion source := by
  induction h with
  | arithmetic h =>
    obtain ⟨hp, opening, body, closing, rfl, rfl⟩ := h.construct_cases
    exact ⟨_, rfl, hp⟩
  | retry hp h =>
    obtain ⟨_, opening, body, closing, rfl, rfl⟩ := h.construct_cases
    exact ⟨_, rfl, hp⟩
  | recalled _ _ ih => exact ih rfl
  | lexeme h =>
    subst hg
    exact h.lexical.elim
  | refer hg' =>
    subst hg
    exact hg'.elim
  | _ => nomatch hg

/-- What is read keeps to the levels, and to a limit above them if its expansions do. -/
theorem Reads.nesting_le {goal : Goal} {limit depth : Nat}
    (h : Reads source recalls levels goal pos nodes stop) (hd : depth + levels ≤ limit)
    (hk : recalls → ∀ d node, Node.Under d node nodes → node.IsExpansion source →
      depth + d + node.nesting ≤ limit) : depth + Node.nestingAll nodes ≤ limit := by
  induction h generalizing depth with
  | refer _ _ ih | quotes _ ih | group _ ih | substitution _ _ ih | expand _ ih
  | arithmetic _ ih | retry _ _ ih | word _ _ _ ih => exact ih hd hk
  | recalled hr h =>
    -- the levels were those of another place, and only the hypothesis is left
    obtain ⟨node, rfl, hnode⟩ := h.expansion_shape rfl
    have := hk hr 0 node (.here (by simp)) hnode
    simpa using this
  | construct _ _ _ _ _ ih =>
    rw [Node.nestingAll_singleton, Node.nesting]
    have inner := ih (show depth + 1 + _ ≤ limit by omega) fun hr d node hu hnode => by
      have := hk hr (d + 1) node (.enclosed (List.mem_singleton.mpr rfl) hu) hnode
      omega
    omega
  | bodySnoc _ _ _ ih ihn | scriptSnoc _ _ ih ihn | partsSnoc _ _ ih ihn =>
    have h₁ := ih hd fun hr d node hu =>
      hk hr d node (hu.mono fun n hn => List.mem_append_left _ hn)
    have h₂ := ihn hd fun hr d node hu =>
      hk hr d node (hu.mono fun n hn => List.mem_append_right _ hn)
    rw [Node.nestingAll_append]
    omega
  | command _ _ _ ih | subject _ ih | pattern _ _ ih =>
    rw [Node.nestingAll_singleton, Node.nesting]
    exact ih hd fun hr d node hu => hk hr d node (.word (by simp) hu)
  | lexeme | reserved | esac =>
    rw [Node.nestingAll_singleton, Node.nesting]
    omega
  | emptyBody | emptyScript | noParts =>
    rw [Node.nestingAll]
    omega

/-- The nodes of a source if every `$((` is read afresh, at the same limit. -/
def tokenizeAfresh (source : List UInt8) : Except LexError (List Node) :=
  match Scan.script { Scanner.start source with outcomes := none } with
  | .ok nodes _ => .ok nodes
  | .error e _ => .error e

theorem Scan.script_alike (source : List UInt8) (recalls : Prop) :
    Alike source recalls Eq script
      (many (!·.rest.isEmpty) (scriptPart (some unlimited))) := by
  refine alike_many ?_ ?_
  · intro s t h
    rw [h.rest]
  · intro s t h _
    exact scriptPart_alike (deeper_follows source recalls nestingLimit) s t h

/-- A source that is read is read alike without a table, or not at all for want of levels. -/
theorem tokenizeAfresh_cases (h : tokenize source = .ok nodes) :
    tokenizeAfresh source = .ok nodes ∨
      ∃ e, tokenizeAfresh source = .error e ∧ e.isTooDeep := by
  have hs : (Scanner.start source).Sound source True := Lexer.Reachable.start.sound
  have ht := (Scanner.start_fits source).forget
  have recalled := Scan.script_alike source True _ _ ⟨hs, ht, rfl, rfl⟩
  have afresh := Scan.script_alike source False _ _ ⟨ht.sound, ht, rfl, rfl⟩
  unfold tokenize at h
  unfold tokenizeAfresh
  generalize Scan.script (Scanner.start source) = l at h recalled
  generalize Scan.script { Scanner.start source with outcomes := none } = l' at afresh ⊢
  generalize Scan.many _ _ { Scanner.start source with outcomes := none } = r at recalled afresh
  -- both follow the lexer without limit, whose nodes are those of the first
  cases recalled with
  | ok =>
    obtain rfl := Except.ok.inj h
    cases afresh with
    | ok => exact Or.inl rfl
    | tooDeep hd _ => exact Or.inr ⟨_, rfl, hd⟩
  | error => nomatch h
  | tooDeep => nomatch h

theorem tokenizeAfresh_nesting (h : tokenizeAfresh source = .ok nodes) :
    Node.nestingAll nodes ≤ nestingLimit := by
  have run := Scan.script_ends (Scanner.start_fits source).forget
  unfold tokenizeAfresh at h
  cases hrun : Scan.script { Scanner.start source with outcomes := none } with
  | ok result t =>
    rw [hrun] at h
    obtain rfl := Except.ok.inj h
    have hn := (run.of_ok hrun).2.nesting_le (show 0 + nestingLimit ≤ nestingLimit by decide)
      False.elim
    simpa using hn
  | error e t =>
    rw [hrun] at h
    nomatch h

/-- The nodes of a source keep to the limit if and only if those read from `$((` do, with the
constructs around them. They exceed it only where reading afresh runs out of levels. -/
theorem tokenize_nesting (h : tokenize source = .ok nodes) :
    (Node.nestingAll nodes ≤ nestingLimit ↔
      ∀ depth node, Node.Under depth node nodes → node.IsExpansion source →
        depth + node.nesting ≤ nestingLimit) ∧
    (nestingLimit < Node.nestingAll nodes →
      ∃ e, tokenizeAfresh source = .error e ∧ e.isTooDeep) := by
  refine ⟨⟨?_, ?_⟩, ?_⟩
  · intro hle depth node hu _
    exact Nat.le_trans hu.nesting_le hle
  · intro hk
    obtain ⟨after, hreads⟩ := tokenize_reads h
    have hn := hreads.nesting_le (show 0 + nestingLimit ≤ nestingLimit by decide)
      fun _ depth node hu hnode => by simpa using hk depth node hu hnode
    simpa using hn
  · intro hlt
    rcases tokenizeAfresh_cases h with hok | hdeep
    · have := tokenizeAfresh_nesting hok
      omega
    · exact hdeep

/-- The outer `$((` is no arithmetic, so that the inner one lies in a substitution and in quotes. -/
theorem tokenize_nesting_recalled :
    let inner := Node.enclosed .arithmetic ⟨.quote, ascii "$((", 4⟩
      [.leaf ⟨.variable, ascii "1", 7⟩] ⟨.quote, ascii "))", 8⟩
    let quotes := Node.enclosed .quotes ⟨.quote, ascii "\"", 3⟩ [inner] ⟨.quote, ascii "\"", 10⟩
    let outer := Node.enclosed .substitution ⟨.quote, ascii "$(", 0⟩
      [.leaf ⟨.operator, ascii "(", 2⟩, .word [quotes]] ⟨.quote, ascii ")", 11⟩
    tokenize (ascii "$((\"$((1))\")") = .ok [.word [outer]] ∧
      0 + outer.nesting ≤ nestingLimit ∧ 2 + inner.nesting ≤ nestingLimit := by
  intro inner quotes outer
  have h : tokenize (ascii "$((\"$((1))\")") = .ok [.word [outer]] := by rfl
  have within := (tokenize_nesting h).1.mp (by decide)
  have houter : Node.Under 0 outer [.word [outer]] := .word (.head _) (.here (.head _))
  have hinner : Node.Under 2 inner [.word [outer]] :=
    .word (.head _) (.enclosed (.head _) (.word (.tail _ (.head _))
      (.enclosed (.head _) (.here (.head _)))))
  exact ⟨h, within 0 outer houter ⟨ascii "\"$((1))\")", rfl⟩,
    within 2 inner hinner ⟨ascii "1))\")", rfl⟩⟩

/-- The inner expansion needs no quotes as arithmetic, but has them around it when the outer one is
read again: it is read with 63 levels left and recalled with 62. -/
def overnested : List UInt8 :=
  ascii "$((\"$((" ++ List.replicate 62 0x28 ++ ascii "1" ++ List.replicate 62 0x29 ++
    ascii "))\") )"

theorem overnested_nesting :
    (tokenize overnested).toOption.map Node.nestingAll = some 65 := by
  decide +kernel

theorem not_tokenize_nesting_le :
    ¬ ∀ source nodes, tokenize source = .ok nodes → Node.nestingAll nodes ≤ nestingLimit := by
  intro h
  have hn := overnested_nesting
  cases ht : tokenize overnested with
  | ok nodes =>
    have hle := h overnested nodes ht
    rw [ht] at hn
    have heq : Node.nestingAll nodes = 65 := by simpa [Except.toOption] using hn
    rw [heq] at hle
    exact absurd hle (by decide)
  | error e =>
    rw [ht] at hn
    nomatch hn

end ShellLex
