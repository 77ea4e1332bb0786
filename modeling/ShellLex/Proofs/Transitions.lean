import Mathlib.Logic.ExistsUnique
import ShellLex.Proofs.Calls
/-!
The table of the grammar states. A node that is read in a state falls under exactly one rule, the
rule names the state after it, and so the nodes that were returned say what state a lexer is in.
-/
namespace ShellLex

theorem role_operator {b : UInt8}
    (h : role b ∈ [.separator, .openParen, .closeParen, .redirection]) :
    [b] ∈ Lexeme.operators := by
  unfold role at h
  split at h <;> first | decide | simp at h

namespace Lexeme

def marks : List (List UInt8) := ["!", "\x7b", "\x7d"].map ascii

def separators : List (List UInt8) := [";", "&", "&&", "|", "||", "(", ")"].map ascii

theorem first?_operators {b : UInt8} (bytes : List UInt8) (h : [b] ∈ operators) :
    ∃ word ∈ operators, first? operators (b :: bytes) = some word ∧ word <+: b :: bytes := by
  cases hf : first? operators (b :: bytes) with
  | none =>
    have hn := List.find?_eq_none.mp hf [b] h
    simp at hn
  | some word =>
    have hp : word <+: b :: bytes := by simpa [first?] using List.find?_some hf
    exact ⟨word, List.mem_of_find?_eq_some hf, rfl, hp⟩

/-- The operator is one of the table, and begins with the byte that it was found by. -/
theorem take_operator (b : UInt8) (bytes : List UInt8)
    (h : role b ∈ [.separator, .openParen, .closeParen, .redirection]) :
    (b :: bytes).take (operator (b :: bytes)) ∈ operators ∧
      ((b :: bytes).take (operator (b :: bytes))).head? = some b := by
  obtain ⟨word, hm, hf, hp⟩ := first?_operators bytes (role_operator h)
  have hsize : operator (b :: bytes) = word.length := by simp [operator, hf]
  have htake : (b :: bytes).take word.length = word := (List.prefix_iff_eq_take.mp hp).symm
  rw [hsize, htake]
  refine ⟨hm, ?_⟩
  cases word with
  | nil => exact absurd hm (by decide)
  | cons c rest =>
    obtain ⟨tail, ht⟩ := hp
    rw [← (List.cons.inj ht).1]
    rfl

theorem mem_separators {word : List UInt8} (h : word ∈ operators)
    (hr : ∀ r, word.head?.map role = some r → r ≠ .redirection) (hc : word ≠ ascii ";;") :
    word ∈ separators := by
  revert word
  decide

end Lexeme

/-- How a node is told apart from others that may stand in its place. -/
inductive Rule where
  | layout
  | newline
  | subject
  | inKeyword
  | openPattern
  | closePattern
  | esac
  | pattern
  | separator
  | clauseEnd
  | redirection
  | mark
  | caseKeyword
  | keyword
  | command
  deriving DecidableEq, Repr

namespace Rule

def target (before : State) : Rule → State
  | layout | openPattern | pattern => before
  | newline => if before = .command then .normal else before
  | subject => .caseIn
  | inKeyword | clauseEnd => .casePattern
  | closePattern | esac | separator | mark => .normal
  | caseKeyword => .caseSubject
  | redirection | keyword | command => .command

def Covers (before : State) : Node → Rule → Prop
  | .leaf l, layout => l.kind = .space ∨ l.kind = .comment
  | .leaf l, newline => l.kind = .newLine
  | .word _, subject => before = .caseSubject
  | .leaf l, inKeyword => before = .caseIn ∧ l.kind = .keyword ∧ l.data = ascii "in"
  | .leaf l, openPattern => before = .casePattern ∧ l.kind = .operator ∧ l.data = ascii "("
  | .leaf l, closePattern => before = .casePattern ∧ l.kind = .operator ∧ l.data = ascii ")"
  | .leaf l, esac => before = .casePattern ∧ l.kind = .keyword ∧ l.data = ascii "esac"
  | .word parts, pattern => before = .casePattern ∧
      ∀ l, Node.onlyLeaf? .term parts = some l → l.data ≠ ascii "esac"
  | .leaf l, separator => before.isCommand ∧ l.kind = .operator ∧ l.data ∈ Lexeme.separators
  | .leaf l, clauseEnd => before.isCommand ∧ l.kind = .operator ∧ l.data = ascii ";;"
  | .leaf l, redirection => before.isCommand ∧ l.kind = .operator ∧
      l.data.head?.map role = some .redirection
  | .leaf l, mark => before = .normal ∧ l.kind = .operator ∧ l.data ∈ Lexeme.marks
  | .leaf l, caseKeyword => before = .normal ∧ l.kind = .keyword ∧ l.data = ascii "case"
  | .leaf l, keyword => before = .normal ∧ l.kind = .keyword ∧ l.data ∈ Lexeme.keywords ∧
      l.data ≠ ascii "case"
  | .word parts, command => before.isCommand ∧ (before = .normal →
      ∀ l, Node.onlyLeaf? .term parts = some l → l.data ∉ Lexeme.marks ++ Lexeme.keywords)
  | _, _ => False

def Allows (before : State) (node : Node) (after : State) (rule : Rule) : Prop :=
  rule.Covers before node ∧ after = rule.target before

def of (before : State) : Node → Rule
  | .leaf l =>
    match l.kind with
    | .newLine => newline
    | .operator =>
      if before = .casePattern then if l.data = ascii "(" then openPattern else closePattern
      else if l.data = ascii ";;" then clauseEnd
      else if l.data.head?.map role = some .redirection then redirection
      else if Lexeme.marks.contains l.data then mark
      else separator
    | .keyword =>
      match before with
      | .caseIn => inKeyword
      | .casePattern => esac
      | _ => if l.data = ascii "case" then caseKeyword else keyword
    | _ => layout
  | _ =>
    match before with
    | .caseSubject => subject
    | .casePattern => pattern
    | _ => command

theorem eq_of_covers {before : State} {node : Node} {rule : Rule} (h : rule.Covers before node) :
    rule = of before node := by
  cases node with
  | leaf l =>
    cases rule with
    | layout => rcases h with h | h <;> simp [of, h]
    | newline => simp [of, show l.kind = .newLine from h]
    | inKeyword | openPattern | esac | caseKeyword | clauseEnd =>
      obtain ⟨hb, hk, hd⟩ := h
      cases before <;> simp_all [of, State.isCommand]
    | closePattern =>
      obtain ⟨rfl, hk, hd⟩ := h
      have hp : ascii ")" ≠ ascii "(" := by decide
      simp [of, hk, hd, hp]
    | keyword =>
      obtain ⟨rfl, hk, _, hd⟩ := h
      simp [of, hk, hd]
    | redirection =>
      obtain ⟨hb, hk, hd⟩ := h
      have hp : l.data ≠ ascii ";;" := by
        intro he
        rw [he] at hd
        exact absurd hd (by decide)
      cases before <;> simp_all [of, State.isCommand]
    | mark =>
      obtain ⟨rfl, hk, hd⟩ := h
      have hp : l.data ≠ ascii ";;" ∧ l.data.head?.map role ≠ some .redirection := by
        revert hd
        generalize l.data = data
        revert data
        decide
      simp [of, hk, hd, hp.1, hp.2]
    | separator =>
      obtain ⟨hb, hk, hd⟩ := h
      have hp : l.data ≠ ascii ";;" ∧ l.data.head?.map role ≠ some .redirection ∧
          l.data ∉ Lexeme.marks := by
        revert hd
        generalize l.data = data
        revert data
        decide
      cases before <;> simp_all [of, State.isCommand]
    | subject | pattern | command => exact h.elim
  | word parts =>
    cases rule with
    | subject | pattern | command => cases before <;> simp_all [Covers, of, State.isCommand]
    | _ => exact h.elim
  | enclosed form opening nodes closing => cases rule <;> exact h.elim

end Rule

def State.after (before : State) (node : Node) : State := (Rule.of before node).target before

theorem Rule.Allows.existsUnique {before after : State} {node : Node} {rule : Rule}
    (h : rule.Allows before node after) :
    (∃! rule, Rule.Allows before node after rule) ∧ after = before.after node := by
  constructor
  · refine ⟨rule, h, ?_⟩
    intro other ho
    rw [eq_of_covers ho.1, eq_of_covers h.1]
  · rw [State.after, ← eq_of_covers h.1]
    exact h.2

namespace Scan

theorem reservation?_eq_some {data : List UInt8} {kind : Kind} {next : State}
    (h : reservation? data = some (kind, next)) :
    kind = .operator ∧ next = .normal ∧ data ∈ Lexeme.marks ∨
      kind = .keyword ∧ next = .caseSubject ∧ data = ascii "case" ∨
      kind = .keyword ∧ next = .command ∧ data ∈ Lexeme.keywords ∧ data ≠ ascii "case" := by
  unfold reservation? at h
  split at h
  · rename_i b
    split at h
    · rename_i hb
      obtain ⟨rfl, rfl⟩ := Prod.mk.inj (Option.some.inj h)
      refine Or.inl ⟨rfl, rfl, ?_⟩
      unfold role at hb
      split at hb <;> first | decide | simp at hb
    · nomatch h
  · split at h
    · rename_i hd
      obtain ⟨rfl, rfl⟩ := Prod.mk.inj (Option.some.inj h)
      exact Or.inr (Or.inl ⟨rfl, rfl, hd⟩)
    · rename_i hd
      split at h
      · rename_i hm
        obtain ⟨rfl, rfl⟩ := Prod.mk.inj (Option.some.inj h)
        exact Or.inr (Or.inr ⟨rfl, rfl, hm, hd⟩)
      · nomatch h

/-- What is not reserved is neither a mark nor a reserved word. -/
theorem reservation?_eq_none {data : List UInt8} (h : reservation? data = none) :
    data ∉ Lexeme.marks ++ Lexeme.keywords := by
  intro hm
  have hsome : ∀ data ∈ Lexeme.marks ++ Lexeme.keywords, (reservation? data).isSome := by decide
  have := hsome data hm
  rw [h] at this
  nomatch this

theorem reserved?_eq_none {nodes : List Node} (h : reserved? nodes = none) (l : Leaf)
    (hl : Node.onlyLeaf? .term nodes = some l) : l.data ∉ Lexeme.marks ++ Lexeme.keywords := by
  apply reservation?_eq_none
  cases hr : reservation? l.data with
  | none => rfl
  | some found => simp [reserved?, hl, hr] at h

end Scan

variable {source : List UInt8} {recalls : Prop} {levels pos stop : Nat}

theorem Lexes.allows {before after : State} {bytes : List UInt8} {kind : Kind} {size : Nat}
    (h : Lexes (.element .substitution before after) bytes kind size) (pos : Nat) :
    ∃ rule, Rule.Allows before (.leaf ⟨kind, bytes.take size, pos⟩) after rule := by
  cases h with
  | blanks => exact ⟨.layout, Or.inl rfl, rfl⟩
  | comment => exact ⟨.layout, Or.inr rfl, rfl⟩
  | newline => exact ⟨.newline, rfl, rfl⟩
  | @separator _ b bytes hs hb =>
    have hop : role b ∈ [.separator, .openParen, .closeParen, .redirection] := by
      rcases hb with h | h | h <;> simp [h]
    obtain ⟨hm, hh⟩ := Lexeme.take_operator b bytes hop
    split
    · rename_i hd
      exact ⟨.clauseEnd, ⟨hs, rfl, hd⟩, rfl⟩
    · rename_i hd
      refine ⟨.separator, ⟨hs, rfl, Lexeme.mem_separators hm ?_ hd⟩, rfl⟩
      intro r hr hc
      rw [hh, hc] at hr
      have hr' : role b = .redirection := by simpa using hr
      simp [hr'] at hb
  | @redirection _ b bytes hs hb =>
    obtain ⟨hm, hh⟩ := Lexeme.take_operator b bytes (by simp [hb])
    exact ⟨.redirection, ⟨hs, rfl, by rw [hh, Option.map_some, hb]⟩, rfl⟩
  | @caseIn b bytes hb hw =>
    refine ⟨.inKeyword, ⟨rfl, rfl, ?_⟩, rfl⟩
    exact (Lexeme.take_run isPlain (b :: bytes)).trans hw
  | openPattern hb =>
    obtain rfl := Scan.eq_of_role.2.1 hb
    exact ⟨.openPattern, ⟨rfl, rfl, rfl⟩, rfl⟩
  | closePattern hb =>
    obtain rfl := Scan.eq_of_role.2.2.1 hb
    exact ⟨.closePattern, ⟨rfl, rfl, rfl⟩, rfl⟩
  | escape hg => exact hg.elim

/-- An element of a script takes the state on by one of the rules. -/
theorem Reads.allows {before after : State} {node : Node}
    (h : Reads source recalls levels (.element .substitution before after) pos [node] stop) :
    ∃ rule, Rule.Allows before node after rule := by
  cases h with
  | lexeme h => exact h.allows pos
  | refer hg => exact hg.elim
  | command hs hr =>
    refine ⟨.command, ⟨hs, ?_⟩, rfl⟩
    intro hb l hl
    exact Scan.reserved?_eq_none (hr hb) l hl
  | reserved hr =>
    obtain ⟨l, kind, rfl, hk, hres, rfl⟩ := Scan.reserved?_eq_some hr
    rcases Scan.reservation?_eq_some hres with ⟨rfl, rfl, hd⟩ | ⟨rfl, rfl, hd⟩ | ⟨rfl, rfl, hd⟩
    · exact ⟨.mark, ⟨rfl, rfl, hd⟩, rfl⟩
    · exact ⟨.caseKeyword, ⟨rfl, rfl, hd⟩, rfl⟩
    · exact ⟨.keyword, ⟨rfl, rfl, hd⟩, rfl⟩
  | subject => exact ⟨.subject, rfl, rfl⟩
  | esac he =>
    obtain ⟨hl, hd⟩ := Option.filter_eq_some_iff.mp he
    exact ⟨.esac, ⟨rfl, rfl, by simpa using hd⟩, rfl⟩
  | pattern he =>
    refine ⟨.pattern, ⟨rfl, ?_⟩, rfl⟩
    intro l hl hd
    simp [hl, hd] at he

def Answer.nodes : Answer → List Node
  | .ok (some node) => [node]
  | _ => []

namespace Lexer

inductive Yields (source : List UInt8) : List Node → Lexer → Prop where
  | start : Yields source [] (.start source)
  | get {nodes lexer} (h : Yields source nodes lexer) :
      Yields source (nodes ++ lexer.get.1.nodes) lexer.get.2
  | next {nodes lexer} (h : Yields source nodes lexer) :
      Yields source (nodes ++ lexer.next.1.nodes) lexer.next.2

variable {lexer : Lexer} {nodes : List Node}

theorem Yields.reachable (h : Yields source nodes lexer) : Reachable source lexer := by
  induction h with
  | start => exact .start
  | get _ ih => exact ih.get
  | next _ ih => exact ih.next

/-- A call that returns no node leaves the state alone, at the end of the source or after an
error. -/
theorem state_get (hs : lexer.scanner.Fits source recalls) :
    lexer.get.2.state = lexer.get.1.nodes.foldl State.after lexer.state := by
  rcases get_cases hs with h | ⟨node, s, h, hr⟩ | ⟨e, s, h, hf⟩
  · rw [h]
    rfl
  · obtain ⟨rule, hrule⟩ := hr.reads.allows
    rw [h]
    exact hrule.existsUnique.2
  · rw [h]
    exact hf.state

theorem Yields.state_eq (h : Yields source nodes lexer) :
    lexer.state = nodes.foldl State.after .normal := by
  induction h with
  | start => rfl
  | get h ih =>
    rw [state_get h.reachable.fits, ih, List.foldl_append]
  | @next nodes lexer h ih =>
    rcases next_cases lexer with hn | ⟨failed, hn⟩
    · rw [hn]
      simpa [Answer.nodes] using ih
    · have hg := state_get h.reachable.fits
      rw [hn, List.foldl_append, ← ih]
      exact hg

/-- Whatever was called before, a node that is returned falls under exactly one rule, which leads
to the state after it; hence the nodes returned so far say what the state is. -/
theorem get_transition (source : List UInt8) :
    (∀ lexer after node, Reachable source lexer → lexer.get = (.ok (some node), after) →
      ∃! rule, Rule.Allows lexer.state node after.state rule) ∧
    ∀ nodes lexer, Yields source nodes lexer → lexer.state = nodes.foldl State.after .normal := by
  constructor
  · intro lexer after node h hget
    rcases get_cases h.fits with hc | ⟨node', s, hc, hr⟩ | ⟨e, s, hc, _⟩
    · simp [hc] at hget
    · rw [hc] at hget
      obtain ⟨hn, rfl⟩ := Prod.mk.inj hget
      obtain rfl : node' = node := by simpa using hn
      obtain ⟨rule, hrule⟩ := hr.reads.allows
      exact hrule.existsUnique.1
    · simp [hc] at hget
  · intro nodes lexer h
    exact h.state_eq

/-- The subject of a `case` is a word, although `case` is reserved at the start of a command. -/
theorem get_transition_subject :
    let lexer := (start (ascii "case case")).get.2.get.2
    let node := Node.word [.leaf ⟨.term, ascii "case", 5⟩]
    lexer.get.1 = .ok (some node) ∧ lexer.state = .caseSubject ∧
      (∃! rule, Rule.Allows .caseSubject node .caseIn rule) ∧
      lexer.state = [Node.leaf ⟨.keyword, ascii "case", 0⟩, .leaf ⟨.space, ascii " ", 4⟩].foldl
        State.after .normal := by
  intro lexer node
  have h := get_transition (ascii "case case")
  have hy : Yields (ascii "case case") [.leaf ⟨.keyword, ascii "case", 0⟩,
      .leaf ⟨.space, ascii " ", 4⟩] lexer := Yields.start.get.get
  exact ⟨rfl, rfl, h.1 lexer lexer.get.2 node hy.reachable rfl, h.2 _ lexer hy⟩

end Lexer

end ShellLex
