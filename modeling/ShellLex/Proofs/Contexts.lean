import ShellLex.Proofs.Transitions
import ShellLex.Proofs.Tree
/-!
Command substitutions as scripts of their own. Their nodes are a run of the table from the start of
a command, whatever state surrounds them, and they go on to the first closing parenthesis that the
run does not meet among the patterns of a `case`.
-/
namespace ShellLex

inductive State.Run : (before : State) → List Node → (after : State) → Prop where
  | nil (state) : Run state [] state
  | snoc {before middle after nodes node} (h : Run before nodes middle)
      (hn : ∃ rule, Rule.Allows middle node after rule) : Run before (nodes ++ [node]) after

theorem State.Run.after_eq {before after : State} {nodes : List Node}
    (h : State.Run before nodes after) : after = nodes.foldl State.after before := by
  induction h with
  | nil => rfl
  | snoc _ hn ih =>
    obtain ⟨rule, hrule⟩ := hn
    rw [List.foldl_append, ← ih]
    exact hrule.existsUnique.2

/-- The body of a command substitution: a parenthesis that one of its nodes begins with is the end
of a pattern, and no pattern is due at its end. -/
structure ScriptBody (nodes : List Node) : Prop where
  run : State.Run .normal nodes (nodes.foldl State.after .normal)
  parenthesis : ∀ before node rest, nodes = before ++ node :: rest → ascii ")" <+: node.text →
    before.foldl State.after .normal = .casePattern
  ending : nodes.foldl State.after .normal ≠ .casePattern

/-- A command substitution ends at the first parenthesis that ends no pattern in it. -/
def Node.Matched : Node → Prop
  | .enclosed .substitution _ nodes closing => ScriptBody nodes ∧ closing.data = ascii ")"
  | _ => True

variable {source : List UInt8} {recalls : Prop} {levels pos stop : Nat} {goal : Goal}
  {before after : State} {nodes : List Node}

theorem Node.Spans.prefix_drop {node : Node} {start : Nat} {word : List UInt8}
    (h : node.Spans source start stop) (hw : word <+: node.text) : word <+: source.drop start := by
  rw [h.text_eq, List.extract_eq_take_drop] at hw
  exact hw.trans (List.take_prefix _ _)

theorem Scan.casePattern_of_goesOn {s : Scanner}
    (h : Delimiter.goesOn .commandSubstitution s = true) (hp : ascii ")" <+: s.rest) :
    s.state = .casePattern := by
  obtain ⟨bytes, hb⟩ := hp
  have hrole : s.role? = some .closeParen := Scanner.role?_cons hb.symm
  simpa [Delimiter.goesOn, hrole] using h

/-- The induction on a body: each node follows a rule, and none but a pattern stands before a
parenthesis. -/
theorem Reads.body_run
    (h : Reads source recalls levels (.body .commandSubstitution before after) pos nodes stop) :
    State.Run before nodes after ∧ ∀ first node rest, nodes = first ++ node :: rest →
      ascii ")" <+: node.text → first.foldl State.after before = .casePattern := by
  generalize hg : Goal.body .commandSubstitution before after = goal at h
  induction h generalizing after with
  | emptyBody =>
    obtain ⟨_, rfl, rfl⟩ := Goal.body.inj hg
    exact ⟨.nil _, by simp⟩
  | @bodySnoc _ _ _ state _ _ nodes middle node _ _ hm hn ih =>
    obtain ⟨rfl, rfl, rfl⟩ := Goal.body.inj hg
    obtain ⟨hrun, hpattern⟩ := ih rfl
    refine ⟨.snoc hrun hn.allows, ?_⟩
    intro first other rest heq hp
    rcases List.eq_nil_or_concat rest with rfl | ⟨rest, last, rfl⟩
    · -- the node at the end, before which the body went on
      obtain ⟨rfl, hlast⟩ := List.append_inj' heq rfl
      obtain rfl : node = other := List.singleton_inj.mp hlast
      rw [← hrun.after_eq]
      exact Scan.casePattern_of_goesOn hm
        ((Node.spansAll_singleton.mp hn.spans).prefix_drop hp)
    · have heq' : nodes ++ [node] = (first ++ other :: rest) ++ [last] := by simpa using heq
      exact hpattern first other rest (List.append_inj' heq' rfl).1 hp
  | lexeme h =>
    subst hg
    exact h.lexical.elim
  | refer hg' =>
    subst hg
    exact hg'.elim
  | _ => nomatch hg

theorem Reads.scriptBody
    (h : Reads source recalls levels (.body .commandSubstitution .normal after) pos nodes stop)
    (he : Delimiter.goesOn .commandSubstitution (.bare source stop after) = false)
    (hc : ascii ")" <+: source.drop stop) : ScriptBody nodes := by
  obtain ⟨hrun, hpattern⟩ := h.body_run
  have hafter := hrun.after_eq
  refine ⟨by rwa [← hafter], hpattern, ?_⟩
  obtain ⟨bytes, hb⟩ := hc
  have hrest : (Scanner.bare source stop after).rest = 0x29 :: bytes := hb.symm
  have hrole : (Scanner.bare source stop after).role? = some .closeParen :=
    Scanner.role?_cons hrest
  rw [← hafter]
  have hstate : (Scanner.bare source stop after).state ≠ .casePattern := by
    simpa [Delimiter.goesOn, hrole] using he
  exact hstate

/-- Wherever a substitution is read, it is closed by its own parenthesis. -/
theorem Reads.matched (h : Reads source recalls levels goal pos nodes stop) :
    Node.AllIn Node.Matched nodes := by
  induction h with
  | lexeme | reserved | esac => exact ⟨trivial, trivial⟩
  | refer _ _ ih | quotes _ ih | group _ ih | substitution _ _ ih | expand _ ih
  | arithmetic _ ih | retry _ _ ih | recalled _ _ ih | word _ _ _ ih => exact ih
  | @construct _ d _ _ _ _ _ _ hb h he hc ih =>
    refine ⟨⟨?_, ih⟩, trivial⟩
    cases d with
    | commandSubstitution =>
      obtain rfl := hb rfl
      exact ⟨h.scriptBody he hc, (List.prefix_iff_eq_take.mp hc).symm⟩
    | doubleQuote | arithmetic | arithmeticGroup => trivial
  | emptyBody | emptyScript | noParts => trivial
  | bodySnoc _ _ _ ih ihn | scriptSnoc _ _ ih ihn | partsSnoc _ _ ih ihn =>
    exact Node.allIn_append.mpr ⟨ih, ihn⟩
  | command _ _ _ ih | subject _ ih | pattern _ _ ih => exact ⟨⟨trivial, ih⟩, trivial⟩

namespace Lexer

/-- Whatever was called before, each command substitution inside of a node that is returned is a
script from the start of a command, closed by the first parenthesis that ends no pattern. -/
theorem get_matched {lexer after : Lexer} {node : Node} (h : Reachable source lexer)
    (hget : lexer.get = (.ok (some node), after)) : node.All Node.Matched := by
  rcases get_cases h.fits with hc | ⟨found, s, hc, hr⟩ | ⟨e, s, hc, _⟩
  · simp [hc] at hget
  · obtain rfl : found = node := by simpa [hc] using congrArg Prod.fst hget
    exact hr.reads.matched.1
  · simp [hc] at hget

/-- A `case` inside of a substitution, inside of quotes. -/
theorem get_matched_quotes :
    let script := [Node.leaf ⟨.keyword, ascii "case", 3⟩, .leaf ⟨.space, ascii " ", 7⟩,
      .word [.leaf ⟨.term, ascii "a", 8⟩], .leaf ⟨.space, ascii " ", 9⟩,
      .leaf ⟨.keyword, ascii "in", 10⟩, .leaf ⟨.space, ascii " ", 12⟩,
      .word [.leaf ⟨.term, ascii "b", 13⟩], .leaf ⟨.operator, ascii ")", 14⟩,
      .word [.leaf ⟨.term, ascii "c", 15⟩], .leaf ⟨.operator, ascii ";;", 16⟩,
      .leaf ⟨.keyword, ascii "esac", 18⟩]
    let node := Node.word [.enclosed .quotes ⟨.quote, ascii "\"", 0⟩
      [.enclosed .substitution ⟨.quote, ascii "$(", 1⟩ script ⟨.quote, ascii ")", 22⟩]
      ⟨.quote, ascii "\"", 23⟩]
    (start (ascii "\"$(case a in b)c;;esac)\"")).get.1 = .ok (some node) ∧
      ScriptBody script := by
  intro script node
  have hnode : (start (ascii "\"$(case a in b)c;;esac)\"")).get.1 = .ok (some node) := by rfl
  have hall : node.All Node.Matched := get_matched .start (Prod.ext hnode rfl)
  simp only [node, Node.All, Node.AllIn] at hall
  exact ⟨hnode, hall.2.1.2.1.1.1⟩

end Lexer

end ShellLex
