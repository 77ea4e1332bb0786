import ShellLex.Scan.Nesting
import ShellLex.Proofs.Span
/-!
The grammar of nodes. A derivation says which nodes a source can hold between two offsets and how
many levels of constructs they take; it knows of no scanner, and of the table only that an
expansion may have been read where more levels were left.
-/
namespace ShellLex

namespace Lexeme

theorem first?_bounds {table : List (List UInt8)} {bytes word : List UInt8}
    (h : first? table bytes = some word) (ht : [] ∉ table) :
    0 < word.length ∧ word.length ≤ bytes.length := by
  have hm : word ∈ table := List.mem_of_find?_eq_some h
  have hp : word <+: bytes := by simpa [first?] using List.find?_some h
  refine ⟨List.length_pos_iff.mpr ?_, hp.length_le⟩
  rintro rfl
  exact ht hm

theorem operator_bounds {b : UInt8} {bytes : List UInt8} :
    0 < operator (b :: bytes) ∧ operator (b :: bytes) ≤ (b :: bytes).length := by
  unfold operator
  cases h : first? operators (b :: bytes) with
  | none => simp
  | some word => exact first?_bounds h (by decide)

theorem arithmeticOperator?_bounds {bytes : List UInt8} {size : Nat}
    (h : arithmeticOperator? bytes = some size) : 0 < size ∧ size ≤ bytes.length := by
  obtain ⟨word, hw, rfl⟩ := Option.map_eq_some_iff.mp h
  exact first?_bounds hw (by decide)

theorem escape_bounds {b : UInt8} {bytes : List UInt8} :
    0 < escape (b :: bytes) ∧ escape (b :: bytes) ≤ (b :: bytes).length := by
  simp only [escape, List.length_cons]
  omega

theorem run_bounds {accept : UInt8 → Bool} {b : UInt8} {bytes : List UInt8} (h : accept b) :
    0 < ((b :: bytes).takeWhile accept).length ∧
      ((b :: bytes).takeWhile accept).length ≤ (b :: bytes).length := by
  refine ⟨by simp [h], (List.takeWhile_prefix accept).length_le⟩

theorem take_run (accept : UInt8 → Bool) (bytes : List UInt8) :
    bytes.take (bytes.takeWhile accept).length = bytes.takeWhile accept :=
  (List.prefix_iff_eq_take.mp (List.takeWhile_prefix accept)).symm

theorem number_bounds {b : UInt8} {bytes : List UInt8} (h : isDigit b) :
    0 < number (b :: bytes) ∧ number (b :: bytes) ≤ (b :: bytes).length := by
  unfold number
  split
  · rename_i x digits heq
    rw [heq]
    split
    · have := (List.takeWhile_prefix (l := digits) isHexDigit).length_le
      simp only [List.length_cons]
      omega
    · exact run_bounds rfl
  · exact run_bounds h

theorem reference_bounds {b : UInt8} {bytes : List UInt8} :
    0 < reference (b :: bytes) ∧ reference (b :: bytes) ≤ (b :: bytes).length := by
  unfold reference
  split
  · rename_i c bytes h
    obtain ⟨_, rfl⟩ := List.cons.inj h
    have := (List.takeWhile_prefix (l := bytes) isLetter).length_le
    simp only [List.length_cons]
    split <;> omega
  · simp

end Lexeme

def Scanner.bare (source : List UInt8) (pos : Nat) (state : State) : Scanner :=
  ⟨source.drop pos, pos, state, none, []⟩

/-- What can be read at an offset. Elements of a script change the state of the grammar. -/
inductive Goal where
  | element (form : Enclosure) (before after : State)
  | body (d : Delimiter) (before after : State)
  | script (before after : State)
  | part
  | parts
  | word
  | reference
  | expansion
  | construct (d : Delimiter)

/-- Where a backslash protects a byte and a dollar begins a reference. -/
def Goal.Expands : Goal → Prop
  | .part => True
  | .element .quotes before after | .element .arithmetic before after => before = after
  | _ => False

def Goal.Lexical : Goal → Prop
  | .element _ _ _ | .part | .reference => True
  | _ => False

def Goal.Steady : Goal → Prop
  | .element form before after => form ≠ .substitution → after = before
  | .body d before after => d.form ≠ .substitution → after = before
  | _ => True

theorem Goal.Expands.steady {goal : Goal} (h : goal.Expands) : goal.Steady := by
  cases goal with
  | element form before after => cases form <;> simp_all [Goal.Expands, Goal.Steady]
  | body => exact h.elim
  | _ => trivial

theorem Goal.Expands.lexical {goal : Goal} (h : goal.Expands) : goal.Lexical := by
  cases goal with
  | element | part => trivial
  | _ => exact h.elim

def State.isCommand : State → Bool
  | .normal | .command => true
  | .caseSubject | .caseIn | .casePattern => false

def Role.leadsArithmetic : Role → Bool
  | .blank | .newline | .backslash | .dollar | .openParen | .closeParen => true
  | _ => false

/-- The leaves: `bytes` begin with a leaf of a kind, which takes a number of them. -/
inductive Lexes : Goal → (bytes : List UInt8) → Kind → Nat → Prop where
  | blanks {form state b bytes} (hf : form ≠ .quotes) (hb : role b = .blank) :
      Lexes (.element form state state) (b :: bytes) .space
        ((b :: bytes).takeWhile isBlank).length
  | comment {state b bytes} (hb : role b = .hash) :
      Lexes (.element .substitution state state) (b :: bytes) .comment
        ((b :: bytes).takeWhile (role · != .newline)).length
  | newline {state b bytes} (hb : role b = .newline) :
      Lexes (.element .substitution state (if state = .command then .normal else state))
        (b :: bytes) .newLine 1
  | separator {state b bytes} (hs : state.isCommand)
      (hb : role b = .separator ∨ role b = .openParen ∨ role b = .closeParen) :
      Lexes (.element .substitution state
          (if (b :: bytes).take (Lexeme.operator (b :: bytes)) = ascii ";;" then .casePattern
            else .normal))
        (b :: bytes) .operator (Lexeme.operator (b :: bytes))
  | redirection {state b bytes} (hs : state.isCommand) (hb : role b = .redirection) :
      Lexes (.element .substitution state .command) (b :: bytes) .operator
        (Lexeme.operator (b :: bytes))
  | caseIn {b bytes} (hb : isPlain b) (hw : (b :: bytes).takeWhile isPlain = ascii "in") :
      Lexes (.element .substitution .caseIn .casePattern) (b :: bytes) .keyword
        ((b :: bytes).takeWhile isPlain).length
  | openPattern {b bytes} (hb : role b = .openParen) :
      Lexes (.element .substitution .casePattern .casePattern) (b :: bytes) .operator 1
  | closePattern {b bytes} (hb : role b = .closeParen) :
      Lexes (.element .substitution .casePattern .normal) (b :: bytes) .operator 1
  | escape {goal b bytes} (hg : goal.Expands) (hb : role b = .backslash) :
      Lexes goal (b :: bytes) .escaped (Lexeme.escape (b :: bytes))
  | quoted {state b bytes} (hb : Scan.isQuotable b) :
      Lexes (.element .quotes state state) (b :: bytes) .term
        ((b :: bytes).takeWhile Scan.isQuotable).length
  | arithmeticNewline {state b bytes} (hb : role b = .newline) :
      Lexes (.element .arithmetic state state) (b :: bytes) .newLine 1
  | number {state b bytes} (hb : isDigit b) :
      Lexes (.element .arithmetic state state) (b :: bytes) .variable (Lexeme.number (b :: bytes))
  | name {state b bytes} (hb : isNameStart b) :
      Lexes (.element .arithmetic state state) (b :: bytes) .variable
        ((b :: bytes).takeWhile isNameByte).length
  | arithmeticOperator {state b bytes size} (hb : (role b).leadsArithmetic = false)
      (ho : Lexeme.arithmeticOperator? (b :: bytes) = some size) :
      Lexes (.element .arithmetic state state) (b :: bytes) .term size
  | unknown {state b bytes} (hb : (role b).leadsArithmetic = false) (hd : isDigit b = false)
      (hn : isNameStart b = false) (ho : Lexeme.arithmeticOperator? (b :: bytes) = none) :
      Lexes (.element .arithmetic state state) (b :: bytes) .unknown 1
  | mark {b bytes} (hb : role b = .mark) : Lexes .part (b :: bytes) .term 1
  | plain {b bytes} (hb : isPlain b) :
      Lexes .part (b :: bytes) .term ((b :: bytes).takeWhile isPlain).length
  | dollar {b bytes} (hb : role b = .dollar) (hp : ¬ ascii "$(" <+: b :: bytes)
      (hu : ¬ ascii "$\x7b" <+: b :: bytes) :
      Lexes .reference (b :: bytes) .variable (Lexeme.reference (b :: bytes))

/-- The source holds `nodes` from `pos` to `stop`, where `levels` more constructs may be opened.
If recalls are allowed, the levels that an expansion needs are those of some other place. -/
inductive Reads (source : List UInt8) (recalls : Prop) :
    (levels : Nat) → Goal → (pos : Nat) → (nodes : List Node) → (stop : Nat) → Prop where
  | lexeme {levels goal pos kind size} (h : Lexes goal (source.drop pos) kind size) :
      Reads source recalls levels goal pos [.leaf ⟨kind, (source.drop pos).take size, pos⟩]
        (pos + size)
  | refer {levels goal pos nodes stop} (hg : goal.Expands)
      (h : Reads source recalls levels .reference pos nodes stop) :
      Reads source recalls levels goal pos nodes stop
  | quotes {levels pos nodes stop}
      (h : Reads source recalls levels (.construct .doubleQuote) pos nodes stop) :
      Reads source recalls levels .part pos nodes stop
  | group {levels state pos nodes stop}
      (h : Reads source recalls levels (.construct .arithmeticGroup) pos nodes stop) :
      Reads source recalls levels (.element .arithmetic state state) pos nodes stop
  | substitution {levels pos nodes stop} (hp : ¬ ascii "$((" <+: source.drop pos)
      (h : Reads source recalls levels (.construct .commandSubstitution) pos nodes stop) :
      Reads source recalls levels .reference pos nodes stop
  | expand {levels pos nodes stop} (h : Reads source recalls levels .expansion pos nodes stop) :
      Reads source recalls levels .reference pos nodes stop
  | arithmetic {levels pos nodes stop}
      (h : Reads source recalls levels (.construct .arithmetic) pos nodes stop) :
      Reads source recalls levels .expansion pos nodes stop
  | retry {levels pos nodes stop} (hp : ascii "$((" <+: source.drop pos)
      (h : Reads source recalls levels (.construct .commandSubstitution) pos nodes stop) :
      Reads source recalls levels .expansion pos nodes stop
  | recalled {levels kept pos nodes stop} (hr : recalls)
      (h : Reads source recalls kept .expansion pos nodes stop) :
      Reads source recalls levels .expansion pos nodes stop
  | construct {levels d before after pos nodes stop} (ho : d.opening <+: source.drop pos)
      (hb : d = .commandSubstitution → before = .normal)
      (h : Reads source recalls levels (.body d before after) (pos + d.opening.length) nodes stop)
      (he : d.goesOn (.bare source stop after) = false) (hc : d.closing <+: source.drop stop) :
      Reads source recalls (levels + 1) (.construct d) pos
        [.enclosed d.form ⟨.quote, (source.drop pos).take d.opening.length, pos⟩ nodes
          ⟨.quote, (source.drop stop).take d.closing.length, stop⟩]
        (stop + d.closing.length)
  | emptyBody {levels d state pos} :
      Reads source recalls levels (.body d state state) pos [] pos
  | bodySnoc {levels d before state after pos nodes middle node stop}
      (h : Reads source recalls levels (.body d before state) pos nodes middle)
      (hm : d.goesOn (.bare source middle state))
      (hn : Reads source recalls levels (.element d.form state after) middle [node] stop) :
      Reads source recalls levels (.body d before after) pos (nodes ++ [node]) stop
  | emptyScript {levels state pos} :
      Reads source recalls levels (.script state state) pos [] pos
  | scriptSnoc {levels before state after pos nodes middle node stop}
      (h : Reads source recalls levels (.script before state) pos nodes middle)
      (hn : Reads source recalls levels (.element .substitution state after) middle [node] stop) :
      Reads source recalls levels (.script before after) pos (nodes ++ [node]) stop
  | noParts {levels pos} : Reads source recalls levels .parts pos [] pos
  | partsSnoc {levels pos nodes middle node stop}
      (h : Reads source recalls levels .parts pos nodes middle)
      (hn : Reads source recalls levels .part middle [node] stop) :
      Reads source recalls levels .parts pos (nodes ++ [node]) stop
  | word {levels pos nodes stop} (h : Reads source recalls levels .parts pos nodes stop)
      (hne : nodes ≠ []) (hs : Scan.inWord (.bare source stop .normal) = false) :
      Reads source recalls levels .word pos nodes stop
  | command {levels state pos nodes stop} (hs : state.isCommand)
      (hr : state = .normal → Scan.reserved? nodes = none)
      (h : Reads source recalls levels .word pos nodes stop) :
      Reads source recalls levels (.element .substitution state .command) pos [.word nodes] stop
  | reserved {levels pos nodes stop leaf next} (hr : Scan.reserved? nodes = some (leaf, next))
      (h : Reads source recalls levels .word pos nodes stop) :
      Reads source recalls levels (.element .substitution .normal next) pos [.leaf leaf] stop
  | subject {levels pos nodes stop} (h : Reads source recalls levels .word pos nodes stop) :
      Reads source recalls levels (.element .substitution .caseSubject .caseIn) pos
        [.word nodes] stop
  | esac {levels pos nodes stop leaf}
      (he : (Node.onlyLeaf? .term nodes).filter (·.data = ascii "esac") = some leaf)
      (h : Reads source recalls levels .word pos nodes stop) :
      Reads source recalls levels (.element .substitution .casePattern .normal) pos
        [.leaf { leaf with kind := .keyword }] stop
  | pattern {levels pos nodes stop}
      (he : (Node.onlyLeaf? .term nodes).filter (·.data = ascii "esac") = none)
      (h : Reads source recalls levels .word pos nodes stop) :
      Reads source recalls levels (.element .substitution .casePattern .casePattern) pos
        [.word nodes] stop

theorem Lexes.bounds {goal : Goal} {bytes : List UInt8} {kind : Kind} {size : Nat}
    (h : Lexes goal bytes kind size) : 0 < size ∧ size ≤ bytes.length := by
  cases h with
  | blanks _ hb => exact Lexeme.run_bounds (by simp [isBlank, hb])
  | comment hb => exact Lexeme.run_bounds (by simp [hb])
  | separator | redirection => exact Lexeme.operator_bounds
  | caseIn hb _ | plain hb | quoted hb => exact Lexeme.run_bounds hb
  | escape => exact Lexeme.escape_bounds
  | number hb => exact Lexeme.number_bounds hb
  | name hb => exact Lexeme.run_bounds (by simp [isNameByte, hb])
  | arithmeticOperator _ ho => exact Lexeme.arithmeticOperator?_bounds ho
  | dollar => exact Lexeme.reference_bounds
  | newline | openPattern | closePattern | arithmeticNewline | unknown | mark => simp

theorem Lexes.lexical {goal : Goal} {bytes : List UInt8} {kind : Kind} {size : Nat}
    (h : Lexes goal bytes kind size) : goal.Lexical := by
  cases h with
  | escape hg => exact hg.lexical
  | _ => trivial

theorem Lexes.steady {goal : Goal} {bytes : List UInt8} {kind : Kind} {size : Nat}
    (h : Lexes goal bytes kind size) : goal.Steady := by
  cases h with
  | escape hg => exact hg.steady
  | _ => simp [Goal.Steady]

theorem Node.onlyLeaf?_eq_some {kind : Kind} {nodes : List Node} {l : Leaf}
    (h : Node.onlyLeaf? kind nodes = some l) : nodes = [.leaf l] ∧ l.kind = kind := by
  unfold Node.onlyLeaf? at h
  split at h
  · split at h
    · rename_i hk
      obtain rfl := Option.some.inj h
      exact ⟨rfl, hk⟩
    · exact absurd h (by simp)
  · exact absurd h (by simp)

theorem Scan.reserved?_eq_some {nodes : List Node} {leaf : Leaf} {next : State}
    (h : reserved? nodes = some (leaf, next)) :
    ∃ l kind, nodes = [.leaf l] ∧ l.kind = .term ∧
      reservation? l.data = some (kind, next) ∧ leaf = { l with kind := kind } := by
  unfold reserved? at h
  obtain ⟨l, hl, h⟩ := Option.bind_eq_some_iff.mp h
  obtain ⟨⟨kind, state⟩, hr, h⟩ := Option.bind_eq_some_iff.mp h
  obtain ⟨rfl, rfl⟩ := Prod.mk.inj (Option.some.inj h)
  obtain ⟨rfl, hk⟩ := Node.onlyLeaf?_eq_some hl
  exact ⟨l, kind, rfl, hk, hr, rfl⟩

namespace Reads

variable {source : List UInt8} {recalls : Prop} {levels pos stop : Nat} {goal : Goal}
  {nodes : List Node}

theorem word_cases (h : Reads source recalls levels .word pos nodes stop) :
    Reads source recalls levels .parts pos nodes stop ∧ nodes ≠ [] ∧
      Scan.inWord (.bare source stop .normal) = false := by
  cases h with
  | lexeme h => exact h.lexical.elim
  | refer hg => exact hg.elim
  | word h hne hs => exact ⟨h, hne, hs⟩

theorem construct_cases {d : Delimiter}
    (h : Reads source recalls levels (.construct d) pos nodes stop) :
    d.opening <+: source.drop pos ∧ ∃ opening body closing,
      nodes = [.enclosed d.form opening body closing] ∧ opening.pos = pos := by
  cases h with
  | lexeme h => exact h.lexical.elim
  | refer hg => exact hg.elim
  | construct ho => exact ⟨ho, _, _, _, rfl, rfl⟩

/-- What is read at an offset spans the source from there. -/
theorem spans (h : Reads source recalls levels goal pos nodes stop) :
    Node.SpansAll source nodes pos stop := by
  induction h with
  | lexeme h =>
    obtain ⟨hpos, hle⟩ := h.bounds
    rw [Node.spansAll_singleton]
    refine ⟨Leaf.exact_take hpos hle, rfl, ?_⟩
    rw [Leaf.stop, List.length_take, Nat.min_eq_left hle]
  | refer _ _ ih | quotes _ ih | group _ ih | substitution _ _ ih | expand _ ih
  | arithmetic _ ih | retry _ _ ih | recalled _ _ ih | word _ _ _ ih => exact ih
  | @construct _ d _ _ pos _ stop ho _ _ _ hc ih =>
    have hopen : 0 < d.opening.length := by cases d <;> decide
    have hclose : 0 < d.closing.length := by cases d <;> decide
    rw [Node.spansAll_singleton]
    refine ⟨Leaf.exact_take hopen ho.length_le, rfl, ?_, Leaf.exact_take hclose hc.length_le, ?_⟩
    · rw [Leaf.stop, List.length_take, Nat.min_eq_left ho.length_le]
      exact ih
    · rw [Leaf.stop, List.length_take, Nat.min_eq_left hc.length_le]
  | emptyBody | emptyScript | noParts => rfl
  | bodySnoc _ _ _ ih ihn | scriptSnoc _ _ ih ihn | partsSnoc _ _ ih ihn =>
    exact Node.spansAll_snoc ih (Node.spansAll_singleton.mp ihn)
  | command _ _ h ih | subject h ih | pattern _ h ih =>
    rw [Node.spansAll_singleton]
    exact ⟨h.word_cases.2.1, ih⟩
  | reserved hr _ ih =>
    obtain ⟨l, kind, rfl, _, _, rfl⟩ := Scan.reserved?_eq_some hr
    rw [Node.spansAll_singleton] at ih ⊢
    exact ih.with_kind kind
  | esac he _ ih =>
    obtain ⟨rfl, _⟩ := Node.onlyLeaf?_eq_some (Option.filter_eq_some_iff.mp he).1
    rw [Node.spansAll_singleton] at ih ⊢
    exact ih.with_kind .keyword

theorem steady (h : Reads source recalls levels goal pos nodes stop) : goal.Steady := by
  induction h with
  | lexeme h => exact h.steady
  | refer hg => exact hg.steady
  | bodySnoc _ _ _ ih ihn => exact fun hd => (ihn hd).trans (ih hd)
  | _ => simp [Goal.Steady]

theorem lt_of_singleton {node : Node} (h : Reads source recalls levels goal pos [node] stop) :
    pos < stop :=
  (Node.spansAll_singleton.mp h.spans).lt

theorem le (h : Reads source recalls levels goal pos nodes stop) : pos ≤ stop :=
  Node.SpansAll.le h.spans

theorem construct_bounds {d : Delimiter}
    (h : Reads source recalls levels (.construct d) pos nodes stop) :
    pos + d.opening.length + d.closing.length ≤ stop := by
  cases h with
  | lexeme h => exact h.lexical.elim
  | refer hg => exact hg.elim
  | construct _ _ h =>
    have := h.le
    omega

end Reads

end ShellLex
