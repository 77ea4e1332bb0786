import ShellLex.Lexer
import ShellLex.Proofs.Elements
/-!
What the calls of a lexer answer, after any other calls: a node is the source between the offsets
before and after the call, and an error is one that a source can be blamed for.
-/
namespace ShellLex

/-- The errors that tell of the source. A `$((` that does not close is no error, because it is
read again as a command substitution. -/
def Cause.OfSource : Cause → Prop
  | .unexpected _ | .expectedIn _ | .unsupported _ | .tooDeep _ => True
  | .unterminated d => d = .doubleQuote ∨ d = .commandSubstitution
  | .internal _ => False

variable {source : List UInt8} {recalls : Prop}

theorem Failing.ofSource {levels : Nat} {s t : Scanner} {e : LexError}
    (h : Failing source recalls levels Enclosure.substitution.Blames s e t) :
    e.cause.OfSource := by
  have hshows := h.shows
  have hblame := h.blame
  cases hc : e.cause with
  | internal reason =>
    rw [hc] at hshows
    exact hshows
  | unterminated d =>
    have hd := hblame d hc
    cases d with
    | doubleQuote => exact Or.inl rfl
    | commandSubstitution => exact Or.inr rfl
    | arithmetic | arithmeticGroup => exact absurd rfl hd
  | _ => trivial

theorem Scan.element_ends {s : Scanner} (hs : s.Fits source recalls) (hne : s.rest ≠ []) :
    Ends element s (ReadingElement source recalls nestingLimit .substitution s)
      (Failing source recalls nestingLimit Enclosure.substitution.Blames s) := by
  have hr : Enclosure.substitution.Ready s := hne
  exact part_deeper_ends nestingLimit hs hr

theorem Scan.script_ends {s : Scanner} (hs : s.Fits source recalls) :
    Ends script s
      (fun nodes t => t.Fits source recalls ∧
        Reads source recalls nestingLimit (.script s.state t.state) s.pos nodes source.length)
      (fun e t => ∃ s',
        Failing source recalls nestingLimit Enclosure.substitution.Blames s' e t) := by
  let inv (nodes : List Node) (t : Scanner) : Prop :=
    Reads source recalls nestingLimit (.script s.state t.state) s.pos nodes t.pos
  have start : inv [] s := .emptyScript
  refine (many_ends hs start ?_ ?_).imp ?_
  · intro t hm hr
    simp [hr] at hm
  · intro nodes t ht _ hn hm
    have hne : t.rest ≠ [] := by
      intro hr
      simp [hr] at hm
    refine (element_ends ht hne).mono ?_ ?_
    · intro node u hu
      exact ⟨hu.fits, hu.reads.lt_of_singleton, .scriptSnoc hn hu.reads⟩
    · intro e u hu
      exact ⟨t, hu⟩
  · rintro nodes t ⟨ht, _, hm, hn⟩
    have hr : t.rest = [] := by simpa using hm
    rw [← ht.pos_of_nil hr]
    exact ⟨ht, hn⟩

theorem Scanner.start_fits (source : List UInt8) : (start source).Fits source True := by
  refine ⟨rfl, Nat.zero_le _, ?_⟩
  rintro _ ⟨⟩
  exact ⟨trivial, by simp⟩

theorem script_of_tokenize {nodes : List Node} (h : tokenize source = .ok nodes) :
    ∃ s, Scan.script (Scanner.start source) = .ok nodes s := by
  unfold tokenize at h
  cases hrun : Scan.script (Scanner.start source) with
  | ok result s =>
    rw [hrun] at h
    obtain rfl := Except.ok.inj h
    exact ⟨s, rfl⟩
  | error e s => simp [hrun] at h

theorem tokenize_reads {nodes : List Node} (h : tokenize source = .ok nodes) :
    ∃ after, Reads source True nestingLimit (.script .normal after) 0 nodes source.length := by
  obtain ⟨s, hrun⟩ := script_of_tokenize h
  have run := Scan.script_ends (Scanner.start_fits source)
  exact ⟨s.state, (run.of_ok hrun).2⟩

theorem textAll_of_tokenize {nodes : List Node} (h : tokenize source = .ok nodes) :
    Node.textAll nodes = source := by
  obtain ⟨_, reads⟩ := tokenize_reads h
  rw [reads.spans.text_eq]
  simp

theorem error_of_tokenize {e : LexError} (h : tokenize source = .error e) :
    ∃ s, Scan.script (Scanner.start source) = .error e s := by
  unfold tokenize at h
  cases hrun : Scan.script (Scanner.start source) with
  | ok result s => simp [hrun] at h
  | error found s =>
    rw [hrun] at h
    obtain rfl := Except.error.inj h
    exact ⟨s, rfl⟩

theorem shows_of_tokenize {e : LexError} (h : tokenize source = .error e) :
    ∃ stop, e.cause.Shows source e.pos stop := by
  obtain ⟨s, hrun⟩ := error_of_tokenize h
  have run := Scan.script_ends (Scanner.start_fits source)
  obtain ⟨_, failing⟩ := run.of_error hrun
  exact ⟨s.pos, failing.shows⟩

namespace Lexer

variable {lexer : Lexer}

/-- What is shown of the next element is shown of a call. -/
theorem get_ends (lexer : Lexer) {ok : Node → Scanner → Prop} {bad : LexError → Scanner → Prop}
    (hne : lexer.scanner.rest ≠ []) (run : Scan.Ends Scan.element lexer.scanner ok bad) :
    (∃ node s, lexer.get = (.ok (some node), { lexer with scanner := s }) ∧ ok node s) ∨
    ∃ e s, lexer.get = (.error e, { lexer with scanner := s }) ∧ bad e s := by
  have hr : lexer.scanner.rest.isEmpty = false := by simpa using hne
  cases hrun : Scan.element lexer.scanner with
  | ok node s => exact Or.inl ⟨node, s, by simp [get, hr, hrun], run.of_ok hrun⟩
  | error e s => exact Or.inr ⟨e, s, by simp [get, hr, hrun], run.of_error hrun⟩

/-- What a call can do: it stays at the end, it reads an element, or it fails. -/
theorem get_cases (hs : lexer.scanner.Fits source recalls) :
    lexer.get = (.ok none, lexer) ∨
    (∃ node s, lexer.get = (.ok (some node), { lexer with scanner := s }) ∧
      ReadingElement source recalls nestingLimit .substitution lexer.scanner node s) ∨
    (∃ e s, lexer.get = (.error e, { lexer with scanner := s }) ∧
      Failing source recalls nestingLimit Enclosure.substitution.Blames lexer.scanner e s) := by
  by_cases hr : lexer.scanner.rest = []
  · exact Or.inl (by simp [get, hr])
  · exact Or.inr (get_ends lexer hr (Scan.element_ends hs hr))

/-- An iteration makes the same calls until the first error. -/
theorem next_cases (lexer : Lexer) :
    lexer.next = (.ok none, lexer) ∨
    ∃ failed, lexer.next = (lexer.get.1, { lexer.get.2 with failed := failed }) := by
  unfold next
  split
  · exact Or.inl rfl
  · rename_i hf
    cases hg : lexer.get with
    | mk answer after =>
      cases answer with
      | error e => exact Or.inr ⟨true, rfl⟩
      | ok answer => exact Or.inr ⟨after.failed, rfl⟩

theorem get_fits (hs : lexer.scanner.Fits source recalls) :
    lexer.get.2.scanner.Fits source recalls := by
  rcases get_cases hs with h | ⟨node, s, h, hr⟩ | ⟨e, s, h, hf⟩
  · rw [h]
    exact hs
  · rw [h]
    exact hr.fits
  · rw [h]
    exact hf.fits

inductive Reachable (source : List UInt8) : Lexer → Prop where
  | start : Reachable source (.start source)
  | get {lexer : Lexer} (h : Reachable source lexer) : Reachable source lexer.get.2
  | next {lexer : Lexer} (h : Reachable source lexer) : Reachable source lexer.next.2

/-- What holds at the start and after each call of `get` holds of all lexers that are reachable. -/
theorem Reachable.induct {inv : Scanner → Prop} (h : Reachable source lexer)
    (start : inv (.start source))
    (get : ∀ lexer : Lexer, inv lexer.scanner → inv lexer.get.2.scanner) :
    inv lexer.scanner := by
  induction h with
  | start => exact start
  | get _ ih => exact get _ ih
  | @next lexer _ ih =>
    rcases next_cases lexer with hn | ⟨failed, hn⟩
    · rw [hn]
      exact ih
    · rw [hn]
      exact get lexer ih

theorem Reachable.fits (h : Reachable source lexer) : lexer.scanner.Fits source True :=
  h.induct (Scanner.start_fits source) fun _ => get_fits

/-- Nothing of a source is lost or moved: a node that is returned holds the bytes from the offset
before the call to that after it, and all its parts hold theirs. -/
theorem get_lossless (source : List UInt8) :
    (∀ lexer after node, Reachable source lexer → lexer.get = (.ok (some node), after) →
      lexer.pos < after.pos ∧ node.pos = lexer.pos ∧ node.stop = after.pos ∧
      node.text = source.extract lexer.pos after.pos ∧
      node.Spans source lexer.pos after.pos) ∧
    ∀ nodes, tokenize source = .ok nodes →
      Node.SpansAll source nodes 0 source.length ∧ Node.textAll nodes = source := by
  constructor
  · intro lexer after node h hget
    rcases get_cases h.fits with hc | ⟨node', s, hc, hr⟩ | ⟨e, s, hc, _⟩
    · rw [hc] at hget
      simp at hget
    · rw [hc] at hget
      obtain ⟨hn, rfl⟩ := Prod.mk.inj hget
      obtain rfl : node' = node := by simpa using hn
      have hspans := Node.spansAll_singleton.mp hr.reads.spans
      exact ⟨hspans.lt, hspans.pos_eq, hspans.stop_eq, hspans.text_eq, hspans⟩
    · rw [hc] at hget
      simp at hget
  · intro nodes h
    obtain ⟨after, hreads⟩ := tokenize_reads h
    refine ⟨hreads.spans, ?_⟩
    rw [hreads.spans.text_eq]
    simp

theorem get_lossless_word :
    let source := ascii "\"a\"$b"
    let node := Node.word [.enclosed .quotes ⟨.quote, ascii "\"", 0⟩ [.leaf ⟨.term, ascii "a", 1⟩]
      ⟨.quote, ascii "\"", 2⟩, .leaf ⟨.variable, ascii "$b", 3⟩]
    (start source).get.1 = .ok (some node) ∧ node.text = source.extract 0 5 ∧
      Node.textAll [node] = source := by
  intro source node
  have h := ((get_lossless source).1 (start source) (start source).get.2 node .start rfl)
  have hpos : (start source).get.2.pos = 5 := by rfl
  rw [hpos] at h
  exact ⟨rfl, h.2.2.2.1, ((get_lossless source).2 [node] rfl).2⟩

/-- A call that fails, of either kind, fails for a fault of the source. -/
theorem Reachable.blames_source {e : LexError} (h : Reachable source lexer)
    (he : lexer.get.1 = .error e ∨ lexer.next.1 = .error e) : e.cause.OfSource := by
  have hget : lexer.get.1 = .error e := by
    rcases he with he | he
    · exact he
    · rcases next_cases lexer with hn | ⟨failed, hn⟩
      · rw [hn] at he
        simp at he
      · rw [hn] at he
        exact he
  rcases get_cases h.fits with hc | ⟨node, s, hc, _⟩ | ⟨e', s, hc, hf⟩
  · rw [hc] at hget
    simp at hget
  · rw [hc] at hget
    simp at hget
  · rw [hc] at hget
    obtain rfl : e' = e := by simpa using hget
    exact hf.ofSource

end Lexer

end ShellLex
