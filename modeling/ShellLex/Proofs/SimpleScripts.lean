import ShellLex.Proofs.Transitions
/-!
Scripts that cannot be rejected. Without quotes, without the openings of substitutions and braces
and without the two ways into a `case`, a scan never leaves the states of commands, where every byte
begins something; so it reads the whole source, and nothing in it is nested.
-/
namespace ShellLex

/-- Nothing in the source opens a construct or leads into a `case`. -/
structure Simple (source : List UInt8) : Prop where
  quote : ¬ ascii "\"" <:+: source
  substitution : ¬ ascii "$(" <:+: source
  parameter : ¬ ascii "$\x7b" <:+: source
  clauseEnd : ¬ ascii ";;" <:+: source
  caseKeyword : ¬ ascii "case" <:+: source

namespace Node

def IsLeaf : Node → Prop
  | .leaf _ => True
  | .word _ | .enclosed _ _ _ _ => False

def Flat : Node → Prop
  | .leaf _ => True
  | .word nodes => ∀ node ∈ nodes, node.IsLeaf
  | .enclosed _ _ _ _ => False

end Node

namespace Scan

variable {source : List UInt8} {recalls : Prop} {levels : Nat} {s : Scanner} {inner : Inner}

theorem infix_of_rest {word : List UInt8} (hs : s.Fits source recalls) (h : word <+: s.rest) :
    word <:+: source := by
  rw [hs.rest] at h
  exact h.isInfix.trans (List.drop_suffix _ _).isInfix

/-- A dollar that opens nothing is a leaf. -/
theorem reference_simple (h : Simple source) (hs : s.Fits source recalls)
    (hd : s.role? = some .dollar) :
    Ends (reference inner) s (fun node _ => node.IsLeaf) fun _ _ => False := by
  rw [ends_reference hd]
  split
  · rename_i hp
    exact absurd (infix_of_rest hs (prefix_of_expansion hp)) h.substitution
  split
  · rename_i hp
    exact absurd (infix_of_rest hs hp) h.substitution
  split
  · rename_i hp
    exact h.parameter (infix_of_rest hs hp)
  · trivial

theorem wordPart_simple (h : Simple source) (hs : s.Fits source recalls) (hw : inWord s = true) :
    Ends (wordPart inner) s (fun node _ => node.IsLeaf) fun _ _ => False := by
  obtain ⟨b, bytes, hr, hends⟩ := inWord_cases hw
  apply wordPart_rule hr hends
  · intro _ _ _
    trivial
  · intro hb
    refine absurd (infix_of_rest hs ?_) h.quote
    rw [hr]
    exact opening_of_quote hb
  · intro hb
    exact reference_simple h hs (Scanner.role?_eq hr hb)

theorem word_simple (h : Simple source) (hi : inner.Obeys source recalls levels)
    (hs : s.Fits source recalls) (hw : inWord s = true) :
    Ends (word inner) s
      (fun nodes t => Reading source recalls levels .word s nodes t ∧ ∀ node ∈ nodes, node.IsLeaf)
      fun _ _ => False := by
  let inv (nodes : List Node) (t : Scanner) : Prop :=
    (nodes = [] → t = s) ∧ ∀ node ∈ nodes, node.IsLeaf
  have parts : Ends (many inWord (wordPart inner)) s
      (fun nodes t => t.Fits source recalls ∧ s.pos ≤ t.pos ∧ inWord t = false ∧ inv nodes t)
      fun _ _ => False := by
    refine many_ends hs ⟨fun _ => rfl, by simp⟩ ?_ ?_
    · intro t hm hr
      simp [inWord, Scanner.role?, hr] at hm
    · rintro nodes t ht _ ⟨_, hn⟩ hm
      refine ((wordPart_ends hi ht hm).and (wordPart_simple h ht hm)).mono ?_ fun _ _ he => he.2
      rintro node u ⟨hu, hleaf⟩
      exact ⟨hu.fits, hu.reads.lt_of_singleton, by simp,
        by simpa [or_imp, forall_and] using ⟨hn, hleaf⟩⟩
  have leaves : Ends (word inner) s (fun nodes _ => ∀ node ∈ nodes, node.IsLeaf)
      fun _ _ => False := by
    simp only [word, ends_bind]
    refine parts.imp ?_
    rintro nodes t ⟨_, _, hm, hstart, hn⟩
    cases nodes with
    | nil =>
      rw [hstart rfl, hw] at hm
      exact absurd hm (by simp)
    | cons node nodes => exact hn
  exact ((word_ends hi hs hw).and leaves).mono (fun _ _ hok => hok) fun _ _ he => he.2

/-- What is read in a state of commands stays in one, and nests nothing. -/
structure Settled (node : Node) (t : Scanner) : Prop where
  flat : node.Flat
  state : t.state.isCommand

theorem commandWord_simple (h : Simple source) (hi : inner.Obeys source recalls levels)
    (hs : s.Fits source recalls) (hw : inWord s = true) :
    Ends (commandWord inner) s Settled fun _ _ => False := by
  simp only [commandWord, ends_bind, ends_get]
  refine (word_simple h hi hs hw).imp ?_
  rintro nodes t ⟨hread, hleaves⟩
  split
  · rename_i leaf next hres
    have hres : reserved? nodes = some (leaf, next) := by
      split at hres
      · exact hres
      · exact absurd hres (by simp)
    obtain ⟨l, kind, rfl, _, hk, rfl⟩ := reserved?_eq_some hres
    simp only [ends_bind, ends_enter, ends_pure]
    refine ⟨trivial, ?_⟩
    rw [Scanner.enter_state]
    rcases reservation?_eq_some hk with ⟨_, rfl, _⟩ | ⟨_, _, hd⟩ | ⟨_, rfl, _⟩
    · rfl
    · have hspans := (Node.spansAll_singleton.mp hread.reads.spans).text_eq
      rw [Node.text, hd, List.extract_eq_take_drop] at hspans
      refine absurd ?_ h.caseKeyword
      rw [hspans]
      exact (List.take_prefix _ _).isInfix.trans (List.drop_suffix _ _).isInfix
    · rfl
  · simp only [ends_bind, ends_enter, ends_pure]
    exact ⟨hleaves, by rw [Scanner.enter_state]; rfl⟩

theorem commandPart_simple {b : UInt8} {bytes : List UInt8} (h : Simple source)
    (hi : inner.Obeys source recalls levels) (hs : s.Fits source recalls)
    (hr : s.rest = b :: bytes) (hb : role b ∉ [.blank, .hash, .newline]) :
    Ends (commandPart inner (role b)) s Settled fun _ _ => False := by
  unfold commandPart
  cases hrole : role b with
  | separator | openParen | closeParen =>
    simp only [operator, ends_bind, ends_enter, ends_get, ends_take, Scanner.enter_rest]
    split
    · rename_i hd
      refine absurd (infix_of_rest hs ?_) h.clauseEnd
      rw [← hd]
      exact List.take_prefix _ _
    · simp only [ends_pure]
      exact ⟨trivial, by simp [State.isCommand]⟩
  | redirection =>
    simp only [operator, ends_bind, ends_enter, ends_get, ends_take, ends_pure]
    exact ⟨trivial, by simp [State.isCommand]⟩
  | blank | hash | newline => simp [hrole] at hb
  | mark | backslash | quote | dollar | plain =>
    exact commandWord_simple h hi hs (inWord_cons hr (by rw [hrole]; rfl))

theorem scriptPart_simple (h : Simple source) (hi : inner.Obeys source recalls levels)
    (hs : s.Fits source recalls) (hne : s.rest ≠ []) (hc : s.state.isCommand) :
    Ends (scriptPart inner) s Settled fun _ _ => False := by
  obtain ⟨b, bytes, hr⟩ := List.exists_cons_of_ne_nil hne
  have leaf (goal : Goal) : Leaves goal s Settled := fun _ _ _ => ⟨trivial, hc⟩
  simp only [scriptPart, ends_bind, ends_get, hr]
  cases hrole : role b with
  | blank =>
    exact run_ends (leaf (.element .substitution s.state s.state)) hr (.blanks (by simp) hrole)
  | hash =>
    exact run_ends (leaf (.element .substitution s.state s.state)) hr (.comment hrole)
  | newline =>
    dsimp only
    split
    · simp only [ends_bind, ends_enter, ends_take, ends_pure]
      exact ⟨trivial, by simp [State.isCommand]⟩
    · simp only [ends_bind, ends_take, ends_pure]
      exact ⟨trivial, hc⟩
  | _ =>
    have part := commandPart_simple h hi hs hr (by simp [hrole])
    rw [hrole] at part
    dsimp only
    cases hst : s.state with
    | normal | command => exact part
    | caseSubject | caseIn | casePattern => simp [hst, State.isCommand] at hc

theorem element_simple (h : Simple source) (hs : s.Fits source recalls) (hne : s.rest ≠ [])
    (hc : s.state.isCommand) :
    Ends element s
      (fun node t => ReadingElement source recalls nestingLimit .substitution s node t ∧
        Settled node t)
      fun _ _ => False := by
  have settled := scriptPart_simple h (deeper_obeys source recalls nestingLimit) hs hne hc
  exact ((element_ends hs hne).and settled).mono (fun _ _ hok => hok) fun _ _ he => he.2

theorem script_simple (h : Simple source) (hs : s.Fits source recalls) (hc : s.state.isCommand) :
    Ends script s (fun nodes _ => ∀ node ∈ nodes, node.Flat) fun _ _ => False := by
  let inv (nodes : List Node) (t : Scanner) : Prop :=
    t.state.isCommand ∧ ∀ node ∈ nodes, node.Flat
  have start : inv [] s := ⟨hc, by simp⟩
  refine (many_ends hs start ?_ ?_).imp ?_
  · intro t hm hr
    simp [hr] at hm
  · rintro nodes t ht _ ⟨hstate, hn⟩ hm
    have hne : t.rest ≠ [] := by
      intro hr
      simp [hr] at hm
    refine (element_simple h ht hne hstate).imp ?_
    rintro node u ⟨hu, settled⟩
    exact ⟨hu.fits, hu.reads.lt_of_singleton, settled.state,
      by simpa [or_imp, forall_and] using ⟨hn, settled.flat⟩⟩
  · rintro nodes t ⟨_, _, _, _, hn⟩
    exact hn

end Scan

namespace Lexer

variable {source : List UInt8} {lexer : Lexer}

/-- In a state of commands no call fails, and none leaves these states. -/
theorem get_simple (h : Simple source) (hs : lexer.scanner.Fits source True)
    (hc : lexer.state.isCommand) :
    (∃ node?, lexer.get.1 = .ok node?) ∧ lexer.get.2.state.isCommand := by
  by_cases hr : lexer.scanner.rest = []
  · have stay : lexer.get = (.ok none, lexer) := by simp [get, hr]
    rw [stay]
    exact ⟨⟨none, rfl⟩, hc⟩
  · have read := get_ends lexer hr (Scan.element_simple h hs hr hc)
    rcases read with ⟨node, s, hget, hok⟩ | ⟨_, _, _, hbad⟩
    · rw [hget]
      exact ⟨⟨some node, rfl⟩, hok.2.state⟩
    · exact hbad.elim

theorem Reachable.isCommand (h : Simple source) (hl : Reachable source lexer) :
    lexer.state.isCommand := by
  let inv (s : Scanner) : Prop := s.Fits source True ∧ s.state.isCommand
  have start : inv (.start source) := ⟨Scanner.start_fits source, rfl⟩
  have both : inv lexer.scanner := hl.induct start fun lexer ⟨hs, hc⟩ =>
    ⟨get_fits hs, (get_simple h hs hc).2⟩
  exact both.2

end Lexer

/-- A simple source is read to its end, into leaves and words of leaves, and whatever calls are made
on it, none fails or leaves the states of commands. -/
theorem tokenize_simple {source : List UInt8} (h : Simple source) :
    (∃ nodes, tokenize source = .ok nodes ∧ ∀ node ∈ nodes, node.Flat) ∧
    ∀ lexer, Lexer.Reachable source lexer →
      (∃ node?, lexer.get.1 = .ok node?) ∧ (lexer.state = .normal ∨ lexer.state = .command) := by
  constructor
  · have run := Scan.script_simple h (Scanner.start_fits source) rfl
    unfold Scan.Ends at run
    unfold tokenize
    split
    · rename_i nodes s hs
      rw [hs] at run
      exact ⟨nodes, rfl, run⟩
    · rename_i e s hs
      rw [hs] at run
      exact run.elim
  · intro lexer hl
    have hc := hl.isCommand h
    refine ⟨(Lexer.get_simple h hl.fits hc).1, ?_⟩
    cases hst : lexer.state with
    | normal => exact Or.inl rfl
    | command => exact Or.inr rfl
    | _ => simp [hst, State.isCommand] at hc

/-- Operators, redirections, an escape, a bare dollar and reserved words other than `case`. -/
theorem tokenize_simple_loop :
    let source := ascii "while !x;do esac&>$\\(>|$?;done #)|"
    Simple source ∧ ∃ nodes, tokenize source = .ok nodes ∧ ∀ node ∈ nodes, node.Flat := by
  have simple : Simple (ascii "while !x;do esac&>$\\(>|$?;done #)|") :=
    ⟨by decide +kernel, by decide +kernel, by decide +kernel, by decide +kernel,
      by decide +kernel⟩
  exact ⟨simple, (tokenize_simple simple).1⟩

end ShellLex
