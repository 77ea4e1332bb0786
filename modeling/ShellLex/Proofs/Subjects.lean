import ShellLex.Proofs.Calls
/-!
Where `in` is missed. However deep in a source such an error is raised, and whether it was kept or
not, an element of a script ends at its offset that leaves `in` to be expected: the subject of a
`case` or what separates it from the word that is found.
-/
namespace ShellLex

variable {source : List UInt8} {recalls : Prop}

/-- An element of a script ends at `pos` after which only `in` may follow. -/
def Awaited (source : List UInt8) (recalls : Prop) (pos : Nat) : Prop :=
  ∃ levels before start node,
    Reads source recalls levels (.element .substitution before .caseIn) start [node] pos

def LexError.Justified (source : List UInt8) (recalls : Prop) (e : LexError) : Prop :=
  ∀ got, e.cause = .expectedIn got → Awaited source recalls e.pos

theorem LexError.Justified.other {e : LexError} (h : ∀ got, e.cause ≠ .expectedIn got) :
    e.Justified source recalls := fun got hc => absurd hc (h got)

namespace Scanner

def Justified (source : List UInt8) (recalls : Prop) (s : Scanner) : Prop :=
  ∀ table, s.outcomes = some table → ∀ pos outcome e, (pos, outcome) ∈ table →
    outcome.result = .error e → e.Justified source recalls

/-- At the start of an element of a script, `in` is expected where it is awaited. -/
def Poised (source : List UInt8) (recalls : Prop) (form : Enclosure) (s : Scanner) : Prop :=
  form = .substitution → s.state = .caseIn → Awaited source recalls s.pos

variable {s t : Scanner}

theorem Justified.of_outcomes (h : s.Justified source recalls) (ho : t.outcomes = s.outcomes) :
    t.Justified source recalls := by
  intro table ht
  exact h table (ho.symm.trans ht)

theorem Justified.skip (h : s.Justified source recalls) (size : Nat) :
    (s.skip size).Justified source recalls := h

theorem Justified.enter (h : s.Justified source recalls) (state : State) :
    (s.enter state).Justified source recalls :=
  h.of_outcomes (s.enter_outcomes state)

theorem Justified.record {pos : Nat} {outcome : Outcome} (h : s.Justified source recalls)
    (he : ∀ e, outcome.result = .error e → e.Justified source recalls) :
    (s.record pos outcome).Justified source recalls := by
  intro table ht p o e hm ho
  obtain ⟨old, hold, rfl⟩ := Option.map_eq_some_iff.mp ht
  rcases List.mem_cons.mp hm with heq | hm
  · obtain ⟨rfl, rfl⟩ := Prod.mk.inj heq
    exact he e ho
  · exact h old hold p o e hm ho

end Scanner

namespace Scan

variable {α : Type} {levels : Nat} {s : Scanner} {inner : Inner} {d : Delimiter}

def Justifies (source : List UInt8) (recalls : Prop) (scan : Scan α) (s : Scanner) : Prop :=
  s.Justified source recalls → Ends scan s (fun _ t => t.Justified source recalls)
    fun e t => e.Justified source recalls ∧ t.Justified source recalls

def InnerJustifies (source : List UInt8) (recalls : Prop) (inner : Inner) : Prop :=
  ∀ read, inner = some read → ∀ form s, s.Fits source recalls → form.Ready s →
    s.Poised source recalls form → Justifies source recalls (read form) s

theorem leaves_justified {goal : Goal} (h : s.Justified source recalls) :
    Leaves goal s fun _ t => t.Justified source recalls := fun _ size _ => h.skip size

theorem body_justifies {read : Enclosure → Scan Node}
    (hi : Inner.Obeys source recalls (levels + 1) (some read))
    (hj : InnerJustifies source recalls (some read)) (hs : s.Fits source recalls)
    (hp : s.Poised source recalls d.form) :
    Justifies source recalls (many d.goesOn (read d.form)) s := by
  intro h
  let inv (_ : List Node) (t : Scanner) : Prop :=
    t.Justified source recalls ∧ t.Poised source recalls d.form
  have start : inv [] s := ⟨h, hp⟩
  refine (many_ends hs start ?_ ?_).imp fun _ _ ht => ht.2.2.2.1
  · intro t hm hr
    simp [Delimiter.goesOn, Scanner.role?, hr] at hm
  · rintro nodes t ht _ ⟨hjust, hpoised⟩ hm
    have ready := ready_of_goesOn hm
    have read := hi d.form t ht ready
    refine (read.and (hj _ rfl d.form t ht ready hpoised hjust)).mono ?_ fun _ _ he => he.2
    rintro node u ⟨hu, hujust⟩
    refine ⟨hu.fits, hu.reads.lt_of_singleton, hujust, fun hform hstate => ?_⟩
    have reads := hu.reads
    rw [hform, hstate] at reads
    exact ⟨levels, t.state, t.pos, node, reads⟩

theorem inBody_justifies {read : Enclosure → Scan Node}
    (hi : Inner.Obeys source recalls (levels + 1) (some read))
    (hj : InnerJustifies source recalls (some read)) (hs : s.Fits source recalls) :
    Justifies source recalls (d.inBody (many d.goesOn (read d.form))) s := by
  intro h
  by_cases hd : d = .commandSubstitution
  · subst hd
    have poised : (s.enter .normal).Poised source recalls Delimiter.commandSubstitution.form := by
      intro _ hstate
      rw [Scanner.enter_state] at hstate
      exact absurd hstate (by simp)
    rw [Delimiter.inBody, ends_within]
    refine (body_justifies hi hj (hs.enter .normal) poised (h.enter .normal)).mono ?_ ?_
    · exact fun _ t ht => ht.enter s.state
    · exact fun _ t ht => ⟨ht.1, ht.2.enter s.state⟩
  · rw [inBody_of_ne hd]
    exact body_justifies hi hj hs (fun hform => absurd hform (form_ne_substitution hd)) h

/-- The one place where the error is raised. -/
theorem caseIn_justifies {b : UInt8} {bytes : List UInt8} (hr : s.rest = b :: bytes)
    (ha : Awaited source recalls s.pos) : Justifies source recalls (caseIn b) s := by
  intro h
  unfold caseIn
  by_cases hp : isPlain b
  · simp only [hp, Bool.not_true, Bool.false_eq_true, if_false, ends_bind, ends_get,
      ends_takeWhile (Scanner.run_bounds hr hp).1]
    split
    · exact (h.skip _).enter .casePattern
    · exact ⟨fun _ _ => ha, h.skip _⟩
  · simp only [hp, Bool.not_false, if_true]
    exact ⟨.other (by simp), h⟩

section Routines

variable (hi : inner.Obeys source recalls levels) (hj : InnerJustifies source recalls inner)
  (hs : s.Fits source recalls)
include hi hj hs

theorem enclosure_justifies (ho : d.opening <+: s.rest) :
    Justifies source recalls (enclosure inner d) s := by
  intro h
  simp only [enclosure, ends_bind, ends_get, ends_opened_of_prefix ho]
  rcases hi.cases with ⟨rfl, rfl⟩ | ⟨read, levels, rfl, rfl⟩
  · exact ⟨.other (by simp), h⟩
  · simp only [ends_bind]
    refine (inBody_justifies hi hj (hs.skip _) (h.skip _)).imp ?_
    intro nodes t ht
    rw [ends_closed]
    split
    · exact ht.skip _
    split <;> exact ⟨.other (by simp), ht⟩

theorem attempt_justifies (hp : ascii "$((" <+: s.rest) :
    Justifies source recalls (attempt inner) s := by
  intro h
  have hnote := hs.note (.attempt s.pos)
  have justified : Justifies source recalls (enclosure inner .arithmetic)
      (s.note (.attempt s.pos)) := enclosure_justifies hi hj hnote hp
  have read := enclosure_ends (d := .arithmetic) hi hnote hp
  rw [ends_attempt]
  refine (read.and (justified h)).mono (fun _ _ ht => ht.2) ?_
  rintro e t ⟨hf, he, ht⟩
  split
  · exact ⟨he, ht⟩
  · have hs' : (s.again e t).Fits source recalls := hs.rewind (hf.fits.note (.retry s.pos e))
    exact enclosure_justifies (d := .commandSubstitution) hi hj hs' (prefix_of_expansion hp) ht

theorem expansion_justifies (hp : ascii "$((" <+: s.rest) :
    Justifies source recalls (expansion inner) s := by
  intro h
  cases ho : s.outcome? with
  | some outcome =>
    obtain ⟨table, ht, hm⟩ := outcome?_mem ho
    rw [ends_recall ho]
    cases hres : outcome.result with
    | ok node => exact h.skip _
    | error e => exact ⟨h table ht _ _ e hm hres, h.skip _⟩
  | none =>
    rw [ends_expansion ho]
    refine (attempt_justifies hi hj hs hp h).mono ?_ ?_
    · exact fun node t ht => ht.record (by simp)
    · rintro e t ⟨he, ht⟩
      refine ⟨he, ?_⟩
      split
      · exact ht
      · refine ht.record ?_
        rintro _ ⟨⟩
        exact he

theorem reference_justifies (hd : s.role? = some .dollar) :
    Justifies source recalls (reference inner) s := by
  intro h
  rw [ends_reference hd]
  split
  · rename_i hp
    exact expansion_justifies hi hj hs hp h
  split
  · rename_i hp
    exact enclosure_justifies (d := .commandSubstitution) hi hj hs hp h
  split
  · exact ⟨.other (by simp), h⟩
  · exact h.skip _

theorem wordPart_justifies (hw : inWord s = true) :
    Justifies source recalls (wordPart inner) s := by
  intro h
  obtain ⟨b, bytes, hr, hends⟩ := inWord_cases hw
  apply wordPart_rule hr hends (leaves_justified h)
  · intro hb
    refine enclosure_justifies (d := .doubleQuote) hi hj hs ?_ h
    rw [hr]
    exact opening_of_quote hb
  · intro hb
    exact reference_justifies hi hj hs (Scanner.role?_eq hr hb) h

theorem word_justifies : Justifies source recalls (word inner) s := by
  intro h
  let inv (_ : List Node) (t : Scanner) : Prop := t.Justified source recalls
  have start : inv [] s := h
  have parts : Ends (many inWord (wordPart inner)) s (fun _ t => t.Justified source recalls)
      fun e t => e.Justified source recalls ∧ t.Justified source recalls := by
    refine (many_ends hs start ?_ ?_).imp fun _ _ ht => ht.2.2.2
    · intro t hm hr
      simp [inWord, Scanner.role?, hr] at hm
    · intro nodes t ht _ hjust hm
      have read := wordPart_ends hi ht hm
      refine (read.and (wordPart_justifies hi hj ht hm hjust)).mono ?_ fun _ _ he => he.2
      rintro node u ⟨hu, hujust⟩
      exact ⟨hu.fits, hu.reads.lt_of_singleton, hujust⟩
  simp only [word, ends_bind]
  refine parts.imp ?_
  intro nodes t ht
  cases nodes with
  | nil => exact ⟨.other (by simp), ht⟩
  | cons => exact ht

theorem quotedPart_justifies (hq : Enclosure.quotes.Ready s) :
    Justifies source recalls (quotedPart inner) s := by
  intro h
  obtain ⟨r, hrole, hne⟩ := hq
  obtain ⟨b, bytes, hr, rfl⟩ := Scanner.role?_eq_some hrole
  apply quotedPart_rule hr hne (leaves_justified h)
  intro hb
  exact reference_justifies hi hj hs (Scanner.role?_eq hr hb) h

theorem arithmeticPart_justifies (hq : Enclosure.arithmetic.Ready s) :
    Justifies source recalls (arithmeticPart inner) s := by
  intro h
  obtain ⟨r, hrole, hne⟩ := hq
  obtain ⟨b, bytes, hr, rfl⟩ := Scanner.role?_eq_some hrole
  apply arithmeticPart_rule hr hne (leaves_justified h)
  · intro hb
    exact reference_justifies hi hj hs (Scanner.role?_eq hr hb) h
  · intro hb
    refine enclosure_justifies (d := .arithmeticGroup) hi hj hs ?_ h
    rw [hr]
    exact opening_of_openParen hb

theorem commandPart_justifies (r : Role) : Justifies source recalls (commandPart inner r) s := by
  intro h
  unfold commandPart
  cases r with
  | separator | openParen | closeParen =>
    simp only [operator, ends_bind, ends_enter, ends_get, ends_take]
    split
    · exact ((h.enter .normal).skip _).enter .casePattern
    · exact (h.enter .normal).skip _
  | redirection => exact (h.enter .command).skip _
  | _ =>
    simp only [commandWord, ends_bind, ends_get]
    refine (word_justifies hi hj hs h).imp fun nodes t ht => ?_
    split
    · exact ht.enter _
    · exact ht.enter .command

theorem caseSubject_justifies (b : UInt8) :
    Justifies source recalls (caseSubject inner b) s := by
  intro h
  unfold caseSubject
  cases role b with
  | separator | openParen | closeParen | redirection => exact ⟨.other (by simp), h⟩
  | _ =>
    simp only [ends_bind]
    exact (word_justifies hi hj hs h).imp fun _ _ ht => ht.enter .caseIn

theorem casePart_justifies (b : UInt8) :
    Justifies source recalls (casePart inner b) s := by
  intro h
  unfold casePart
  cases role b with
  | openParen => exact h.skip 1
  | closeParen => exact (h.skip 1).enter .normal
  | separator | redirection => exact ⟨.other (by simp), h⟩
  | _ =>
    simp only [ends_bind]
    refine (word_justifies hi hj hs h).imp fun nodes t ht => ?_
    split
    · exact ht.enter .normal
    · exact ht

theorem scriptPart_justifies (hne : Enclosure.substitution.Ready s)
    (hp : s.Poised source recalls .substitution) :
    Justifies source recalls (scriptPart inner) s := by
  intro h
  obtain ⟨b, bytes, hr⟩ := List.exists_cons_of_ne_nil hne
  have leaf : Leaves (.element .substitution s.state s.state) s
      fun _ t => t.Justified source recalls := leaves_justified h
  simp only [scriptPart, ends_bind, ends_get, hr]
  cases hrole : role b with
  | blank => exact run_ends leaf hr (.blanks (by simp) hrole)
  | hash => exact run_ends leaf hr (.comment hrole)
  | newline =>
    dsimp only
    split
    · exact (h.enter .normal).skip 1
    · exact h.skip 1
  | _ =>
    dsimp only
    cases hst : s.state with
    | normal | command => exact commandPart_justifies hi hj hs _ h
    | caseSubject => exact caseSubject_justifies hi hj hs b h
    | caseIn => exact caseIn_justifies hr (hp rfl hst) h
    | casePattern => exact casePart_justifies hi hj hs b h

theorem part_justifies {form : Enclosure} (hr : form.Ready s)
    (hp : s.Poised source recalls form) : Justifies source recalls (part inner form) s := by
  cases form with
  | quotes => exact quotedPart_justifies hi hj hs hr
  | substitution => exact scriptPart_justifies hi hj hs hr hp
  | arithmetic => exact arithmeticPart_justifies hi hj hs hr

end Routines

theorem deeper_justifies (source : List UInt8) (recalls : Prop) (levels : Nat) :
    InnerJustifies source recalls (deeper levels) := by
  induction levels with
  | zero => rintro _ ⟨⟩
  | succ levels ih =>
    rintro _ ⟨⟩ form s hs hr hp
    exact part_justifies (deeper_obeys source recalls levels) ih hs hr hp

theorem script_justifies (hs : s.Fits source recalls)
    (hp : s.Poised source recalls .substitution) : Justifies source recalls script s := by
  intro h
  let inv (_ : List Node) (t : Scanner) : Prop :=
    t.Justified source recalls ∧ t.Poised source recalls .substitution
  have start : inv [] s := ⟨h, hp⟩
  refine (many_ends hs start ?_ ?_).imp fun _ _ ht => ht.2.2.2.1
  · intro t hm hr
    simp [hr] at hm
  · rintro nodes t ht _ ⟨hjust, hpoised⟩ hm
    have hne : t.rest ≠ [] := by
      intro hr
      simp [hr] at hm
    have justified := scriptPart_justifies (deeper_obeys source recalls nestingLimit)
      (deeper_justifies source recalls nestingLimit) ht hne hpoised hjust
    refine ((element_ends ht hne).and justified).mono ?_ fun _ _ he => he.2
    rintro node u ⟨hu, hujust⟩
    refine ⟨hu.fits, hu.reads.lt_of_singleton, hujust, fun _ hstate => ?_⟩
    have reads := hu.reads
    rw [hstate] at reads
    exact ⟨nestingLimit, t.state, t.pos, node, reads⟩

end Scan

/-- Where lexing misses an `in`, it is awaited. -/
theorem awaited_of_tokenize {e : LexError} {got : String} (h : tokenize source = .error e)
    (hc : e.cause = .expectedIn got) : Awaited source True e.pos := by
  obtain ⟨s, hrun⟩ := error_of_tokenize h
  have poised : (Scanner.start source).Poised source True .substitution := by
    rintro _ ⟨⟩
  have justified : (Scanner.start source).Justified source True := by
    rintro _ ⟨⟩
    simp
  have run := Scan.script_justifies (Scanner.start_fits source) poised justified
  exact (run.of_error hrun).1 got hc

end ShellLex
