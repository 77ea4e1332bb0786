import ShellLex.Lexer
import ShellLex.Proofs.Reading
/-!
What holds along every scan. A passage says of two scanners that a scan went from one to the other
and read some nodes, or failed; if it is closed under the steps that scans are made of, it holds of
each routine. What becomes of the table is up to the passage, and so is what a `$((` may be read as.
-/
namespace ShellLex

namespace Scanner

def held? (s : Scanner) (pos : Nat) : Option Outcome := s.outcomes.bind (·.lookup pos)

theorem held?_congr {s t : Scanner} (h : t.outcomes = s.outcomes) (pos : Nat) :
    t.held? pos = s.held? pos := by
  rw [held?, held?, h]

theorem held?_record_of_ne {s : Scanner} {pos at_ : Nat} {outcome : Outcome} (h : pos ≠ at_) :
    (s.record at_ outcome).held? pos = s.held? pos := by
  have hbeq : (pos == at_) = false := by simpa using h
  cases ho : s.outcomes with
  | none => simp [held?, record, ho]
  | some table => simp [held?, record, ho, List.lookup_cons, hbeq]

theorem held?_record_self {s : Scanner} (pos : Nat) (outcome : Outcome)
    (h : s.outcomes.isSome) : (s.record pos outcome).held? pos = some outcome := by
  obtain ⟨table, ht⟩ := Option.isSome_iff_exists.mp h
  simp [held?, record, ht]

end Scanner

def Delimiter.enclosing (d : Delimiter) (s : Scanner) (nodes : List Node) (t : Scanner) : Node :=
  .enclosed d.form ⟨.quote, s.rest.take d.opening.length, s.pos⟩ nodes
    ⟨.quote, t.rest.take d.closing.length, t.pos⟩

structure Passage where
  /-- Between the scanners `nodes` were read, with `levels` more constructs to be opened. -/
  Passes : (levels : Nat) → (s : Scanner) → (nodes : List Node) → (t : Scanner) → Prop
  /-- Between the scanners a scan failed. -/
  Fails : (s t : Scanner) → Prop
  /-- The `$((` at `s` was no arithmetic for `e`, which showed at `t`. -/
  Denied : (s : Scanner) → (e : LexError) → (t : Scanner) → Prop
  nil {levels s} : Passes levels s [] s
  append {levels s nodes t nodes' u} (h : Passes levels s nodes t) (k : Passes levels t nodes' u) :
    Passes levels s (nodes ++ nodes') u
  enter {levels s} (state) : Passes levels s [] (s.enter state)
  attempted {levels s} : Passes levels s [] (s.note (.attempt s.pos))
  take {levels s} (kind size) :
    Passes levels s [.leaf ⟨kind, s.rest.take size, s.pos⟩] (s.skip size)
  rekind {levels s l t} (kind) (h : Passes levels s [.leaf l] t) :
    Passes levels s [.leaf { l with kind := kind }] t
  ofWord {levels s nodes t} (h : Passes levels s nodes t) : Passes levels s [.word nodes] t
  enclosed {levels s nodes t} (d : Delimiter) (ho : d.opening <+: s.rest)
    (hd : d = .commandSubstitution → ¬ ascii "$((" <+: s.rest)
    (h : Passes levels (s.skip d.opening.length) nodes t) (hc : d.closing <+: t.rest) :
    Passes (levels + 1) s [d.enclosing s nodes t] (t.skip d.closing.length)
  retried {levels s e t nodes u} (hp : ascii "$((" <+: s.rest) (hf : Fails s t)
    (hd : Denied s e t) (h : Passes levels ((s.again e t).skip 2) nodes u)
    (hc : Delimiter.commandSubstitution.closing <+: u.rest) :
    Passes (levels + 1) s [Delimiter.commandSubstitution.enclosing s nodes u] (u.skip 1)
  retry_fails {s e t u} (hf : Fails s t) (h : Fails (s.again e t) u) : Fails s u
  recalled {levels s outcome node} (ho : s.outcome? = some outcome)
    (hn : outcome.result = .ok node) : Passes levels s [node] (s.skip (outcome.stop - s.pos))
  recalled_fails {s outcome} (ho : s.outcome? = some outcome) :
    Fails s (s.skip (outcome.stop - s.pos))
  kept {levels s node t} (ho : s.outcome? = none) (hn : node.text ≠ [])
    (h : Passes levels s [node] t) :
    Passes levels s [node] (t.record s.pos ⟨.ok node, t.pos⟩)
  kept_fails {s e t} (ho : s.outcome? = none) (h : Fails s t) :
    Fails s (t.record s.pos ⟨.error e, t.pos⟩)
  fail {s} : Fails s s
  left {s t} (state) (h : Fails s t) : Fails s (t.enter state)
  fails {levels s nodes t u} (h : Passes levels s nodes t) (k : Fails t u) : Fails s u

namespace Passage

open Scan

variable {P : Passage} {levels : Nat} {s t u : Scanner} {nodes : List Node}

theorem entered (state : State) (h : P.Passes levels s nodes t) :
    P.Passes levels s nodes (t.enter state) := by
  have h' := P.append h (P.enter state)
  rwa [List.append_nil] at h'

theorem after_enter {state : State} (h : P.Passes levels (s.enter state) nodes t) :
    P.Passes levels s nodes t := P.append (P.enter state) h

theorem fails_enter {state : State} (h : P.Fails (s.enter state) t) : P.Fails s t := by
  have hs : P.Passes 0 s [] (s.enter state) := P.enter state
  exact P.fails hs h

theorem leave_fails (state : State) (h : P.Fails s t) : P.Fails s (t.enter state) :=
  P.left state h

def Along (P : Passage) (levels : Nat) (scan : Scan Node) (s : Scanner) : Prop :=
  Ends scan s (fun node t => P.Passes levels s [node] t) (fun _ t => P.Fails s t)

def AlongAll (P : Passage) (levels : Nat) (scan : Scan (List Node)) (s : Scanner) : Prop :=
  Ends scan s (fun nodes t => P.Passes levels s nodes t) (fun _ t => P.Fails s t)

def Inside (P : Passage) (levels : Nat) (inner : Inner) : Prop :=
  ∀ read, inner = some read → ∃ below, levels = below + 1 ∧ ∀ form s, P.Along below (read form) s

/-- Arithmetic that fails denies its `$((`, unless it ran out of levels. -/
def Denies (P : Passage) (inner : Inner) : Prop :=
  ∀ s e t, enclosure inner .arithmetic (s.note (.attempt s.pos)) = .error e t →
    e.isTooDeep = false → P.Denied s e t

theorem takeWhile_along (accept : UInt8 → Bool) (kind : Kind) (s : Scanner) :
    P.Along levels (do return .leaf (← takeWhile accept kind)) s := by
  simp only [Along, takeWhile, ends_bind, ends_get]
  split
  · exact P.fail
  · exact P.take kind _

theorem many_along {more : Scanner → Bool} {read : Scan Node}
    (h : ∀ s, P.Along levels read s) (s : Scanner) : P.AlongAll levels (many more read) s := by
  simp only [AlongAll, many, ends_bind, ends_get]
  let inv (_ : Nat) (latest : List Node) (t : Scanner) : Prop := P.Passes levels s latest.reverse t
  refine (ends_manyWithin inv ?_ ?_ s.rest [] s P.nil).imp ?_
  · intro budget latest t ht _
    refine (h t).mono ?_ ?_
    · intro node u hu
      have hnext := P.append ht hu
      rwa [← List.reverse_cons] at hnext
    · intro e u hu
      exact P.fails ht hu
  · intro latest t ht _
    exact P.fails ht P.fail
  · rintro nodes t ⟨_, _, ht⟩
    rwa [← List.reverse_reverse nodes]

section Routines

variable {inner : Inner} {d : Delimiter}

theorem inBody_along {scan : Scan (List Node)} (h : ∀ s, P.AlongAll levels scan s) (s : Scanner) :
    P.AlongAll levels (d.inBody scan) s := by
  cases d with
  | commandSubstitution =>
    rw [AlongAll, Delimiter.inBody, ends_within]
    refine (h _).mono ?_ ?_
    · intro nodes t ht
      exact entered s.state (after_enter ht)
    · intro e t ht
      exact leave_fails s.state (fails_enter ht)
  | doubleQuote | arithmetic | arithmeticGroup => exact h s

/-- What is shown of a construct whose body the passage holds of, and of failures in it. -/
theorem enclosure_ends {ok : Node → Scanner → Prop} {bad : Scanner → Prop}
    (hi : P.Inside levels inner) (hg : d = .arithmeticGroup → d.opening <+: s.rest)
    (hok : ∀ below nodes t, levels = below + 1 → d.opening <+: s.rest →
      P.Passes below (s.skip d.opening.length) nodes t → d.closing <+: t.rest →
      ok (d.enclosing s nodes t) (t.skip d.closing.length))
    (hbad : ∀ t, P.Fails s t → bad t) : Ends (enclosure inner d) s ok fun _ t => bad t := by
  have hopen : P.Passes 0 s [.leaf _] (s.skip d.opening.length) := P.take .quote _
  simp only [enclosure, ends_bind, ends_get, ends_opened]
  split
  · rename_i hopens
    have ho : d.opening <+: s.rest := hopens.elim hg id
    cases inner with
    | none => exact hbad _ (P.fails hopen P.fail)
    | some read =>
      obtain ⟨below, hbelow, hread⟩ := hi read rfl
      simp only [ends_bind]
      refine (inBody_along (many_along (hread d.form)) _).mono ?_ ?_
      · intro nodes t ht
        have stuck : P.Fails s t := P.fails hopen (P.fails ht P.fail)
        rw [ends_closed]
        split
        · rename_i hc
          exact hok below nodes t hbelow ho ht hc
        · split <;> exact hbad t stuck
      · intro e t ht
        exact hbad _ (P.fails hopen ht)
  · exact hbad _ P.fail

theorem enclosure_along (hi : P.Inside levels inner)
    (hg : d = .arithmeticGroup → d.opening <+: s.rest)
    (hd : d = .commandSubstitution → ¬ ascii "$((" <+: s.rest) :
    P.Along levels (enclosure inner d) s := by
  refine enclosure_ends hi hg ?_ fun t ht => ht
  rintro below nodes t rfl ho ht hc
  exact P.enclosed d ho hd ht hc

theorem enclosing_text_ne_nil {t : Scanner} (ho : d.opening <+: s.rest) :
    (d.enclosing s nodes t).text ≠ [] := by
  have hne : d.opening ≠ [] := by cases d <;> decide
  rw [Delimiter.enclosing, Node.text, ← List.prefix_iff_eq_take.mp ho]
  simp [hne]

theorem attempt_along (hi : P.Inside levels inner) (hd : P.Denies inner)
    (hp : ascii "$((" <+: s.rest) :
    Ends (attempt inner) s (fun node t => P.Passes levels s [node] t ∧ node.text ≠ [])
      (fun _ t => P.Fails s t) := by
  have first : Ends (enclosure inner .arithmetic) (s.note (.attempt s.pos))
      (fun node t => P.Passes levels s [node] t ∧ node.text ≠ []) (fun _ t => P.Fails s t) := by
    have hnote : P.Passes levels s [] (s.note (.attempt s.pos)) := P.attempted
    refine enclosure_ends hi nofun ?_ fun t ht => P.fails hnote ht
    rintro below nodes t rfl ho ht hc
    exact ⟨P.append hnote (P.enclosed _ ho nofun ht hc), enclosing_text_ne_nil ho⟩
  rw [ends_attempt]
  refine (first.and ends_self).mono (fun _ _ h => h.1) ?_
  rintro e t ⟨ht, hrun⟩
  by_cases hdeep : e.isTooDeep
  · rw [if_pos hdeep]
    exact ht
  · rw [if_neg hdeep]
    have denied := hd s e t hrun (by simpa using hdeep)
    refine enclosure_ends hi nofun ?_ fun u hu => P.retry_fails ht hu
    rintro below nodes u rfl ho hu hc
    exact ⟨P.retried hp ht denied hu hc, enclosing_text_ne_nil ho⟩

theorem expansion_along (hi : P.Inside levels inner) (hd : P.Denies inner)
    (hp : ascii "$((" <+: s.rest) : P.Along levels (expansion inner) s := by
  unfold Along
  cases ho : s.outcome? with
  | some outcome =>
    rw [ends_recall ho]
    cases hres : outcome.result with
    | ok node => exact P.recalled ho hres
    | error e => exact P.recalled_fails ho
  | none =>
    rw [ends_expansion ho]
    refine (attempt_along hi hd hp).mono ?_ ?_
    · rintro node t ⟨ht, hn⟩
      exact P.kept ho hn ht
    · intro e t ht
      split
      · exact ht
      · exact P.kept_fails ho ht

theorem reference_along (hi : P.Inside levels inner) (hd : P.Denies inner) (s : Scanner) :
    P.Along levels (reference inner) s := by
  unfold Along
  by_cases hdollar : s.role? = some .dollar
  · rw [ends_reference hdollar]
    split
    · rename_i hp
      exact expansion_along hi hd hp
    rename_i hp
    split
    · exact enclosure_along hi nofun fun _ => hp
    split
    · exact P.fail
    · exact P.take .variable _
  · rw [ends_reference_elsewhere hdollar]
    exact P.fail

theorem escape_along (s : Scanner) : P.Along levels escape s := P.take .escaped _

theorem wordPart_along (hi : P.Inside levels inner) (hd : P.Denies inner) (s : Scanner) :
    P.Along levels (wordPart inner) s := by
  simp only [Along, wordPart, ends_bind, ends_get]
  split
  · exact P.take .term 1
  · exact escape_along s
  · exact enclosure_along hi (by simp) (by simp)
  · exact reference_along hi hd s
  · exact takeWhile_along isPlain .term s

theorem word_along (hi : P.Inside levels inner) (hd : P.Denies inner) (s : Scanner) :
    P.AlongAll levels (word inner) s := by
  simp only [AlongAll, word, ends_bind]
  refine (many_along (wordPart_along hi hd) s).imp ?_
  intro nodes t h
  cases nodes with
  | nil => exact P.fails h P.fail
  | cons node nodes => exact h

theorem quotedPart_along (hi : P.Inside levels inner) (hd : P.Denies inner) (s : Scanner) :
    P.Along levels (quotedPart inner) s := by
  simp only [Along, quotedPart, ends_bind, ends_get]
  split
  · exact escape_along s
  · exact reference_along hi hd s
  · exact takeWhile_along isQuotable .term s

theorem arithmeticPart_along (hi : P.Inside levels inner) (hd : P.Denies inner) (s : Scanner) :
    P.Along levels (arithmeticPart inner) s := by
  simp only [Along, arithmeticPart, ends_bind, ends_get]
  split
  · exact P.fail
  rename_i b bytes hr
  split
  · exact takeWhile_along isBlank .space s
  · exact P.take .newLine 1
  · exact escape_along s
  · exact reference_along hi hd s
  · rename_i hb
    refine enclosure_along hi (fun _ => ?_) (by simp)
    rw [hr]
    exact opening_of_openParen hb
  split
  · exact P.take .variable _
  split
  · exact takeWhile_along isNameByte .variable s
  split
  · exact P.take .term _
  · exact P.take .unknown 1

theorem unexpected_along (b : UInt8) (s : Scanner) : P.Along levels (unexpected b) s := P.fail

theorem commandWord_along (hi : P.Inside levels inner) (hd : P.Denies inner) (s : Scanner) :
    P.Along levels (commandWord inner) s := by
  simp only [Along, commandWord, ends_bind, ends_get]
  refine (word_along hi hd s).imp ?_
  intro nodes t h
  split
  · rename_i leaf next hr
    have hres : reserved? nodes = some (leaf, next) := by
      split at hr
      · exact hr
      · cases hr
    obtain ⟨l, kind, rfl, _, _, rfl⟩ := reserved?_eq_some hres
    exact entered next (P.rekind kind h)
  · exact entered .command (P.ofWord h)

theorem operator_along (levels : Nat) (s : Scanner) :
    Ends operator s (fun leaf t => P.Passes levels s [.leaf leaf] t) fun _ t => P.Fails s t :=
  P.take .operator _

theorem commandPart_along (hi : P.Inside levels inner) (hd : P.Denies inner) (r : Role)
    (s : Scanner) : P.Along levels (commandPart inner r) s := by
  unfold commandPart
  cases r with
  | separator | openParen | closeParen =>
    simp only [Along, ends_bind, ends_enter]
    refine (operator_along levels (s.enter .normal)).mono ?_ fun e t h => fails_enter h
    intro leaf t h
    split
    · exact entered .casePattern (after_enter h)
    · exact after_enter h
  | redirection =>
    simp only [Along, ends_bind, ends_enter]
    exact (operator_along levels (s.enter .command)).mono (fun leaf t h => after_enter h)
      fun e t h => fails_enter h
  | _ => exact commandWord_along hi hd s

theorem caseSubject_along (hi : P.Inside levels inner) (hd : P.Denies inner) (b : UInt8)
    (s : Scanner) : P.Along levels (caseSubject inner b) s := by
  unfold caseSubject
  cases role b with
  | separator | openParen | closeParen | redirection => exact unexpected_along b s
  | _ =>
    simp only [Along, ends_bind]
    exact (word_along hi hd s).imp fun nodes t h => entered .caseIn (P.ofWord h)

theorem caseIn_along (b : UInt8) (s : Scanner) : P.Along levels (caseIn b) s := by
  unfold caseIn
  split
  · exact unexpected_along b s
  · have run : P.Along levels (do return .leaf (← takeWhile isPlain .keyword)) s :=
      takeWhile_along isPlain .keyword s
    simp only [Along, ends_bind, ends_get, ends_pure] at run ⊢
    refine run.imp ?_
    intro leaf t h
    split
    · exact entered .casePattern h
    · exact P.fails h P.fail

theorem casePart_along (hi : P.Inside levels inner) (hd : P.Denies inner) (b : UInt8)
    (s : Scanner) : P.Along levels (casePart inner b) s := by
  unfold casePart
  cases role b with
  | openParen => exact P.take .operator 1
  | closeParen => exact entered .normal (P.take .operator 1)
  | separator | redirection => exact unexpected_along b s
  | _ =>
    simp only [Along, ends_bind]
    refine (word_along hi hd s).imp ?_
    intro nodes t h
    split
    · rename_i leaf he
      obtain ⟨rfl, _⟩ := Node.onlyLeaf?_eq_some (Option.filter_eq_some_iff.mp he).1
      exact entered .normal (P.rekind .keyword h)
    · exact P.ofWord h

theorem scriptPart_along (hi : P.Inside levels inner) (hd : P.Denies inner) (s : Scanner) :
    P.Along levels (scriptPart inner) s := by
  unfold Along
  simp only [scriptPart, ends_bind, ends_get]
  split
  · exact P.fail
  rename_i b bytes hr
  split
  · exact takeWhile_along isBlank .space s
  · exact takeWhile_along (role · != .newline) .comment s
  · split
    · exact after_enter (P.take .newLine 1)
    · exact P.take .newLine 1
  split
  · exact commandPart_along hi hd _ s
  · exact commandPart_along hi hd _ s
  · exact caseSubject_along hi hd b s
  · exact caseIn_along b s
  · exact casePart_along hi hd b s

theorem part_along (hi : P.Inside levels inner) (hd : P.Denies inner) (form : Enclosure)
    (s : Scanner) : P.Along levels (part inner form) s := by
  cases form with
  | quotes => exact quotedPart_along hi hd s
  | substitution => exact scriptPart_along hi hd s
  | arithmetic => exact arithmeticPart_along hi hd s

end Routines

theorem deeper_inside (hd : ∀ levels, P.Denies (deeper levels)) (levels : Nat) :
    P.Inside levels (deeper levels) := by
  induction levels with
  | zero => nofun
  | succ levels ih =>
    rintro _ ⟨⟩
    exact ⟨levels, rfl, part_along ih (hd levels)⟩

theorem element_along (hd : ∀ levels, P.Denies (deeper levels)) (s : Scanner) :
    P.Along nestingLimit element s :=
  scriptPart_along (deeper_inside hd nestingLimit) (hd nestingLimit) s

theorem script_along (hd : ∀ levels, P.Denies (deeper levels)) (s : Scanner) :
    P.AlongAll nestingLimit script s :=
  many_along (element_along hd) s

end Passage

end ShellLex
