import ShellLex.Proofs.Completeness.Reaches
import ShellLex.Proofs.Limit
import ShellLex.Proofs.Retries
/-!
Derivations are followed by scans. Where a derivation reads a `$((` as a command substitution, the
scan has to fail to read it as arithmetic; with that, a routine that keeps no table reads the nodes
of the derivation and goes to where it ends.
-/
namespace ShellLex

/-- The elements of bodies for any number of levels, which are read one level deeper as they are
at this one. Of the `$((` in `denied`, none is arithmetic. -/
structure Readers (source : List UInt8) (denied : Nat → Prop) where
  inner : Nat → Inner
  read : Nat → Enclosure → Scan Node
  inner_succ : ∀ levels, inner (levels + 1) = some (read levels)
  read_part : ∀ {levels form s node stop after}, s.Fits source False → form.Ready s →
    Scan.Reaches source (Scan.part (inner levels) form) s node stop after →
    Scan.Reaches source (read levels form) s node stop after
  fails : ∀ {levels s}, s.Fits source False → ascii "$((" <+: s.rest → denied s.pos →
    Scan.Ends (Scan.enclosure (inner levels) .arithmetic) s (fun _ _ => False)
      fun e t => e.isTooDeep = false ∧ t.Fits source False ∧ t.state = s.state

def Goal.Takes : Goal → (before after : State) → Prop
  | .element .substitution before after, s, t | .body .commandSubstitution before after, s, t
  | .script before after, s, t => s = before ∧ t = after
  | _, s, t => s = t

namespace Reads

variable {source : List UInt8} {recalls : Prop} {levels pos stop : Nat} {nodes : List Node}

theorem expansion_starts (h : Reads source recalls levels .expansion pos nodes stop) :
    ascii "$((" <+: source.drop pos := by
  obtain ⟨node, rfl, hnode⟩ := h.expansion_shape rfl
  cases node with
  | leaf | word => exact hnode.elim
  | enclosed form opening body closing =>
    have hp : opening.pos = pos := (Node.spansAll_singleton.mp h.spans).2.1
    rw [← hp]
    exact hnode

theorem reference_starts (h : Reads source recalls levels .reference pos nodes stop) :
    ∃ b bytes, source.drop pos = b :: bytes ∧ role b = .dollar := by
  have starts (word : List UInt8) (h : 0x24 :: word <+: source.drop pos) :
      ∃ b bytes, source.drop pos = b :: bytes ∧ role b = .dollar := by
    obtain ⟨bytes, hb⟩ := h
    exact ⟨_, _, hb.symm, rfl⟩
  cases h with
  | lexeme h =>
    generalize source.drop pos = bytes at h
    cases h with
    | escape hg => exact hg.elim
    | dollar hb => exact ⟨_, _, rfl, hb⟩
  | refer hg => exact hg.elim
  | substitution _ h => exact starts (ascii "(") h.construct_cases.1
  | expand h => exact starts (ascii "((") h.expansion_starts

theorem part_starts (h : Reads source recalls levels .part pos nodes stop) :
    ∃ b bytes, source.drop pos = b :: bytes ∧ (role b).endsWord = false := by
  cases h with
  | lexeme h =>
    generalize source.drop pos = bytes at h
    cases h with
    | escape _ hb | mark hb => exact ⟨_, _, rfl, by rw [hb]; rfl⟩
    | plain hb =>
      refine ⟨_, _, rfl, ?_⟩
      rw [show role _ = .plain by simpa [isPlain] using hb]
      rfl
  | refer _ h =>
    obtain ⟨b, bytes, hd, hb⟩ := h.reference_starts
    exact ⟨b, bytes, hd, by rw [hb]; rfl⟩
  | quotes h =>
    obtain ⟨bytes, hd⟩ := h.construct_cases.1
    exact ⟨_, _, hd.symm, rfl⟩

theorem parts_start (h : Reads source recalls levels .parts pos nodes stop) (hne : nodes ≠ []) :
    ∃ b bytes, source.drop pos = b :: bytes ∧ (role b).endsWord = false := by
  generalize hg : Goal.parts = goal at h
  induction h with
  | noParts => exact absurd rfl hne
  | @partsSnoc _ _ nodes _ _ _ h hn ih =>
    cases nodes with
    | nil =>
      obtain rfl : _ = _ := h.spans
      exact hn.part_starts
    | cons => exact ih (by simp) hg
  | lexeme h =>
    subst hg
    exact h.lexical.elim
  | refer hg' =>
    subst hg
    exact hg'.elim
  | _ => nomatch hg

theorem word_starts (h : Reads source recalls levels .word pos nodes stop) :
    ∃ b bytes, source.drop pos = b :: bytes ∧ (role b).endsWord = false :=
  h.word_cases.1.parts_start h.word_cases.2.1

end Reads

def Scan.One (source : List UInt8) (scan : Scan Node) (pos : Nat) (before : State)
    (nodes : List Node) (stop : Nat) (after : State) : Prop :=
  ∀ node, nodes = [node] → ∀ s, s.At source pos before → Reaches source scan s node stop after

def Goal.Runs {source : List UInt8} {denied : Nat → Prop} (R : Readers source denied) (levels : Nat)
    (goal : Goal) (pos : Nat) (nodes : List Node) (stop : Nat) : Prop :=
  ∀ before after, goal.Takes before after →
    match goal with
    | .element form _ _ =>
      Scan.One source (Scan.part (R.inner levels) form) pos before nodes stop after
    | .body d _ _ => Scan.Loops source d.goesOn (R.read levels d.form) pos before nodes stop after
    | .script _ _ => Scan.Loops source (!·.rest.isEmpty) (Scan.scriptPart (R.inner levels)) pos
      before nodes stop after
    | .part => Scan.One source (Scan.wordPart (R.inner levels)) pos before nodes stop after
    | .parts =>
      Scan.Loops source Scan.inWord (Scan.wordPart (R.inner levels)) pos before nodes stop after
    | .word => ∀ s, s.At source pos before →
      Scan.Reaches source (Scan.word (R.inner levels)) s nodes stop after
    | .reference => Scan.One source (Scan.reference (R.inner levels)) pos before nodes stop after
    | .expansion => Scan.One source (Scan.expansion (R.inner levels)) pos before nodes stop after
    | .construct d =>
      Scan.One source (Scan.enclosure (R.inner levels) d) pos before nodes stop after

open Scan

variable {source : List UInt8} {denied : Nat → Prop} {R : Readers source denied}
  {levels pos stop : Nat} {goal : Goal} {nodes : List Node} {d : Delimiter}
  {before after state : State} {s : Scanner}

theorem Delimiter.goesOn_congr (hd : d ≠ .commandSubstitution) (state state' : State) :
    d.goesOn (.bare source pos state) = d.goesOn (.bare source pos state') := by
  cases d with
  | commandSubstitution => exact absurd rfl hd
  | _ => rfl

theorem Goal.takes_body (hd : d ≠ .commandSubstitution) (state : State) :
    (Goal.body d before after).Takes state state := by
  cases d with
  | commandSubstitution => exact absurd rfl hd
  | _ => rfl

theorem inBody_reaches (h : (Goal.body d before after).Runs R levels pos nodes stop)
    (hb : d = .commandSubstitution → before = .normal)
    (he : d.goesOn (.bare source stop after) = false) (hs : s.At source pos state) :
    Reaches source (d.inBody (many d.goesOn (R.read levels d.form))) s nodes stop state := by
  have ended {last : State} (hl : d.goesOn (.bare source stop last) = false) (t : Scanner)
      (ht : t.At source stop last) : d.goesOn t = false := by
    rw [← goesOn_bare ht.fits, ht.pos, ht.state]
    exact hl
  by_cases hd : d = .commandSubstitution
  · subst hd
    obtain rfl := hb rfl
    exact reaches_within hs fun t ht => (h .normal after ⟨rfl, rfl⟩).reaches ht (ended he)
  · rw [inBody_of_ne hd]
    rw [Delimiter.goesOn_congr hd after state] at he
    exact (h state state (Goal.takes_body hd state)).reaches hs (ended he)

/-- A body takes its states as its elements do. -/
theorem Goal.takes_snoc {first last : State} (ht : (Goal.body d before after).Takes first last)
    (state : State) : ∃ middle, (Goal.body d before state).Takes first middle ∧
      (Goal.element d.form state after).Takes middle last ∧
      ∀ source pos, d.goesOn (.bare source pos middle) = d.goesOn (.bare source pos state) := by
  cases d with
  | commandSubstitution => exact ⟨state, ⟨ht.1, rfl⟩, ⟨rfl, ht.2⟩, fun _ _ => rfl⟩
  | doubleQuote | arithmetic | arithmeticGroup => exact ⟨first, rfl, ht, fun _ _ => rfl⟩

theorem Lexes.runs {kind : Kind} {size : Nat} (h : Lexes goal (source.drop pos) kind size) :
    goal.Runs R levels pos [.leaf ⟨kind, (source.drop pos).take size, pos⟩] (pos + size) := by
  cases goal with
  | element form before after =>
    cases form with
    | quotes =>
      rintro _ _ rfl _ ⟨⟩ s hs
      exact quoted_lexeme h hs rfl
    | substitution =>
      rintro _ _ ⟨rfl, rfl⟩ _ ⟨⟩ s hs
      exact script_lexeme h hs rfl
    | arithmetic =>
      rintro _ _ rfl _ ⟨⟩ s hs
      exact arithmetic_lexeme h hs rfl
  | part =>
    rintro _ _ rfl _ ⟨⟩ s hs
    exact part_lexeme h hs rfl
  | reference =>
    rintro _ _ rfl _ ⟨⟩ s hs
    exact reference_lexeme h hs rfl
  | word | expansion | construct | body | script | parts => exact h.lexical.elim

theorem refer_runs (hg : goal.Expands) {b : UInt8} {bytes : List UInt8}
    (hd : source.drop pos = b :: bytes) (hb : role b = .dollar)
    (h : Goal.reference.Runs R levels pos nodes stop) : goal.Runs R levels pos nodes stop := by
  cases goal with
  | element form =>
    cases form with
    | quotes =>
      intro before after ht node hn s hs
      simp only [part, quotedPart, reaches_get, role?_at hs hd hb]
      exact h before after ht node hn s hs
    | arithmetic =>
      intro before after ht node hn s hs
      simp only [part, arithmeticPart, reaches_get, hs.rest, hd, hb]
      exact h before after ht node hn s hs
    | substitution => exact hg.elim
  | part =>
    intro before after ht node hn s hs
    simp only [wordPart, reaches_get, role?_at hs hd hb]
    exact h before after ht node hn s hs
  | _ => exact hg.elim

/-- A command substitution that is read from `$((` says so by its text. -/
theorem Reads.retried {recalls : Prop} {node : Node} (hp : ascii "$((" <+: source.drop pos)
    (h : Reads source recalls levels (.construct .commandSubstitution) pos [node] stop) :
    node.Retried ∧ node.pos = pos := by
  have hspans := Node.spansAll_singleton.mp h.spans
  have hb := h.construct_bounds
  refine ⟨?_, hspans.pos_eq⟩
  have hsize : (ascii "$((").length = Delimiter.commandSubstitution.opening.length +
      Delimiter.commandSubstitution.closing.length := by decide
  have htext : ascii "$((" <+: node.text := by
    rw [hspans.text_eq, List.extract_eq_take_drop]
    exact List.prefix_take_iff.mpr ⟨hp, by omega⟩
  obtain ⟨_, opening, body, closing, heq, _⟩ := h.construct_cases
  obtain rfl := List.singleton_inj.mp heq
  exact htext

theorem Node.Spans.drop_ne_nil {node : Node} {start stop : Nat}
    (h : node.Spans source start stop) : source.drop start ≠ [] := by
  have leaf {l : Leaf} (hl : l.Exact source) : source.drop l.pos ≠ [] := by
    intro hd
    have := hl.data
    rw [List.extract_eq_take_drop, hd, List.take_nil] at this
    exact hl.nonempty this
  match node, h with
  | .leaf l, ⟨hl, hp, _⟩ =>
    rw [← hp]
    exact leaf hl
  | .word (node :: nodes), ⟨_, m, hf, _⟩ => exact hf.drop_ne_nil
  | .enclosed _ opening nodes closing, ⟨ho, hp, _⟩ =>
    rw [← hp]
    exact leaf ho

/-- A routine follows every derivation whose command substitutions could not be arithmetic. -/
theorem Reads.runs (R : Readers source denied)
    (h : Reads source False levels goal pos nodes stop)
    (hd : Node.AllIn (fun node => node.Retried → denied node.pos) nodes) :
    goal.Runs R levels pos nodes stop := by
  induction h with
  | lexeme h => exact h.runs
  | refer hg h ih =>
    obtain ⟨b, bytes, hrest, hb⟩ := h.reference_starts
    exact refer_runs hg hrest hb (ih hd)
  | quotes h ih =>
    obtain ⟨bytes, hrest⟩ := h.construct_cases.1
    intro before after ht node hn s hs
    simp only [wordPart, reaches_get, role?_at hs hrest.symm rfl]
    exact ih hd before after ht node hn s hs
  | group h ih =>
    obtain ⟨bytes, hrest⟩ := h.construct_cases.1
    intro before after ht node hn s hs
    simp only [part, arithmeticPart, reaches_get, hs.rest, ← hrest]
    exact ih hd before after ht node hn s hs
  | substitution hp h ih =>
    have hq : ascii "$(" <+: _ := h.construct_cases.1
    obtain ⟨bytes, hrest⟩ := hq
    intro before after ht node hn s hs
    rw [Scan.Reaches, Scan.ends_reference (role?_at hs hrest.symm rfl), hs.rest, if_neg hp,
      if_pos ⟨bytes, hrest⟩]
    exact ih hd before after ht node hn s hs
  | expand h ih =>
    obtain ⟨bytes, hrest⟩ := h.expansion_starts
    intro before after ht node hn s hs
    rw [Scan.Reaches, Scan.ends_reference (role?_at hs hrest.symm rfl), hs.rest,
      if_pos ⟨bytes, hrest⟩]
    exact ih hd before after ht node hn s hs
  | arithmetic h ih =>
    intro before after ht node hn s hs
    exact expansion_reaches hs fun t ht' => ih hd before after ht node hn t ht'
  | retry hp h ih =>
    rintro before after ht node rfl s hs
    obtain ⟨hr, hpos⟩ := h.retried hp
    have hdenied := hd.1.self hr
    rw [hpos] at hdenied
    refine retry_reaches hs ?_ fun t ht' => ih hd before after ht node rfl t ht'
    intro t ht'
    exact R.fails ht'.fits (by rw [ht'.rest]; exact hp) (by rw [ht'.pos]; exact hdenied)
  | recalled hr => exact hr.elim
  | construct ho hb _ he hc ih =>
    rintro before after rfl _ ⟨⟩ s hs
    rw [R.inner_succ]
    refine enclosure_reaches ho (fun t ht => ?_) hc hs
    exact inBody_reaches (ih hd.1.2) hb he ht
  | @emptyBody _ d =>
    intro before after ht
    cases d with
    | commandSubstitution =>
      obtain ⟨rfl, rfl⟩ := ht
      exact loops_nil
    | doubleQuote | arithmetic | arithmeticGroup =>
      obtain rfl : before = after := ht
      exact loops_nil
  | @bodySnoc _ d _ state _ _ _ middle _ _ h hm hn ih ihn =>
    rw [Node.allIn_append] at hd
    intro first last ht
    obtain ⟨between, hfirst, hlast, hgo⟩ := Goal.takes_snoc ht state
    have more (t : Scanner) (ht : t.At source middle between) : d.goesOn t = true := by
      rw [← goesOn_bare ht.fits, ht.pos, ht.state, hgo]
      exact hm
    refine (ih hd.1 first between hfirst).snoc hn.lt_of_singleton more fun t ht => ?_
    exact R.read_part ht.fits (ready_of_goesOn (more t ht)) (ihn hd.2 _ _ hlast _ rfl t ht)
  | emptyScript =>
    rintro before after ⟨rfl, rfl⟩
    exact loops_nil
  | @scriptSnoc _ _ state _ _ _ middle _ _ h hn ih ihn =>
    rw [Node.allIn_append] at hd
    rintro first last ⟨rfl, rfl⟩
    refine (ih hd.1 _ _ ⟨rfl, rfl⟩).snoc hn.lt_of_singleton (fun t ht => ?_) fun t ht => ?_
    · have hne := (Node.spansAll_singleton.mp hn.spans).drop_ne_nil
      rw [← ht.rest] at hne
      simpa using hne
    · exact ihn hd.2 _ _ ⟨rfl, rfl⟩ _ rfl t ht
  | noParts =>
    rintro before after rfl
    exact loops_nil
  | partsSnoc h hn ih ihn =>
    rw [Node.allIn_append] at hd
    rintro before after rfl
    obtain ⟨b, bytes, hrest, hb⟩ := hn.part_starts
    refine (ih hd.1 _ _ rfl).snoc hn.lt_of_singleton (fun t ht => ?_) fun t ht => ?_
    · exact inWord_cons (ht.rest.trans hrest) hb
    · exact ihn hd.2 _ _ rfl _ rfl t ht
  | word _ hne hstop ih =>
    rintro before after rfl s hs
    exact word_reaches (ih hd before before rfl) hne hstop hs
  | command hc hr h ih =>
    rintro before after ⟨rfl, rfl⟩ _ ⟨⟩ s hs
    obtain ⟨b, bytes, hrest, hb⟩ := h.word_starts
    rw [part, script_word hs hrest hb]
    have read := command_reaches hr hs (ih hd.1.2 before before rfl s hs)
    cases before with
    | normal | command => exact read
    | caseSubject | caseIn | casePattern => exact absurd hc (by decide)
  | reserved hr h ih =>
    rintro before after ⟨rfl, rfl⟩ _ ⟨⟩ s hs
    obtain ⟨b, bytes, hrest, hb⟩ := h.word_starts
    obtain ⟨l, kind, rfl, _, _, rfl⟩ := reserved?_eq_some hr
    rw [part, script_word hs hrest hb]
    exact reserved_reaches hr hs (ih ⟨False.elim, trivial⟩ .normal .normal rfl s hs)
  | subject h ih =>
    rintro before after ⟨rfl, rfl⟩ _ ⟨⟩ s hs
    obtain ⟨b, bytes, hrest, hb⟩ := h.word_starts
    rw [part, script_word hs hrest hb]
    refine (ih hd.1.2 .caseSubject .caseSubject rfl s hs).bind fun t ht => ?_
    exact reaches_last ht .caseIn _
  | esac he h ih =>
    rintro before after ⟨rfl, rfl⟩ _ ⟨⟩ s hs
    obtain ⟨b, bytes, hrest, hb⟩ := h.word_starts
    obtain ⟨rfl, _⟩ := Node.onlyLeaf?_eq_some (Option.filter_eq_some_iff.mp he).1
    rw [part, script_word hs hrest hb]
    refine (ih ⟨False.elim, trivial⟩ .casePattern .casePattern rfl s hs).bind fun t ht => ?_
    rw [he]
    exact reaches_last ht .normal _
  | pattern he h ih =>
    rintro before after ⟨rfl, rfl⟩ _ ⟨⟩ s hs
    obtain ⟨b, bytes, hrest, hb⟩ := h.word_starts
    rw [part, script_word hs hrest hb]
    refine (ih hd.1.2 .casePattern .casePattern rfl s hs).bind fun t ht => ?_
    rw [he]
    exact reaches_pure ht _

def Readers.limited (source : List UInt8) : Readers source fun _ => False where
  inner := deeper
  read levels := part (deeper levels)
  inner_succ _ := rfl
  read_part _ _ h := h
  fails _ _ h := h.elim

def IsArithmetic (source : List UInt8) (pos : Nat) : Prop :=
  ∃ node t, enclosure (some unlimited) .arithmetic (.bare source pos .normal) = .ok node t

section Arithmetic

variable {left : Inner} {t : Scanner}

theorem enclosure_follows {related : State → State → Prop}
    (hi : left.Alike source False (some unlimited)) (h : Beside source False related s t) :
    Follows source False related (enclosure left d s) (enclosure (some unlimited) d t) :=
  follows_of_match Node.move_id (Pairing.enclosure_alike hi.deeper _ _ h)

theorem beside_bare (hs : s.Fits source False) :
    Beside source False (fun _ _ => True) s (.bare source s.pos .normal) :=
  ⟨hs.sound, ⟨rfl, hs.within, fun _ h => nomatch h⟩, rfl, trivial⟩

theorem not_isArithmetic {e : LexError} (hi : left.Alike source False (some unlimited))
    (hs : s.Fits source False) (hrun : enclosure left .arithmetic s = .error e t)
    (he : e.isTooDeep = false) : ¬ IsArithmetic source s.pos := by
  rintro ⟨node, u, hu⟩
  have follow := enclosure_follows (d := .arithmetic) hi (beside_bare hs)
  rw [hrun, hu] at follow
  cases follow with
  | tooDeep hd => simp [he] at hd

theorem isArithmetic {node : Node} (hi : left.Alike source False (some unlimited))
    (hs : s.Fits source False) (hrun : enclosure left .arithmetic s = .ok node t) :
    IsArithmetic source s.pos := by
  have follow := enclosure_follows (d := .arithmetic) hi (beside_bare hs)
  rw [hrun] at follow
  unfold IsArithmetic
  generalize enclosure (some unlimited) .arithmetic _ = r at follow ⊢
  cases follow with
  | ok => exact ⟨_, _, rfl⟩

end Arithmetic

theorem unlimited_fails (hs : s.Fits source False) (hp : ascii "$((" <+: s.rest)
    (hd : ¬ IsArithmetic source s.pos) :
    Ends (enclosure (some unlimited) .arithmetic) s (fun _ _ => False)
      fun e t => e.isTooDeep = false ∧ t.Fits source False ∧ t.state = s.state := by
  -- as many levels as bytes are enough, and then there is no difference
  have run := enclosure_ends (d := .arithmetic) (deeper_obeys source False s.rest.length) hs hp
  have alike := (deeper_unlimited source s.rest.length).alike
  have follow := enclosure_follows (d := .arithmetic) alike (beside_self hs)
  unfold Ends at run ⊢
  cases hrun : enclosure (deeper s.rest.length) .arithmetic s with
  | ok node t => exact absurd (isArithmetic alike hs hrun) hd
  | error e t =>
    rw [hrun] at run follow
    have he : e.isTooDeep = false := by
      by_cases hdeep : e.isTooDeep
      · exact absurd (run.levels hdeep) (Nat.lt_irrefl _)
      · simpa using hdeep
    generalize enclosure (some unlimited) .arithmetic s = r at follow ⊢
    cases follow with
    | error h => exact ⟨he, h.afresh, h.state_eq.trans run.state⟩
    | tooDeep hdeep => simp [he] at hdeep

theorem unlimited_reaches {form : Enclosure} {node : Node} (hs : s.Fits source False)
    (hr : form.Ready s) (h : Reaches source (part (some unlimited) form) s node stop after) :
    Reaches source (unlimited form) s node stop after := by
  have same := unlimited_same hs hr
  have run : Ends (unlimited form) s (ReadingElement source False s.rest.length form s) _ :=
    part_deeper_ends s.rest.length hs hr
  unfold Reaches Ends at h ⊢
  unfold Ends at run
  generalize unlimited form s = l at same run ⊢
  generalize part (some unlimited) form s = r at same h
  cases same with
  | ok hp hst =>
    obtain ⟨rfl, ht⟩ := h
    exact ⟨rfl, run.fits, hp.trans ht.pos, hst.trans ht.state⟩
  | error => exact h.elim

def Readers.unlimited (source : List UInt8) : Readers source (¬ IsArithmetic source ·) where
  inner _ := some Scan.unlimited
  read _ := Scan.unlimited
  inner_succ _ := rfl
  read_part hs hr h := unlimited_reaches hs hr h
  fails hs hp hd := unlimited_fails hs hp hd

theorem Reads.script_reaches (R : Readers source denied)
    (h : Reads source False levels (.script .normal after) 0 nodes source.length)
    (hd : Node.AllIn (fun node => node.Retried → denied node.pos) nodes) :
    Reaches source (many (!·.rest.isEmpty) (scriptPart (R.inner levels)))
      (.bare source 0 .normal) nodes source.length after := by
  have hs : (Scanner.bare source 0 .normal).At source 0 .normal :=
    ⟨⟨rfl, Nat.zero_le _, fun _ h => nomatch h⟩, rfl, rfl⟩
  refine (h.runs R hd .normal after ⟨rfl, rfl⟩).reaches hs fun t ht => ?_
  simp [ht.rest]

/-- What is derived and reads no `$((` again is what the lexer reads. -/
theorem script_of_reads
    (h : Reads source False nestingLimit (.script .normal after) 0 nodes source.length)
    (hd : Node.AllIn (¬ Node.Retried ·) nodes) :
    ∃ s, script (Scanner.start source) = .ok nodes s ∧ s.state = after := by
  obtain ⟨t, hrun, ht⟩ := (h.script_reaches (.limited source) hd).run
  have hscript : script { Scanner.start source with outcomes := none } = .ok nodes t := hrun
  rw [← ht.state]
  exact script_of_afresh hscript

theorem tokenize_of_reads
    (h : Reads source False nestingLimit (.script .normal after) 0 nodes source.length)
    (hd : Node.AllIn (¬ Node.Retried ·) nodes) : tokenize source = .ok nodes := by
  obtain ⟨s, hs, _⟩ := script_of_reads h hd
  rw [tokenize, hs]

/-- What is derived is what the lexer reads unless it runs out of levels, if no `$((` that is a
command substitution there can be arithmetic. -/
theorem tokenize_of_denied
    (h : Reads source False levels (.script .normal after) 0 nodes source.length)
    (hd : Node.AllIn (fun node => node.Retried → ¬ IsArithmetic source node.pos) nodes) :
    tokenize source = .ok nodes ∨ ∃ e, tokenize source = .error e ∧ e.isTooDeep := by
  obtain ⟨t, hrun, _⟩ := (h.script_reaches (.unlimited source) hd).run
  have hs : (Scanner.start source).Sound source True := Lexer.Reachable.start.sound
  have follow := script_alike source True _ _ ⟨hs, hs.fits.forget, rfl, rfl⟩
  have hscript : many (!·.rest.isEmpty) (scriptPart (some unlimited))
      { Scanner.start source with outcomes := none } = .ok nodes t := hrun
  rw [hscript] at follow
  unfold tokenize
  generalize script (Scanner.start source) = l at follow ⊢
  cases follow with
  | ok => exact Or.inl rfl
  | tooDeep hdeep _ => exact Or.inr ⟨_, rfl, hdeep⟩

/-- A source that is one construct is a script of one word. -/
theorem Reads.script_of_part {node : Node} (hn : ∀ l, node ≠ .leaf l)
    (h : Reads source False levels .part 0 [node] source.length) :
    Reads source False levels (.script .normal .command) 0 [.word [node]] source.length := by
  have hreserved : reserved? [node] = none := by
    cases node with
    | leaf l => exact absurd rfl (hn l)
    | word | enclosed => rfl
  have hend : inWord (.bare source source.length .normal) = false := by
    simp [inWord, Scanner.role?, Scanner.bare]
  have hword : Reads source False levels .word 0 [node] source.length :=
    .word (.partsSnoc .noParts h) (List.cons_ne_nil _ _) hend
  exact .scriptSnoc .emptyScript (.command rfl (fun _ => hreserved) hword)

end ShellLex
