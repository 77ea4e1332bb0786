import ShellLex.Proofs.Reading
/-!
The elements of words, quotes, arithmetic and scripts, and the induction that ties them together:
what is read one level deeper obeys the grammar, so what is read at this level does.
-/
namespace ShellLex.Scan

variable {source : List UInt8} {recalls : Prop} {levels : Nat} {s : Scanner} {inner : Inner}

def Leaves (goal : Goal) (s : Scanner) (ok : Node → Scanner → Prop) : Prop :=
  ∀ kind size, Lexes goal s.rest kind size →
    ok (.leaf ⟨kind, s.rest.take size, s.pos⟩) (s.skip size)

section Rules

variable {goal : Goal} {b : UInt8} {bytes : List UInt8} {kind : Kind}
  {ok : Node → Scanner → Prop} {bad : LexError → Scanner → Prop}

theorem leaf_ends {size : Nat} (leaf : Leaves goal s ok) (hr : s.rest = b :: bytes)
    (h : Lexes goal (b :: bytes) kind size) :
    Ends (do return .leaf (← take size kind)) s ok bad := by
  rw [← hr] at h
  simp only [ends_bind, ends_take, ends_pure]
  exact leaf kind size h

theorem run_ends {accept : UInt8 → Bool} (leaf : Leaves goal s ok) (hr : s.rest = b :: bytes)
    (h : Lexes goal (b :: bytes) kind ((b :: bytes).takeWhile accept).length) :
    Ends (do return .leaf (← takeWhile accept kind)) s ok bad := by
  rw [← hr] at h
  simp only [ends_bind, ends_takeWhile h.bounds.1, ends_pure]
  exact leaf kind _ h

theorem escape_ends (leaf : Leaves goal s ok) (hg : goal.Expands) (hr : s.rest = b :: bytes)
    (hb : role b = .backslash) : Ends escape s ok bad := by
  simp only [escape, ends_bind, ends_get, ends_take, ends_pure]
  exact leaf .escaped _ (by rw [hr]; exact .escape hg hb)

/-- A part of a word is a leaf, a string in double quotes or a reference. -/
theorem wordPart_rule (hr : s.rest = b :: bytes) (hends : (role b).endsWord = false)
    (leaf : Leaves .part s ok)
    (quotes : role b = .quote → Ends (enclosure inner .doubleQuote) s ok bad)
    (refer : role b = .dollar → Ends (reference inner) s ok bad) :
    Ends (wordPart inner) s ok bad := by
  simp only [wordPart, ends_bind, ends_get, Scanner.role?_cons hr]
  cases hb : role b with
  | mark => exact leaf_ends leaf hr (.mark hb)
  | backslash => exact escape_ends leaf trivial hr hb
  | quote => exact quotes hb
  | dollar => exact refer hb
  | plain =>
    have hp : isPlain b := by simp [isPlain, hb]
    exact run_ends leaf hr (.plain hp)
  | _ => simp [hb, Role.endsWord] at hends

/-- Between double quotes there are leaves and references. -/
theorem quotedPart_rule (hr : s.rest = b :: bytes) (hne : role b ≠ .quote)
    (leaf : Leaves (.element .quotes s.state s.state) s ok)
    (refer : role b = .dollar → Ends (reference inner) s ok bad) :
    Ends (quotedPart inner) s ok bad := by
  simp only [quotedPart, ends_bind, ends_get, Scanner.role?_cons hr]
  split
  · rename_i hb
    exact escape_ends leaf rfl hr (Option.some.inj hb)
  · rename_i hb
    exact refer (Option.some.inj hb)
  · rename_i hbackslash hdollar
    have hb : isQuotable b := by
      unfold isQuotable
      split <;> simp_all
    exact run_ends leaf hr (.quoted hb)

/-- An element of arithmetic is a leaf, a reference or a group. -/
theorem arithmeticPart_rule (hr : s.rest = b :: bytes) (hne : role b ≠ .closeParen)
    (leaf : Leaves (.element .arithmetic s.state s.state) s ok)
    (refer : role b = .dollar → Ends (reference inner) s ok bad)
    (group : role b = .openParen → Ends (enclosure inner .arithmeticGroup) s ok bad) :
    Ends (arithmeticPart inner) s ok bad := by
  simp only [arithmeticPart, ends_bind, ends_get, hr]
  cases hb : role b with
  | blank => exact run_ends leaf hr (.blanks (by simp) hb)
  | newline => exact leaf_ends leaf hr (.arithmeticNewline hb)
  | backslash => exact escape_ends leaf rfl hr hb
  | dollar => exact refer hb
  | openParen => exact group hb
  | closeParen => exact absurd hb hne
  | _ =>
    have hlead : (role b).leadsArithmetic = false := by rw [hb]; rfl
    dsimp only
    split
    · rename_i hd
      exact leaf_ends leaf hr (.number hd)
    split
    · rename_i hn
      exact run_ends leaf hr (.name hn)
    split
    · rename_i size ho
      exact leaf_ends leaf hr (.arithmeticOperator hlead ho)
    · rename_i hd hn _ ho
      exact leaf_ends leaf hr (.unknown hlead (by simpa using hd) (by simpa using hn) ho)

end Rules

/-- A leaf that is lexed is read as one, and the state stays as it is. -/
theorem leaves_reading (goal : Goal) (hs : s.Fits source recalls) :
    Leaves goal s fun node t => Reading source recalls levels goal s [node] t :=
  fun _ _ h => .lexeme hs h

theorem leaves_element (form : Enclosure) (hs : s.Fits source recalls) :
    Leaves (.element form s.state s.state) s (ReadingElement source recalls levels form s) :=
  fun kind size h => (leaves_reading _ hs kind size h).element

theorem refer_ends {goal : Goal} {b : UInt8} {bytes : List UInt8} {form : Enclosure}
    (hi : inner.Obeys source recalls levels) (hs : s.Fits source recalls) (hg : goal.Expands)
    (hr : s.rest = b :: bytes) (hb : role b = .dollar) :
    Ends (reference inner) s (fun node t => Reading source recalls levels goal s [node] t)
      (Failing source recalls levels form.Blames s) := by
  refine (reference_ends hi hs hr hb).mono (fun _ _ h => h.congr (.refer hg)) ?_
  intro e t h
  exact h.blaming fun d hd => blames_of_quotes (h.blame d hd)

theorem wordPart_ends (hi : inner.Obeys source recalls levels) (hs : s.Fits source recalls)
    (hw : inWord s = true) :
    Ends (wordPart inner) s (fun node t => Reading source recalls levels .part s [node] t)
      (Failing source recalls levels Enclosure.quotes.Blames s) := by
  obtain ⟨b, bytes, hr, hends⟩ := inWord_cases hw
  apply wordPart_rule hr hends (leaves_reading .part hs)
  · intro hb
    refine (enclosure_ends (d := .doubleQuote) hi hs ?_).mono (fun _ _ h => h.congr .quotes) ?_
    · rw [hr]
      exact opening_of_quote hb
    · intro e t h
      refine h.blaming fun d hd => ?_
      rcases h.blame d hd with rfl | hb
      · simp [Enclosure.Blames, Delimiter.form]
      · exact hb
  · exact refer_ends hi hs trivial hr

theorem word_ends (hi : inner.Obeys source recalls levels) (hs : s.Fits source recalls)
    (hw : inWord s = true) :
    Ends (word inner) s (fun nodes t => Reading source recalls levels .word s nodes t)
      (Failing source recalls levels Enclosure.quotes.Blames s) := by
  let inv (nodes : List Node) (t : Scanner) : Prop :=
    t.state = s.state ∧ (nodes = [] → t = s) ∧
      Reads source recalls levels .parts s.pos nodes t.pos
  have parts : Ends (many inWord (wordPart inner)) s
      (fun nodes t => t.Fits source recalls ∧ s.pos ≤ t.pos ∧ inWord t = false ∧ inv nodes t)
      (Failing source recalls levels Enclosure.quotes.Blames s) := by
    refine many_ends hs ⟨rfl, fun _ => rfl, .noParts⟩ ?_ ?_
    · intro t hm hr
      simp [inWord, Scanner.role?, hr] at hm
    · rintro nodes t ht hp ⟨hst, _, hn⟩ hm
      refine (wordPart_ends hi ht hm).mono ?_ ?_
      · intro node u hu
        exact ⟨hu.fits, hu.reads.lt_of_singleton, hu.state.trans hst, by simp,
          .partsSnoc hn hu.reads⟩
      · intro e u hu
        exact hu.earlier hs ht hp hst fun _ h => h
  simp only [word, ends_bind]
  refine parts.imp ?_
  rintro nodes t ⟨ht, _, hm, hst, hstart, hn⟩
  cases nodes with
  | nil =>
    rw [hstart rfl, hw] at hm
    exact absurd hm (by simp)
  | cons node nodes =>
    exact ⟨ht, hst, .word hn (by simp) (by rw [inWord_bare ht]; exact hm)⟩

theorem quotedPart_ends (hi : inner.Obeys source recalls levels) (hs : s.Fits source recalls)
    (hq : Enclosure.quotes.Ready s) :
    Ends (quotedPart inner) s (ReadingElement source recalls levels .quotes s)
      (Failing source recalls levels Enclosure.quotes.Blames s) := by
  obtain ⟨r, hrole, hne⟩ := hq
  obtain ⟨b, bytes, hr, rfl⟩ := Scanner.role?_eq_some hrole
  have hg : (Goal.element .quotes s.state s.state).Expands := rfl
  apply quotedPart_rule hr hne (leaves_element .quotes hs)
  intro hb
  exact (refer_ends hi hs hg hr hb).imp fun _ _ h => h.element

theorem arithmeticPart_ends (hi : inner.Obeys source recalls levels) (hs : s.Fits source recalls)
    (hq : Enclosure.arithmetic.Ready s) :
    Ends (arithmeticPart inner) s (ReadingElement source recalls levels .arithmetic s)
      (Failing source recalls levels Enclosure.arithmetic.Blames s) := by
  obtain ⟨r, hrole, hne⟩ := hq
  obtain ⟨b, bytes, hr, rfl⟩ := Scanner.role?_eq_some hrole
  have hg : (Goal.element .arithmetic s.state s.state).Expands := rfl
  apply arithmeticPart_rule hr hne (leaves_element .arithmetic hs)
  · intro hb
    exact (refer_ends hi hs hg hr hb).imp fun _ _ h => h.element
  · intro hb
    refine (enclosure_ends (d := .arithmeticGroup) hi hs ?_).mono ?_ ?_
    · rw [hr]
      exact opening_of_openParen hb
    · intro node t h
      exact (h.congr .group).element
    · intro e t h
      refine h.blaming fun d hd => ?_
      rcases h.blame d hd with rfl | hb
      · simp [Enclosure.Blames]
      · exact hb

theorem ReadingElement.lexeme {b : UInt8} {bytes : List UInt8} {kind : Kind} {size : Nat}
    {t : Scanner} (hs : s.Fits source recalls) (hr : s.rest = b :: bytes)
    (h : Lexes (.element .substitution s.state t.state) (b :: bytes) kind size)
    (ht : t.Fits source recalls) (hp : t.pos = (s.skip size).pos) :
    ReadingElement source recalls levels .substitution s
      (.leaf ⟨kind, s.rest.take size, s.pos⟩) t := by
  rw [← hr] at h
  refine ⟨ht, ?_⟩
  rw [hp, Scanner.skip_pos h.bounds.2, hs.rest]
  rw [hs.rest] at h
  exact .lexeme h

theorem commandWord_ends (hi : inner.Obeys source recalls levels) (hs : s.Fits source recalls)
    (hw : inWord s = true) (hc : s.state.isCommand) :
    Ends (commandWord inner) s (ReadingElement source recalls levels .substitution s)
      (Failing source recalls levels Enclosure.substitution.Blames s) := by
  simp only [commandWord, ends_bind, ends_get]
  refine (word_ends hi hs hw).imp ?_
  intro nodes t h
  split
  · rename_i leaf next hres
    by_cases hn : s.state = .normal
    · rw [if_pos hn] at hres
      simp only [ends_bind, ends_enter, ends_pure]
      refine ⟨h.fits.enter _, ?_⟩
      rw [hn, Scanner.enter_state, Scanner.enter_pos]
      exact .reserved hres h.reads
    · rw [if_neg hn] at hres
      exact absurd hres (by simp)
  · rename_i hres
    simp only [ends_bind, ends_enter, ends_pure]
    refine ⟨h.fits.enter _, ?_⟩
    rw [Scanner.enter_state, Scanner.enter_pos]
    exact .command hc (fun hn => by rwa [if_pos hn] at hres) h.reads

theorem inWord_cons {b : UInt8} {bytes : List UInt8} (hr : s.rest = b :: bytes)
    (h : (role b).endsWord = false) : inWord s = true := by
  simp [inWord, Scanner.role?_cons hr, h]

theorem commandPart_ends {b : UInt8} {bytes : List UInt8} (hi : inner.Obeys source recalls levels)
    (hs : s.Fits source recalls) (hr : s.rest = b :: bytes) (hc : s.state.isCommand)
    (hb : role b ∉ [.blank, .hash, .newline]) :
    Ends (commandPart inner (role b)) s (ReadingElement source recalls levels .substitution s)
      (Failing source recalls levels Enclosure.substitution.Blames s) := by
  unfold commandPart
  cases hrole : role b with
  | separator | openParen | closeParen =>
    have hlex : Lexes (.element .substitution s.state
        (if s.rest.take (Lexeme.operator s.rest) = ascii ";;" then .casePattern
          else .normal)) (b :: bytes) .operator (Lexeme.operator s.rest) := by
      rw [hr]
      exact .separator hc (by simp [hrole])
    simp only [operator, ends_bind, ends_enter, ends_get, ends_take, Scanner.enter_rest,
      Scanner.enter_pos]
    split
    · rename_i hd
      simp only [ends_bind, ends_enter, ends_pure]
      rw [if_pos hd] at hlex
      refine ReadingElement.lexeme hs hr (by simpa using hlex) (((hs.enter _).skip _).enter _) ?_
      simp [Scanner.skip]
    · rename_i hd
      simp only [ends_pure]
      rw [if_neg hd] at hlex
      refine ReadingElement.lexeme hs hr (by simpa using hlex) ((hs.enter _).skip _) ?_
      simp [Scanner.skip]
  | redirection =>
    simp only [operator, ends_bind, ends_enter, ends_get, ends_take, ends_pure, Scanner.enter_rest,
      Scanner.enter_pos]
    refine ReadingElement.lexeme hs hr ?_ ((hs.enter _).skip _) (by simp [Scanner.skip])
    rw [hr]
    simpa using Lexes.redirection hc hrole
  | blank | hash | newline => simp [hrole] at hb
  | mark | backslash | quote | dollar | plain =>
    have hw : inWord s = true := inWord_cons hr (by rw [hrole]; rfl)
    exact commandWord_ends hi hs hw hc

theorem unexpected_ends {b : UInt8} {bytes : List UInt8} {ok : Node → Scanner → Prop}
    (hs : s.Fits source recalls) (hr : s.rest = b :: bytes)
    (hb : role b ∉ [.blank, .newline, .hash, .plain]) :
    Ends (unexpected b) s ok (Failing source recalls levels Enclosure.substitution.Blames s) := by
  simp only [unexpected, ends_bind, ends_get, ends_fail]
  have hshows : Cause.Shows source s.pos s.pos (.unexpected (Char.ofNat b.toNat)) :=
    ⟨rfl, b, bytes, by rw [← hs.rest, hr], rfl, hb⟩
  exact .of_shows hs rfl (Nat.le_refl _) (Nat.le_refl _) hshows (by simp) rfl

theorem caseSubject_ends {b : UInt8} {bytes : List UInt8} (hi : inner.Obeys source recalls levels)
    (hs : s.Fits source recalls) (hr : s.rest = b :: bytes) (hst : s.state = .caseSubject)
    (hb : role b ∉ [.blank, .hash, .newline]) :
    Ends (caseSubject inner b) s (ReadingElement source recalls levels .substitution s)
      (Failing source recalls levels Enclosure.substitution.Blames s) := by
  unfold caseSubject
  cases hrole : role b with
  | separator | openParen | closeParen | redirection =>
    exact unexpected_ends hs hr (by simp [hrole])
  | blank | hash | newline => simp [hrole] at hb
  | mark | backslash | quote | dollar | plain =>
    have hw : inWord s = true := inWord_cons hr (by rw [hrole]; rfl)
    simp only [ends_bind]
    refine (word_ends hi hs hw).imp ?_
    intro nodes t h
    simp only [ends_enter, ends_pure]
    refine ⟨h.fits.enter _, ?_⟩
    rw [hst, Scanner.enter_state, Scanner.enter_pos]
    exact .subject h.reads

theorem caseIn_ends {b : UInt8} {bytes : List UInt8} (hs : s.Fits source recalls)
    (hr : s.rest = b :: bytes) (hst : s.state = .caseIn)
    (hb : role b ∉ [.blank, .hash, .newline]) :
    Ends (caseIn b) s (ReadingElement source recalls levels .substitution s)
      (Failing source recalls levels Enclosure.substitution.Blames s) := by
  unfold caseIn
  by_cases hp : isPlain b
  · have hrun := Scanner.run_bounds hr hp
    have htake := Lexeme.take_run isPlain s.rest
    simp only [hp, Bool.not_true, Bool.false_eq_true, if_false, ends_bind, ends_get,
      ends_takeWhile hrun.1]
    split
    · rename_i hd
      rw [htake] at hd
      simp only [ends_bind, ends_enter, ends_pure]
      refine ReadingElement.lexeme hs hr ?_ ((hs.skip _).enter _) (by simp)
      rw [hst, Scanner.enter_state, hr]
      exact .caseIn hp (by rw [← hr]; exact hd)
    · rename_i hd
      rw [htake] at hd ⊢
      rw [ends_fail]
      have hskip : (s.skip (s.rest.takeWhile isPlain).length).pos =
          s.pos + (s.rest.takeWhile isPlain).length := Scanner.skip_pos hrun.2
      refine .of_shows (hs.skip _) rfl (by rw [hskip]; omega) (Nat.le_refl _) ?_ (by simp) rfl
      refine ⟨s.rest.takeWhile isPlain, by rw [hs.rest], ?_, hd, rfl, hskip⟩
      exact List.length_pos_iff.mp hrun.1
  · simp only [hp, Bool.not_false, if_true]
    refine unexpected_ends hs hr ?_
    simp only [isPlain, beq_iff_eq] at hp
    simp only [List.mem_cons, List.not_mem_nil, or_false, not_or] at hb ⊢
    exact ⟨hb.1, hb.2.2, hb.2.1, hp⟩

theorem casePart_ends {b : UInt8} {bytes : List UInt8} (hi : inner.Obeys source recalls levels)
    (hs : s.Fits source recalls) (hr : s.rest = b :: bytes) (hst : s.state = .casePattern)
    (hb : role b ∉ [.blank, .hash, .newline]) :
    Ends (casePart inner b) s (ReadingElement source recalls levels .substitution s)
      (Failing source recalls levels Enclosure.substitution.Blames s) := by
  unfold casePart
  cases hrole : role b with
  | openParen =>
    simp only [ends_bind, ends_take, ends_pure]
    refine ReadingElement.lexeme hs hr ?_ (hs.skip _) rfl
    rw [Scanner.skip_state, hst]
    exact .openPattern hrole
  | closeParen =>
    simp only [ends_bind, ends_take, ends_enter, ends_pure]
    refine ReadingElement.lexeme hs hr ?_ ((hs.skip _).enter _) (by simp)
    rw [Scanner.enter_state, hst]
    exact .closePattern hrole
  | separator | redirection => exact unexpected_ends hs hr (by simp [hrole])
  | blank | hash | newline => simp [hrole] at hb
  | mark | backslash | quote | dollar | plain =>
    have hw : inWord s = true := inWord_cons hr (by rw [hrole]; rfl)
    simp only [ends_bind]
    refine (word_ends hi hs hw).imp ?_
    intro nodes t h
    split
    · rename_i leaf he
      simp only [ends_bind, ends_enter, ends_pure]
      refine ⟨h.fits.enter _, ?_⟩
      rw [hst, Scanner.enter_state, Scanner.enter_pos]
      exact .esac he h.reads
    · rename_i he
      refine ⟨h.fits, ?_⟩
      rw [h.state, hst]
      exact .pattern he h.reads

theorem scriptPart_ends (hi : inner.Obeys source recalls levels) (hs : s.Fits source recalls)
    (hne : Enclosure.substitution.Ready s) :
    Ends (scriptPart inner) s (ReadingElement source recalls levels .substitution s)
      (Failing source recalls levels Enclosure.substitution.Blames s) := by
  obtain ⟨b, bytes, hr⟩ := List.exists_cons_of_ne_nil hne
  simp only [scriptPart, ends_bind, ends_get, hr]
  cases hrole : role b with
  | blank => exact run_ends (leaves_element .substitution hs) hr (.blanks (by simp) hrole)
  | hash => exact run_ends (leaves_element .substitution hs) hr (.comment hrole)
  | newline =>
    have hlex : Lexes (.element .substitution s.state
        (if s.state = .command then .normal else s.state)) (b :: bytes) .newLine 1 :=
      .newline hrole
    dsimp only
    split
    · rename_i hc
      simp only [ends_bind, ends_enter, ends_take, ends_pure, Scanner.enter_rest, Scanner.enter_pos]
      rw [if_pos hc] at hlex
      refine ReadingElement.lexeme hs hr (by simpa using hlex) ((hs.enter _).skip _) ?_
      simp [Scanner.skip]
    · rename_i hc
      simp only [ends_bind, ends_take, ends_pure]
      rw [if_neg hc] at hlex
      exact ReadingElement.lexeme hs hr hlex (hs.skip _) rfl
  | _ =>
    have hb : role b ∉ [.blank, .hash, .newline] := by simp [hrole]
    dsimp only
    cases hst : s.state with
    | normal | command =>
      have h := commandPart_ends hi hs hr (by rw [hst]; rfl) hb
      rw [hrole] at h
      exact h
    | caseSubject => exact caseSubject_ends hi hs hr hst hb
    | caseIn => exact caseIn_ends hs hr hst hb
    | casePattern => exact casePart_ends hi hs hr hst hb

theorem part_ends {form : Enclosure} (hi : inner.Obeys source recalls levels)
    (hs : s.Fits source recalls) (hr : form.Ready s) :
    Ends (part inner form) s (ReadingElement source recalls levels form s)
      (Failing source recalls levels form.Blames s) := by
  cases form with
  | quotes => exact quotedPart_ends hi hs hr
  | substitution => exact scriptPart_ends hi hs hr
  | arithmetic => exact arithmeticPart_ends hi hs hr

/-- The induction on the levels: elements are read alike at every depth. -/
theorem deeper_obeys (source : List UInt8) (recalls : Prop) (levels : Nat) :
    (deeper levels).Obeys source recalls levels := by
  induction levels with
  | zero => trivial
  | succ levels ih => exact fun form s hs hr => part_ends ih hs hr

theorem part_deeper_ends {form : Enclosure} (levels : Nat) (hs : s.Fits source recalls)
    (hr : form.Ready s) :
    Ends (part (deeper levels) form) s (ReadingElement source recalls levels form s)
      (Failing source recalls levels form.Blames s) :=
  part_ends (deeper_obeys source recalls levels) hs hr

end ShellLex.Scan
