import ShellLex.Proofs.Ends
import ShellLex.Proofs.Grammar
/-!
Every run of a routine is a derivation or shows what it fails for; properties of nodes follow from
the grammar, and properties of errors from what they show. Constructs and references come first,
for any reading of what they enclose.
-/
namespace ShellLex

/-- What the source has at the offset of an error, with the scan left at `stop`. -/
def Cause.Shows (source : List UInt8) (pos stop : Nat) : Cause → Prop
  | .unexpected found => stop = pos ∧ ∃ b bytes, source.drop pos = b :: bytes ∧
      found = Char.ofNat b.toNat ∧ role b ∉ [.blank, .newline, .hash, .plain]
  | .expectedIn got => ∃ word, word = (source.drop pos).takeWhile isPlain ∧ word ≠ [] ∧
      word ≠ ascii "in" ∧ got = String.ofList (Utf8.lossy word) ∧ stop = pos + word.length
  | .unsupported what => what = "`$\x7b...\x7d` parameter expansion" ∧ stop = pos ∧
      ascii "$\x7b" <+: source.drop pos
  | .unterminated d => d.opening <+: source.drop pos ∧ (d = .arithmetic ∨ stop = source.length)
  | .tooDeep limit => limit = nestingLimit ∧ ∃ d : Delimiter, d.opening <+: source.drop pos
  | .internal _ => False

/-- The delimiters that can be found missing inside a construct: `$((` never is, because then it
is read again as a command substitution. -/
def Enclosure.Blames : Enclosure → Delimiter → Prop
  | .arithmetic, d => d ≠ .arithmetic
  | .quotes, d | .substitution, d => d.form ≠ .arithmetic

structure Kept (source : List UInt8) (recalls : Prop) (pos : Nat) (outcome : Outcome) : Prop where
  forward : pos ≤ outcome.stop
  within : outcome.stop ≤ source.length
  ok : ∀ node, outcome.result = .ok node →
    ∃ levels, Reads source recalls levels .expansion pos [node] outcome.stop
  error : ∀ e, outcome.result = .error e → pos ≤ e.pos ∧
    e.cause.Shows source e.pos outcome.stop ∧ e.isTooDeep = false ∧
    ∀ d, e.cause = .unterminated d → Enclosure.quotes.Blames d

/-- The scanner stands in `source`, and what its table holds was read there. -/
structure Scanner.Fits (source : List UInt8) (recalls : Prop) (s : Scanner) : Prop where
  rest : s.rest = source.drop s.pos
  within : s.pos ≤ source.length
  outcomes : ∀ table, s.outcomes = some table →
    recalls ∧ ∀ pos outcome, (pos, outcome) ∈ table → Kept source recalls pos outcome

namespace Scanner.Fits

variable {source : List UInt8} {recalls : Prop} {s t : Scanner}

theorem length (h : s.Fits source recalls) : s.rest.length = source.length - s.pos := by
  rw [h.rest, List.length_drop]

theorem length_lt (h : s.Fits source recalls) (k : t.Fits source recalls) (hp : s.pos < t.pos) :
    t.rest.length < s.rest.length := by
  have := k.within
  rw [h.length, k.length]
  omega

theorem length_le (h : s.Fits source recalls) (k : t.Fits source recalls) (hp : s.pos ≤ t.pos) :
    t.rest.length ≤ s.rest.length := by
  rw [h.length, k.length]
  omega

theorem pos_of_nil (h : s.Fits source recalls) (hr : s.rest = []) : s.pos = source.length := by
  have hl := h.length
  have hw := h.within
  rw [hr, List.length_nil] at hl
  omega

theorem skip (h : s.Fits source recalls) (size : Nat) : (s.skip size).Fits source recalls := by
  have hl := h.length
  have hw := h.within
  refine ⟨?_, ?_, h.outcomes⟩
  · simp only [Scanner.skip, List.length_take, h.rest, List.drop_drop]
    rcases Nat.le_total size s.rest.length with hs | hs
    · rw [← h.rest, Nat.min_eq_left hs]
    · rw [← h.rest, Nat.min_eq_right hs, List.drop_eq_nil_of_le (by omega),
        List.drop_eq_nil_of_le (by omega)]
  · simp only [Scanner.skip, List.length_take]
    omega

theorem enter (h : s.Fits source recalls) (state : State) : (s.enter state).Fits source recalls :=
  ⟨by simpa using h.rest, by simpa using h.within, by simpa using h.outcomes⟩

theorem note (h : s.Fits source recalls) (event : Event) : (s.note event).Fits source recalls :=
  ⟨h.rest, h.within, h.outcomes⟩

theorem rewind (h : s.Fits source recalls) (k : t.Fits source recalls) :
    Fits source recalls { t with rest := s.rest, pos := s.pos } :=
  ⟨h.rest, h.within, k.outcomes⟩

theorem record (h : s.Fits source recalls) {pos : Nat} {outcome : Outcome}
    (k : recalls → Kept source recalls pos outcome) :
    (s.record pos outcome).Fits source recalls := by
  refine ⟨h.rest, h.within, ?_⟩
  intro table ht
  obtain ⟨old, ho, rfl⟩ := Option.map_eq_some_iff.mp ht
  obtain ⟨hr, hk⟩ := h.outcomes old ho
  refine ⟨hr, ?_⟩
  intro p o hm
  rcases List.mem_cons.mp hm with heq | hm
  · obtain ⟨rfl, rfl⟩ := Prod.mk.inj heq
    exact k hr
  · exact hk p o hm

end Scanner.Fits

structure Reading (source : List UInt8) (recalls : Prop) (levels : Nat) (goal : Goal) (s : Scanner)
    (nodes : List Node) (t : Scanner) : Prop where
  fits : t.Fits source recalls
  state : t.state = s.state
  reads : Reads source recalls levels goal s.pos nodes t.pos

structure ReadingElement (source : List UInt8) (recalls : Prop) (levels : Nat) (form : Enclosure)
    (s : Scanner) (node : Node) (t : Scanner) : Prop where
  fits : t.Fits source recalls
  reads : Reads source recalls levels (.element form s.state t.state) s.pos [node] t.pos

structure Failing (source : List UInt8) (recalls : Prop) (levels : Nat) (blamed : Delimiter → Prop)
    (s : Scanner) (e : LexError) (t : Scanner) : Prop where
  fits : t.Fits source recalls
  state : t.state = s.state
  forward : s.pos ≤ t.pos
  place : s.pos ≤ e.pos
  shows : e.cause.Shows source e.pos t.pos
  blame : ∀ d, e.cause = .unterminated d → blamed d
  levels : e.isTooDeep → levels < s.rest.length

variable {source : List UInt8} {recalls : Prop} {levels : Nat}

theorem Failing.isInternal_eq {blamed : Delimiter → Prop} {s t : Scanner} {e : LexError}
    (h : Failing source recalls levels blamed s e t) : e.isInternal = false := by
  have shows := h.shows
  unfold LexError.isInternal
  cases hc : e.cause with
  | internal reason =>
    rw [hc] at shows
    exact shows.elim
  | _ => rfl

/-- What fails further on in a construct fails in it. -/
theorem Failing.earlier {blamed blamed' : Delimiter → Prop} {s s' t : Scanner} {e : LexError}
    (h : Failing source recalls levels blamed s' e t) (hs : s.Fits source recalls)
    (hs' : s'.Fits source recalls) (hp : s.pos ≤ s'.pos) (hstate : s'.state = s.state)
    (hb : ∀ d, blamed d → blamed' d) : Failing source recalls levels blamed' s e t where
  fits := h.fits
  state := h.state.trans hstate
  forward := Nat.le_trans hp h.forward
  place := Nat.le_trans hp h.place
  shows := h.shows
  blame d hd := hb d (h.blame d hd)
  levels hd := Nat.lt_of_lt_of_le (h.levels hd) (hs.length_le hs' hp)

theorem Failing.blaming {blamed blamed' : Delimiter → Prop} {s t : Scanner} {e : LexError}
    (h : Failing source recalls levels blamed s e t)
    (hb : ∀ d, e.cause = .unterminated d → blamed' d) :
    Failing source recalls levels blamed' s e t :=
  { h with blame := hb }

/-- A failure that neither misses a delimiter nor runs out of levels. -/
theorem Failing.of_shows {blamed : Delimiter → Prop} {s t : Scanner} {e : LexError}
    (ht : t.Fits source recalls) (hstate : t.state = s.state) (hp : s.pos ≤ t.pos)
    (hpos : s.pos ≤ e.pos) (hshows : e.cause.Shows source e.pos t.pos)
    (hc : ∀ d, e.cause ≠ .unterminated d) (hd : e.isTooDeep = false) :
    Failing source recalls levels blamed s e t where
  fits := ht
  state := hstate
  forward := hp
  place := hpos
  shows := hshows
  blame d h := absurd h (hc d)
  levels h := by simp [hd] at h

theorem Reading.lexeme {s : Scanner} {goal : Goal} {kind : Kind} {size : Nat}
    (hs : s.Fits source recalls) (h : Lexes goal s.rest kind size) :
    Reading source recalls levels goal s [.leaf ⟨kind, s.rest.take size, s.pos⟩] (s.skip size) := by
  refine ⟨hs.skip size, rfl, ?_⟩
  rw [Scanner.skip_pos h.bounds.2, hs.rest]
  rw [hs.rest] at h
  exact .lexeme h

theorem Reading.element {s : Scanner} {form : Enclosure} {node : Node} {t : Scanner}
    (h : Reading source recalls levels (.element form s.state s.state) s [node] t) :
    ReadingElement source recalls levels form s node t :=
  ⟨h.fits, by rw [h.state]; exact h.reads⟩

theorem Reading.congr {s : Scanner} {goal goal' : Goal} {nodes : List Node} {t : Scanner}
    (h : Reading source recalls levels goal s nodes t)
    (k : Reads source recalls levels goal s.pos nodes t.pos →
      Reads source recalls levels goal' s.pos nodes t.pos) :
    Reading source recalls levels goal' s nodes t :=
  ⟨h.fits, h.state, k h.reads⟩

/-- What an expansion came to may be kept, unless it ran out of levels. -/
theorem Reading.kept {s : Scanner} {node : Node} {t : Scanner}
    (h : Reading source recalls levels .expansion s [node] t) :
    Kept source recalls s.pos ⟨.ok node, t.pos⟩ := by
  refine ⟨Nat.le_of_lt h.reads.lt_of_singleton, h.fits.within, ?_, by simp⟩
  rintro _ ⟨⟩
  exact ⟨levels, h.reads⟩

theorem Failing.kept {s : Scanner} {e : LexError} {t : Scanner}
    (h : Failing source recalls levels Enclosure.quotes.Blames s e t) (hd : e.isTooDeep = false) :
    Kept source recalls s.pos ⟨.error e, t.pos⟩ := by
  refine ⟨h.forward, h.fits.within, by simp, ?_⟩
  rintro _ ⟨⟩
  exact ⟨h.place, h.shows, hd, h.blame⟩

/-- The scanner that goes back to the `$((` at `s`, after reading it as arithmetic failed at `t`. -/
def Scanner.again (s : Scanner) (e : LexError) (t : Scanner) : Scanner :=
  { t.note (.retry s.pos e) with rest := s.rest, pos := s.pos }

theorem Scanner.role?_eq_some {s : Scanner} {r : Role} (h : s.role? = some r) :
    ∃ b bytes, s.rest = b :: bytes ∧ role b = r := by
  unfold Scanner.role? at h
  cases hr : s.rest with
  | nil => simp [hr] at h
  | cons b bytes => exact ⟨b, bytes, rfl, by simpa [hr] using h⟩

theorem Scanner.role?_cons {s : Scanner} {b : UInt8} {bytes : List UInt8}
    (h : s.rest = b :: bytes) : s.role? = some (role b) := by
  simp [Scanner.role?, h]

theorem Scanner.role?_eq {s : Scanner} {r : Role} {b : UInt8} {bytes : List UInt8}
    (h : s.rest = b :: bytes) (hb : role b = r) : s.role? = some r := by
  rw [Scanner.role?_cons h, hb]

theorem Scanner.run_bounds {s : Scanner} {accept : UInt8 → Bool} {b : UInt8} {bytes : List UInt8}
    (hr : s.rest = b :: bytes) (h : accept b) : 0 < (s.rest.takeWhile accept).length ∧
      (s.rest.takeWhile accept).length ≤ s.rest.length := by
  rw [hr]
  exact Lexeme.run_bounds h

def Enclosure.Ready : Enclosure → Scanner → Prop
  | .quotes, s => ∃ r, s.role? = some r ∧ r ≠ .quote
  | .substitution, s => s.rest ≠ []
  | .arithmetic, s => ∃ r, s.role? = some r ∧ r ≠ .closeParen

def Inner.Obeys (source : List UInt8) (recalls : Prop) : (levels : Nat) → Inner → Prop
  | 0, none => True
  | levels + 1, some read => ∀ form s, s.Fits source recalls → form.Ready s →
      Scan.Ends (read form) s (ReadingElement source recalls levels form s)
        (Failing source recalls levels form.Blames s)
  | _, _ => False

theorem Kept.skip_pos {s : Scanner} {outcome : Outcome} (h : Kept source recalls s.pos outcome)
    (hs : s.Fits source recalls) : (s.skip (outcome.stop - s.pos)).pos = outcome.stop := by
  have hf := h.forward
  have hw := h.within
  rw [Scanner.skip_pos (by rw [hs.length]; omega)]
  omega

theorem Inner.Obeys.cases {inner : Inner} (h : inner.Obeys source recalls levels) :
    (inner = none ∧ levels = 0) ∨ ∃ read below, inner = some read ∧ levels = below + 1 := by
  cases inner with
  | none =>
    cases levels with
    | zero => exact Or.inl ⟨rfl, rfl⟩
    | succ => exact h.elim
  | some read =>
    cases levels with
    | zero => exact h.elim
    | succ below => exact Or.inr ⟨read, below, rfl, rfl⟩

namespace Scan

variable {s : Scanner} {inner : Inner} {d : Delimiter}

theorem many_ends {more : Scanner → Bool} {read : Scan Node} {inv : List Node → Scanner → Prop}
    {bad : LexError → Scanner → Prop} (hs : s.Fits source recalls) (start : inv [] s)
    (ready : ∀ t, more t = true → t.rest ≠ [])
    (step : ∀ nodes t, t.Fits source recalls → s.pos ≤ t.pos → inv nodes t → more t = true →
      Ends read t (fun node u => u.Fits source recalls ∧ t.pos < u.pos ∧ inv (nodes ++ [node]) u)
        bad) :
    Ends (many more read) s
      (fun nodes t => t.Fits source recalls ∧ s.pos ≤ t.pos ∧ more t = false ∧ inv nodes t)
      bad := by
  simp only [many, ends_bind, ends_get]
  -- a node takes a byte, so the budget is never less than what is left to read
  let inv' (budget : Nat) (latest : List Node) (t : Scanner) : Prop :=
    t.Fits source recalls ∧ s.pos ≤ t.pos ∧ t.rest.length ≤ budget ∧ inv latest.reverse t
  have hinv : inv' s.rest.length [] s := ⟨hs, Nat.le_refl _, Nat.le_refl _, start⟩
  refine (ends_manyWithin inv' ?_ ?_ s.rest [] s hinv).imp ?_
  · rintro budget latest t ⟨ht, hp, hb, hi⟩ hm
    refine (step _ t ht hp hi hm).imp ?_
    rintro node u ⟨hu, hlt, hi'⟩
    have := ht.length_lt hu hlt
    exact ⟨hu, by omega, by omega, by simpa using hi'⟩
  · rintro latest t ⟨ht, hp, hb, hi⟩ hm
    exact absurd (List.length_eq_zero_iff.mp (Nat.le_zero.mp hb)) (ready t hm)
  · rintro nodes t ⟨hm, _, ht, hp, _, hi⟩
    exact ⟨ht, hp, hm, by simpa using hi⟩

theorem eq_of_role {b : UInt8} :
    (role b = .quote → b = 0x22) ∧ (role b = .openParen → b = 0x28) ∧
      (role b = .closeParen → b = 0x29) ∧ (role b = .backslash → b = 0x5C) ∧
      (role b = .dollar → b = 0x24) := by
  simp only [role]
  split <;> simp_all

theorem opening_of_quote {b : UInt8} {bytes : List UInt8} (h : role b = .quote) :
    Delimiter.doubleQuote.opening <+: b :: bytes := by
  obtain rfl := eq_of_role.1 h
  exact ⟨bytes, rfl⟩

theorem opening_of_openParen {b : UInt8} {bytes : List UInt8} (h : role b = .openParen) :
    Delimiter.arithmeticGroup.opening <+: b :: bytes := by
  obtain rfl := eq_of_role.2.1 h
  exact ⟨bytes, rfl⟩

theorem closing_of_closeParen {b : UInt8} {bytes : List UInt8} (h : role b = .closeParen) :
    Delimiter.commandSubstitution.closing <+: b :: bytes := by
  obtain rfl := eq_of_role.2.2.1 h
  exact ⟨bytes, rfl⟩

/-- A body that is over lacks its closing delimiter at the end only, or it is that of a `$((`. -/
theorem rest_of_unclosed (h : d.goesOn s = false) (hc : ¬ d.closing <+: s.rest) :
    d = .arithmetic ∨ s.rest = [] := by
  cases hr : s.rest with
  | nil => exact Or.inr rfl
  | cons b bytes =>
    rw [hr] at hc
    simp only [Delimiter.goesOn, Scanner.role?_cons hr] at h
    cases d with
    | arithmetic => exact Or.inl rfl
    | doubleQuote => exact absurd (opening_of_quote (by simpa using h)) hc
    | commandSubstitution =>
      simp only [Bool.or_eq_false_iff, bne_eq_false_iff_eq] at h
      exact absurd (closing_of_closeParen h.1) hc
    | arithmeticGroup => exact absurd (closing_of_closeParen (by simpa using h)) hc

theorem ready_of_goesOn (h : d.goesOn s = true) : d.form.Ready s := by
  unfold Delimiter.goesOn at h
  cases hr : s.role? with
  | none => simp [hr] at h
  | some r =>
    obtain ⟨b, bytes, hb, _⟩ := Scanner.role?_eq_some hr
    rw [hr] at h
    cases d with
    | commandSubstitution => exact List.ne_nil_of_length_pos (by simp [hb])
    | doubleQuote | arithmetic | arithmeticGroup => exact ⟨r, hr, by simpa using h⟩

theorem goesOn_bare (hs : s.Fits source recalls) :
    d.goesOn (.bare source s.pos s.state) = d.goesOn s := by
  simp [Delimiter.goesOn, Scanner.role?, Scanner.bare, hs.rest]

/-- A word goes on at a byte that does not end it. -/
theorem inWord_cases (hw : inWord s = true) :
    ∃ b bytes, s.rest = b :: bytes ∧ (role b).endsWord = false := by
  cases hr : s.rest with
  | nil => simp [inWord, Scanner.role?, hr] at hw
  | cons b bytes => exact ⟨b, bytes, rfl, by simpa [inWord, Scanner.role?_cons hr] using hw⟩

theorem inWord_bare (hs : s.Fits source recalls) (state : State) :
    inWord (.bare source s.pos state) = inWord s := by
  simp [inWord, Scanner.role?, Scanner.bare, hs.rest]

theorem body_ends {read : Enclosure → Scan Node}
    (hi : Inner.Obeys source recalls (levels + 1) (some read)) (hs : s.Fits source recalls) :
    Ends (many d.goesOn (read d.form)) s
      (fun nodes t => t.Fits source recalls ∧ s.pos ≤ t.pos ∧ d.goesOn t = false ∧
        Reads source recalls levels (.body d s.state t.state) s.pos nodes t.pos)
      (fun e t => ∃ s', s'.Fits source recalls ∧ s.pos ≤ s'.pos ∧
        (d.form ≠ .substitution → s'.state = s.state) ∧
        Failing source recalls levels d.form.Blames s' e t) := by
  refine many_ends hs .emptyBody ?_ ?_
  · intro t hm
    obtain ⟨r, hr⟩ : ∃ r, t.role? = some r := by
      unfold Delimiter.goesOn at hm
      cases hr : t.role? with
      | none => simp [hr] at hm
      | some r => exact ⟨r, rfl⟩
    obtain ⟨b, bytes, hb, _⟩ := Scanner.role?_eq_some hr
    simp [hb]
  · intro nodes t ht hp hn hm
    refine (hi d.form t ht (ready_of_goesOn hm)).mono ?_ ?_
    · intro node u hu
      rw [← goesOn_bare ht] at hm
      exact ⟨hu.fits, hu.reads.lt_of_singleton, .bodySnoc hn hm hu.reads⟩
    · intro e u hu
      exact ⟨t, ht, hp, hn.steady, hu⟩

theorem inBody_of_ne {α : Type} (hd : d ≠ .commandSubstitution) (scan : Scan α) :
    d.inBody scan = scan := by
  cases d with
  | commandSubstitution => exact absurd rfl hd
  | _ => rfl

theorem form_ne_substitution (hd : d ≠ .commandSubstitution) : d.form ≠ .substitution := by
  cases d with
  | commandSubstitution => exact absurd rfl hd
  | _ => simp [Delimiter.form]

/-- The state is the same after a body as before it, whether it was left or kept. -/
theorem inBody_ends {read : Enclosure → Scan Node}
    (hi : Inner.Obeys source recalls (levels + 1) (some read)) (hs : s.Fits source recalls) :
    Ends (d.inBody (many d.goesOn (read d.form))) s
      (fun nodes t => t.Fits source recalls ∧ t.state = s.state ∧
        (¬ d.closing <+: t.rest → d = .arithmetic ∨ t.rest = []) ∧
        ∃ before after, (d = .commandSubstitution → before = .normal) ∧
          d.goesOn (.bare source t.pos after) = false ∧
          Reads source recalls levels (.body d before after) s.pos nodes t.pos)
      (Failing source recalls levels d.form.Blames s) := by
  by_cases hd : d = .commandSubstitution
  · subst hd
    rw [Delimiter.inBody, ends_within]
    refine (body_ends hi (hs.enter .normal)).mono ?_ ?_
    · rintro nodes t ⟨ht, _, hm, hn⟩
      refine ⟨ht.enter _, by simp, ?_, .normal, t.state, fun _ => rfl, ?_, by simpa using hn⟩
      · rw [Scanner.enter_rest]
        exact rest_of_unclosed hm
      · rw [Scanner.enter_pos, goesOn_bare ht]
        exact hm
    · rintro e t ⟨s', hs', hp, _, hf⟩
      simp only [Scanner.enter_pos] at hp
      exact
        { fits := hf.fits.enter _
          state := by simp
          forward := by simpa using Nat.le_trans hp hf.forward
          place := Nat.le_trans hp hf.place
          shows := by simpa using hf.shows
          blame := hf.blame
          levels := fun h => Nat.lt_of_lt_of_le (hf.levels h) (hs.length_le hs' hp) }
  · rw [inBody_of_ne hd]
    refine (body_ends hi hs).mono ?_ ?_
    · rintro nodes t ⟨ht, _, hm, hn⟩
      exact ⟨ht, hn.steady (form_ne_substitution hd), rest_of_unclosed hm, s.state, t.state,
        fun h => absurd h hd, by rw [goesOn_bare ht]; exact hm, hn⟩
    · rintro e t ⟨s', hs', hp, hst, hf⟩
      exact hf.earlier hs hs' hp (hst (form_ne_substitution hd)) (fun _ h => h)

theorem limit_failing {blamed : Delimiter → Prop} (hs : s.Fits source recalls)
    (ho : d.opening <+: s.rest) :
    Failing source recalls 0 blamed s ⟨.tooDeep nestingLimit, s.pos⟩ (s.skip d.opening.length) := by
  have hsize : 0 < d.opening.length := by cases d <;> decide
  have hle := ho.length_le
  have hpos : (s.skip d.opening.length).pos = s.pos + d.opening.length := Scanner.skip_pos hle
  rw [hs.rest] at ho
  refine ⟨hs.skip _, rfl, ?_, Nat.le_refl _, ⟨rfl, d, ho⟩, by simp, ?_⟩
  · omega
  · intro _
    omega

theorem unclosed_failing {t : Scanner} (hs : s.Fits source recalls) (ho : d.opening <+: s.rest)
    (ht : t.Fits source recalls) (hst : t.state = s.state) (hp : s.pos ≤ t.pos)
    (hc : d = .arithmetic ∨ t.rest = []) :
    Failing source recalls levels (fun d' => d' = d ∨ d.form.Blames d') s
      ⟨.unterminated d, s.pos⟩ t := by
  rw [hs.rest] at ho
  refine ⟨ht, hst, hp, Nat.le_refl _, ⟨ho, hc.imp id ht.pos_of_nil⟩, ?_, ?_⟩
  · intro d' h
    obtain rfl : d = d' := by simpa using h
    exact Or.inl rfl
  · intro h
    exact absurd h Bool.false_ne_true

theorem enclosure_ends (hi : inner.Obeys source recalls levels) (hs : s.Fits source recalls)
    (ho : d.opening <+: s.rest) :
    Ends (enclosure inner d) s
      (fun node t => Reading source recalls levels (.construct d) s [node] t)
      (Failing source recalls levels (fun d' => d' = d ∨ d.form.Blames d') s) := by
  have hsize : 0 < d.opening.length := by cases d <;> decide
  have hpos : (s.skip d.opening.length).pos = s.pos + d.opening.length :=
    Scanner.skip_pos ho.length_le
  have hskip := hs.skip d.opening.length
  simp only [enclosure, ends_bind, ends_get, ends_opened_of_prefix ho]
  rcases hi.cases with ⟨rfl, rfl⟩ | ⟨read, levels, rfl, rfl⟩
  · exact limit_failing hs ho
  · simp only [ends_bind]
    refine (inBody_ends hi hskip).mono ?_ ?_
    · rintro nodes t ⟨ht, hst, hclosed, before, after, hb, he, hn⟩
      have hle := Node.SpansAll.le hn.spans
      rw [ends_closed_of_body hclosed]
      split
      · rename_i hc
        refine ⟨ht.skip _, hst, ?_⟩
        rw [hpos] at hn
        rw [Scanner.skip_pos hc.length_le, hs.rest, ht.rest]
        rw [hs.rest] at ho
        rw [ht.rest] at hc
        exact .construct ho hb hn he hc
      · rename_i hc
        exact unclosed_failing hs ho ht hst (by omega) (hclosed hc)
    · intro e t hf
      have h : Failing source recalls levels (fun d' => d' = d ∨ d.form.Blames d') s e t :=
        hf.earlier hs hskip (by omega) rfl fun _ => Or.inr
      refine ⟨h.fits, h.state, h.forward, h.place, h.shows, h.blame, fun hd => ?_⟩
      have hlt := hf.levels hd
      have := ho.length_le
      rw [Scanner.skip_rest, List.length_drop] at hlt
      omega

theorem prefix_of_expansion {bytes : List UInt8} (h : ascii "$((" <+: bytes) :
    Delimiter.commandSubstitution.opening <+: bytes :=
  List.IsPrefix.trans ⟨ascii "(", rfl⟩ h

theorem not_unterminated {e : LexError} (h : e.isTooDeep) (d : Delimiter) :
    e.cause ≠ .unterminated d := by
  intro hd
  simp [LexError.isTooDeep, hd] at h

/-- A `$((` is read as arithmetic, and if that fails for anything but its levels, once more. -/
theorem ends_attempt {ok : Node → Scanner → Prop} {bad : LexError → Scanner → Prop} :
    Ends (attempt inner) s ok bad ↔
      Ends (enclosure inner .arithmetic) (s.note (.attempt s.pos)) ok fun e t =>
        if e.isTooDeep then bad e t
        else Ends (enclosure inner .commandSubstitution) (s.again e t) ok bad := by
  unfold Ends attempt
  cases enclosure inner .arithmetic (s.note (.attempt s.pos)) with
  | ok node t => rfl
  | error e t => by_cases hd : e.isTooDeep <;> simp [hd, Scanner.again]

theorem attempt_ends (hi : inner.Obeys source recalls levels) (hs : s.Fits source recalls)
    (hp : ascii "$((" <+: s.rest) :
    Ends (attempt inner) s (fun node t => Reading source recalls levels .expansion s [node] t)
      (Failing source recalls levels Enclosure.quotes.Blames s) := by
  have first := enclosure_ends (d := .arithmetic) hi (hs.note (.attempt s.pos)) hp
  rw [ends_attempt]
  refine first.mono ?_ ?_
  · intro node t h
    exact ⟨h.fits, h.state, .arithmetic h.reads⟩
  · intro e t h
    by_cases hd : e.isTooDeep
    · rw [if_pos hd]
      exact ⟨h.fits, h.state, h.forward, h.place, h.shows,
        fun d h => absurd h (not_unterminated hd d), h.levels⟩
    · rw [if_neg hd]
      have hs' : (s.again e t).Fits source recalls := hs.rewind (h.fits.note (.retry s.pos e))
      have second := enclosure_ends (d := .commandSubstitution) hi hs' (prefix_of_expansion hp)
      refine second.mono ?_ ?_
      · intro node u hu
        refine ⟨hu.fits, hu.state.trans h.state, .retry ?_ hu.reads⟩
        rw [← hs.rest]
        exact hp
      · intro f u hu
        refine ⟨hu.fits, hu.state.trans h.state, hu.forward, hu.place, hu.shows, ?_, hu.levels⟩
        intro d hd
        rcases hu.blame d hd with rfl | hb
        · simp [Enclosure.Blames, Delimiter.form]
        · exact hb

theorem outcome?_mem {outcome : Outcome} (h : s.outcome? = some outcome) :
    ∃ table, s.outcomes = some table ∧ (s.pos, outcome) ∈ table := by
  obtain ⟨table, ht, hl⟩ := Option.bind_eq_some_iff.mp h
  obtain ⟨before, after, rfl, _⟩ := List.lookup_eq_some_iff.mp hl
  exact ⟨_, ht, by simp⟩

theorem expansion_recall {outcome : Outcome} (h : s.outcome? = some outcome) :
    expansion inner s = match outcome.result with
      | .ok node => .ok node (s.skip (outcome.stop - s.pos))
      | .error e => .error e (s.skip (outcome.stop - s.pos)) := by
  cases hr : outcome.result with
  | ok node => simp only [expansion, h, hr]
  | error e => simp only [expansion, h, hr]

theorem expansion_afresh (h : s.outcome? = none) :
    expansion inner s = match attempt inner s with
      | .ok node t => .ok node (t.record s.pos ⟨.ok node, t.pos⟩)
      | .error e t =>
        .error e (if e.isTooDeep then t else t.record s.pos ⟨.error e, t.pos⟩) := by
  cases hr : attempt inner s with
  | ok node t => simp only [expansion, h, hr]
  | error e t => simp only [expansion, h, hr]

theorem ends_recall {outcome : Outcome} {ok : Node → Scanner → Prop}
    {bad : LexError → Scanner → Prop} (ho : s.outcome? = some outcome) :
    Ends (expansion inner) s ok bad ↔
      match outcome.result with
      | .ok node => ok node (s.skip (outcome.stop - s.pos))
      | .error e => bad e (s.skip (outcome.stop - s.pos)) := by
  unfold Ends
  rw [expansion_recall ho]
  cases outcome.result <;> rfl

theorem ends_expansion {ok : Node → Scanner → Prop} {bad : LexError → Scanner → Prop}
    (ho : s.outcome? = none) :
    Ends (expansion inner) s ok bad ↔
      Ends (attempt inner) s (fun node t => ok node (t.record s.pos ⟨.ok node, t.pos⟩)) fun e t =>
        bad e (if e.isTooDeep then t else t.record s.pos ⟨.error e, t.pos⟩) := by
  unfold Ends
  rw [expansion_afresh ho]
  cases attempt inner s <;> rfl

/-- What is recalled was read at this place, if maybe with other levels. -/
theorem recalled_ends {outcome : Outcome} (hs : s.Fits source recalls)
    (ho : s.outcome? = some outcome) :
    Ends (expansion inner) s (fun node t => Reading source recalls levels .expansion s [node] t)
      (Failing source recalls levels Enclosure.quotes.Blames s) := by
  obtain ⟨table, ht, hm⟩ := outcome?_mem ho
  obtain ⟨hr, hk⟩ := hs.outcomes table ht
  have kept := hk _ _ hm
  have hstop := kept.skip_pos hs
  rw [ends_recall ho]
  cases hres : outcome.result with
  | ok node =>
    obtain ⟨m, h⟩ := kept.ok node hres
    refine ⟨hs.skip _, rfl, ?_⟩
    rw [hstop]
    exact .recalled hr h
  | error e =>
    obtain ⟨hplace, hshows, hdeep, hblame⟩ := kept.error e hres
    refine ⟨hs.skip _, rfl, ?_, hplace, ?_, hblame, by simp [hdeep]⟩
    · rw [hstop]
      exact kept.forward
    · rw [hstop]
      exact hshows

theorem expansion_ends (hi : inner.Obeys source recalls levels) (hs : s.Fits source recalls)
    (hp : ascii "$((" <+: s.rest) :
    Ends (expansion inner) s (fun node t => Reading source recalls levels .expansion s [node] t)
      (Failing source recalls levels Enclosure.quotes.Blames s) := by
  cases ho : s.outcome? with
  | some outcome => exact recalled_ends hs ho
  | none =>
    rw [ends_expansion ho]
    refine (attempt_ends hi hs hp).mono ?_ ?_
    · intro node t h
      exact ⟨h.fits.record fun _ => h.kept, h.state, h.reads⟩
    · intro e t h
      by_cases hd : e.isTooDeep
      · rw [if_pos hd]
        exact h
      · rw [if_neg hd]
        exact ⟨h.fits.record fun _ => h.kept (by simpa using hd), h.state, h.forward, h.place,
          h.shows, h.blame, h.levels⟩

theorem reference_ends {b : UInt8} {bytes : List UInt8} (hi : inner.Obeys source recalls levels)
    (hs : s.Fits source recalls) (hr : s.rest = b :: bytes) (hb : role b = .dollar) :
    Ends (reference inner) s (fun node t => Reading source recalls levels .reference s [node] t)
      (Failing source recalls levels Enclosure.quotes.Blames s) := by
  rw [ends_reference (Scanner.role?_eq hr hb)]
  split
  · rename_i hp
    exact (expansion_ends hi hs hp).imp fun _ _ h => h.congr .expand
  split
  · rename_i hp hq
    refine (enclosure_ends (d := .commandSubstitution) hi hs hq).mono ?_ ?_
    · intro node t h
      rw [hs.rest] at hp
      exact h.congr (.substitution hp)
    · intro e t h
      refine h.blaming fun d hd => ?_
      rcases h.blame d hd with rfl | hb
      · simp [Enclosure.Blames, Delimiter.form]
      · exact hb
  split
  · rename_i hu
    rw [hs.rest] at hu
    have hshows : Cause.Shows source s.pos s.pos
        (.unsupported "`$\x7b...\x7d` parameter expansion") :=
      ⟨rfl, rfl, hu⟩
    exact .of_shows hs rfl (Nat.le_refl _) (Nat.le_refl _) hshows (by simp) rfl
  · rename_i hq hu
    rw [hr] at hq hu
    exact Reading.lexeme hs (by rw [hr]; exact .dollar hb hq hu)

theorem blames_of_quotes {form : Enclosure} {d : Delimiter} (h : Enclosure.quotes.Blames d) :
    form.Blames d := by
  cases form with
  | quotes | substitution => exact h
  | arithmetic =>
    rintro rfl
    exact h rfl

end Scan

end ShellLex
