import Mathlib.Data.List.Nodup
import ShellLex.Proofs.Restoration
import ShellLex.Proofs.Retries
/-!
Reading a `$((` once. What it came to is kept before anything in front of it can be read again, and
what is not kept, because the levels ran out, is left behind by the error. So the events tell of no
`$((` twice that it was read as arithmetic, nor that it was read again. It is read again for a fault
of the source only, as a call fails for one only.
-/
namespace ShellLex

def Event.expansion? : Event → Option Nat
  | .transition _ _ _ => none
  | .attempt pos | .retry pos _ => some pos

def Event.attempted? : Event → Option Nat
  | .attempt pos => some pos
  | .transition _ _ _ | .retry _ _ => none

def Event.retried? : Event → Option Nat
  | .retry pos _ => some pos
  | .transition _ _ _ | .attempt _ => none

/-- The events that tell of a `$((`, the latest first: it was read as arithmetic, and if that failed
for a fault of the source, as a command substitution. -/
inductive ReadOnce (pos : Nat) : List Event → Prop where
  | attempted : ReadOnce pos [.attempt pos]
  | retried {e : LexError} (hd : e.isTooDeep = false) (hi : e.isInternal = false) :
    ReadOnce pos [.retry pos e, .attempt pos]

namespace ReadOnce

variable {pos : Nat} {events : List Event}

theorem ne_nil (h : ReadOnce pos events) : events ≠ [] := by
  cases h <;> exact List.cons_ne_nil _ _

theorem count_attempted (h : ReadOnce pos events) :
    (events.filterMap Event.attempted?).count pos ≤ 1 := by
  cases h <;> simp [List.filterMap_cons, Event.attempted?]

theorem count_retried (h : ReadOnce pos events) :
    (events.filterMap Event.retried?).count pos ≤ 1 := by
  cases h <;> simp [List.filterMap_cons, Event.retried?]

theorem of_retry {at_ : Nat} {e : LexError} (h : ReadOnce pos events)
    (hm : .retry at_ e ∈ events) : e.isTooDeep = false ∧ e.isInternal = false := by
  cases h with
  | attempted => simp at hm
  | retried hd hi =>
    rcases List.mem_cons.mp hm with heq | hm
    · rw [(Event.retry.inj heq).2]
      exact ⟨hd, hi⟩
    · simp at hm

end ReadOnce

namespace Scanner

def history (s : Scanner) (pos : Nat) : List Event :=
  s.journal.filter (·.expansion? = some pos)

section History

variable {pos : Nat}

@[simp] theorem history_skip (s : Scanner) (size pos : Nat) :
    (s.skip size).history pos = s.history pos := rfl

@[simp] theorem history_record (s : Scanner) (at_ : Nat) (outcome : Outcome) (pos : Nat) :
    (s.record at_ outcome).history pos = s.history pos := rfl

@[simp] theorem history_enter (s : Scanner) (state : State) (pos : Nat) :
    (s.enter state).history pos = s.history pos := by
  by_cases h : s.state = state
  · rw [enter, if_pos h]
  · rw [enter, if_neg h]
    rfl

theorem history_note (s : Scanner) {event : Event} (h : event.expansion? = some pos) :
    (s.note event).history pos = event :: s.history pos := by
  simp [history, note, h]

theorem history_note_of_ne (s : Scanner) {event : Event} (h : event.expansion? ≠ some pos) :
    (s.note event).history pos = s.history pos := by
  simp [history, note, h]

end History

/-- What becomes of the `$((` at an offset between `s` and `t`: nothing, or it is read for the first
time and kept. If the levels ran out, it may be left behind instead. -/
inductive Fate (source : List UInt8) (deep : Bool) (s t : Scanner) (pos : Nat) : Prop where
  | same (h : t.history pos = s.history pos)
  | read (unread : s.history pos = []) (starts : ascii "$((" <+: source.drop pos)
      (once : ReadOnce pos (t.history pos))
      (kept : (t.held? pos).isSome ∨ deep = true ∧ pos < t.pos)

structure Advances (source : List UInt8) (deep : Bool) (s t : Scanner) : Prop where
  fits : t.Fits source True
  table : t.outcomes.isSome
  forward : s.pos ≤ t.pos
  keeps : s.Keeps t
  fate : ∀ pos, Fate source deep s t pos

/-- Whatever was read of what lies ahead is in the table. -/
structure Orderly (source : List UInt8) (s : Scanner) : Prop where
  fits : s.Fits source True
  table : s.outcomes.isSome
  ahead : ∀ pos, s.history pos ≠ [] → (s.held? pos).isSome ∨ pos < s.pos

variable {source : List UInt8} {deep : Bool} {s t u v : Scanner} {pos : Nat}

theorem Keeps.isSome (h : s.Keeps t) (hs : (s.held? pos).isSome) : (t.held? pos).isSome := by
  obtain ⟨outcome, ho⟩ := Option.isSome_iff_exists.mp hs
  rw [h pos outcome ho]
  rfl

/-- While the levels last, all that is read is kept. -/
theorem Fate.cases (h : Fate source false s t pos) :
    t.history pos = s.history pos ∨
    s.history pos = [] ∧ ascii "$((" <+: source.drop pos ∧ ReadOnce pos (t.history pos) ∧
      (t.held? pos).isSome := by
  rcases h with same | ⟨unread, starts, once, held | ⟨hdeep, _⟩⟩
  · exact Or.inl same
  · exact Or.inr ⟨unread, starts, once, held⟩
  · exact absurd hdeep Bool.false_ne_true

/-- The fate is the same up to a scanner with the same history and the same outcome there. -/
theorem Fate.of_eq (h : Fate source false s t pos) (hh : u.history pos = t.history pos)
    (ho : u.held? pos = t.held? pos) : Fate source deep s u pos := by
  rcases h.cases with same | ⟨unread, starts, once, held⟩
  · exact .same (hh.trans same)
  · rw [← hh] at once
    rw [← ho] at held
    exact .read unread starts once (Or.inl held)

theorem Fate.trans (h : Fate source false s t pos) (k : Fate source deep t u pos)
    (keeps : t.Keeps u) : Fate source deep s u pos := by
  rcases h.cases with hs | ⟨unread, starts, once, held⟩
  · rcases k with hu | ⟨unread, starts, once, kept⟩
    · exact .same (hu.trans hs)
    · exact .read (hs.symm.trans unread) starts once kept
  · -- read before `t`, so there is nothing left to read after it
    rcases k with hu | ⟨unread', _, _, _⟩
    · rw [← hu] at once
      exact .read unread starts once (Or.inl (keeps.isSome held))
    · exact absurd unread' once.ne_nil

theorem Advances.trans (h : s.Advances source false t) (k : t.Advances source deep u) :
    s.Advances source deep u where
  fits := k.fits
  table := k.table
  forward := Nat.le_trans h.forward k.forward
  keeps := h.keeps.trans k.keeps
  fate pos := (h.fate pos).trans (k.fate pos) k.keeps

theorem Advances.enter (h : s.Advances source deep t) (state : State) :
    s.Advances source deep (t.enter state) where
  fits := h.fits.enter state
  table := by simpa using h.table
  forward := by simpa using h.forward
  keeps := h.keeps.trans (keeps_of_outcomes (by simp))
  fate pos := by
    rcases h.fate pos with hs | ⟨unread, starts, once, kept⟩
    · exact .same (by simpa using hs)
    · refine .read unread starts (by simpa using once) ?_
      rw [held?_congr (enter_outcomes t state), enter_pos]
      exact kept

/-- What was left behind stays behind, and what was kept stays in the table. -/
theorem Orderly.ahead_of_same (hs : s.Orderly source) (same : t.history pos = s.history pos)
    (keeps : s.Keeps t) (forward : s.pos ≤ t.pos) (hne : t.history pos ≠ []) :
    (t.held? pos).isSome ∨ pos < t.pos := by
  rw [same] at hne
  rcases hs.ahead pos hne with held | behind
  · exact Or.inl (keeps.isSome held)
  · exact Or.inr (Nat.lt_of_lt_of_le behind forward)

theorem Advances.orderly (h : s.Advances source deep t) (hs : s.Orderly source) :
    t.Orderly source where
  fits := h.fits
  table := h.table
  ahead pos hne := by
    rcases h.fate pos with same | ⟨_, _, _, kept⟩
    · exact hs.ahead_of_same same h.keeps h.forward hne
    · exact kept.imp id And.right

theorem Orderly.refl (hs : s.Orderly source) : s.Advances source deep s :=
  ⟨hs.fits, hs.table, Nat.le_refl _, fun _ _ h => h, fun _ => .same rfl⟩

theorem Orderly.enter (hs : s.Orderly source) (state : State) :
    s.Advances source deep (s.enter state) :=
  hs.refl.enter state

theorem Orderly.skip (hs : s.Orderly source) (size : Nat) :
    s.Advances source deep (s.skip size) :=
  ⟨hs.fits.skip size, hs.table, Nat.le_add_right _ _, fun _ _ h => h, fun _ => .same rfl⟩

theorem Orderly.unread (hs : s.Orderly source) (ho : s.outcome? = none) :
    s.history s.pos = [] := by
  by_cases h : s.history s.pos = []
  · exact h
  · rcases hs.ahead s.pos h with held | behind
    · rw [show s.held? s.pos = none from ho] at held
      nomatch held
    · exact absurd behind (Nat.lt_irrefl _)

/-- An opening takes the scan on. -/
theorem lt_skip_opening {d : Delimiter} (h : d.opening <+: s.rest) :
    s.pos < (s.skip d.opening.length).pos := by
  rw [skip_pos h.length_le]
  exact Nat.lt_add_of_pos_right (by cases d <;> decide)

/-- The `$((` at `s`, of which the table holds nothing, is being read, and `v` has come past its
opening. -/
structure Midway (source : List UInt8) (s v : Scanner) : Prop where
  start : s.Orderly source
  starts : ascii "$((" <+: source.drop s.pos
  missed : s.outcome? = none
  fits : v.Fits source True
  table : v.outcomes.isSome
  past : s.pos < v.pos
  keeps : s.Keeps v
  own : ReadOnce s.pos (v.history s.pos)
  others : ∀ pos, pos ≠ s.pos → Fate source false s v pos

namespace Midway

/-- The `$((` itself is behind, and all that was read since is in the table. -/
theorem orderly (h : Midway source s v) : v.Orderly source where
  fits := h.fits
  table := h.table
  ahead pos hne := by
    by_cases hpos : pos = s.pos
    · rw [hpos]
      exact Or.inr h.past
    · rcases (h.others pos hpos).cases with same | ⟨_, _, _, held⟩
      · exact h.start.ahead_of_same same h.keeps (Nat.le_of_lt h.past) hne
      · exact Or.inl held

/-- Nothing happens to a `$((` while its body is read. -/
theorem history_eq (h : Midway source s v) (k : v.Advances source deep t) :
    t.history s.pos = v.history s.pos := by
  rcases k.fate s.pos with same | ⟨unread, _, _, _⟩
  · exact same
  · exact absurd unread h.own.ne_nil

theorem fate (h : Midway source s v) (k : v.Advances source deep t) (hpos : pos ≠ s.pos) :
    Fate source deep s t pos :=
  (h.others pos hpos).trans (k.fate pos) k.keeps

/-- The body of arithmetic is about to be read. -/
theorem attempt (hs : s.Orderly source) (ho : s.outcome? = none) (hp : ascii "$((" <+: s.rest) :
    Midway source s ((s.note (.attempt s.pos)).skip Delimiter.arithmetic.opening.length) ∧
      (s.note (.attempt s.pos)).history s.pos = [.attempt s.pos] := by
  have hown : (s.note (.attempt s.pos)).history s.pos = [.attempt s.pos] := by
    rw [history_note s rfl, hs.unread ho]
  have hnote : (s.note (.attempt s.pos)).Fits source True := hs.fits.note _
  have hpast := lt_skip_opening (d := .arithmetic) (s := s.note (.attempt s.pos)) hp
  refine ⟨⟨hs, ?_, ho, hnote.skip _, hs.table, hpast, fun _ _ h => h, ?_, ?_⟩, hown⟩
  · rw [← hs.fits.rest]
    exact hp
  · rw [history_skip, hown]
    exact .attempted
  · intro pos hpos
    exact .same (history_note_of_ne s fun h => hpos (Option.some.inj h).symm)

/-- The body of a command substitution is about to be read, after arithmetic failed. -/
theorem again {e : LexError} (h : Midway source s v) (hv : v.history s.pos = [.attempt s.pos])
    (k : v.Advances source false t) (hd : e.isTooDeep = false) (hi : e.isInternal = false) :
    Midway source s ((s.again e t).skip Delimiter.commandSubstitution.opening.length) := by
  have hagain : (s.again e t).Fits source True := h.start.fits.rewind (k.fits.note _)
  have hopening : Delimiter.commandSubstitution.opening <+: (s.again e t).rest := by
    rw [show (s.again e t).rest = source.drop s.pos from h.start.fits.rest]
    exact Scan.prefix_of_expansion h.starts
  have hpast : s.pos < ((s.again e t).skip Delimiter.commandSubstitution.opening.length).pos :=
    lt_skip_opening hopening
  refine ⟨h.start, h.starts, h.missed, hagain.skip _, k.table, hpast, h.keeps.trans k.keeps, ?_, ?_⟩
  · have hown : (s.again e t).history s.pos = .retry s.pos e :: t.history s.pos :=
      history_note t rfl
    rw [history_skip, hown, h.history_eq k, hv]
    exact .retried hd hi
  · intro pos hpos
    exact (h.fate k hpos).of_eq
      (history_note_of_ne t fun he => hpos (Option.some.inj he).symm) rfl

/-- What the `$((` came to is recorded. -/
theorem record {outcome : Outcome} (h : Midway source s v) (k : v.Advances source false t)
    (kept : Kept source True s.pos outcome) :
    s.Advances source false (t.record s.pos outcome) where
  fits := k.fits.record fun _ => kept
  table := by simpa [Scanner.record] using k.table
  forward := Nat.le_trans (Nat.le_of_lt h.past) k.forward
  keeps := (h.keeps.trans k.keeps).record h.missed outcome
  fate pos := by
    by_cases hpos : pos = s.pos
    · subst hpos
      refine .read (h.start.unread h.missed) h.starts ?_ (Or.inl ?_)
      · rw [history_record, h.history_eq k]
        exact h.own
      · rw [held?_record_self _ _ k.table]
        rfl
    · exact (h.fate k hpos).of_eq (history_record ..) (held?_record_of_ne hpos)

/-- The levels ran out in the body, behind the opening. -/
theorem abandon (h : Midway source s v) (k : v.Advances source true t) :
    s.Advances source true t where
  fits := k.fits
  table := k.table
  forward := Nat.le_trans (Nat.le_of_lt h.past) k.forward
  keeps := h.keeps.trans k.keeps
  fate pos := by
    by_cases hpos : pos = s.pos
    · subst hpos
      refine .read (h.start.unread h.missed) h.starts ?_ (Or.inr ⟨rfl, ?_⟩)
      · rw [h.history_eq k]
        exact h.own
      · exact Nat.lt_of_lt_of_le h.past k.forward
    · exact h.fate k hpos

end Midway

end Scanner

namespace Scan

variable {source : List UInt8} {α β : Type} {levels : Nat} {inner : Inner} {d : Delimiter}
  {s : Scanner}

def Frugal (source : List UInt8) (scan : Scan α) : Prop :=
  ∀ s, s.Orderly source → Ends scan s (fun _ t => s.Advances source false t)
    (fun e t => s.Advances source e.isTooDeep t)

section Rules

theorem Frugal.after {scan : Scan α} {t : Scanner} (h : Frugal source scan)
    (hs : s.Orderly source) (ht : s.Advances source false t) :
    Ends scan t (fun _ u => s.Advances source false u)
      (fun e u => s.Advances source e.isTooDeep u) :=
  (h t (ht.orderly hs)).mono (fun _ _ hu => ht.trans hu) fun _ _ hu => ht.trans hu

theorem Frugal.bind {scan : Scan α} {next : α → Scan β} (h : Frugal source scan)
    (k : ∀ a, Frugal source (next a)) : Frugal source (scan >>= next) := by
  intro s hs
  rw [ends_bind]
  exact (h s hs).imp fun a t ht => (k a).after hs ht

theorem frugal_get {next : Scanner → Scan α} (h : ∀ s, Frugal source (next s)) :
    Frugal source (get >>= next) :=
  fun s => h s s

theorem frugal_pure (a : α) : Frugal source (pure a) := fun _ hs => hs.refl

theorem frugal_fail (cause : Cause) (pos : Nat) : Frugal source (fail cause pos : Scan α) :=
  fun _ hs => hs.refl

theorem frugal_internal (reason : String) : Frugal source (internal reason : Scan α) :=
  fun _ hs => hs.refl

theorem frugal_enter (state : State) : Frugal source (enter state) := fun _ hs => hs.enter state

theorem frugal_take (size : Nat) (kind : Kind) : Frugal source (take size kind) :=
  fun _ hs => hs.skip size

theorem frugal_takeWhile (accept : UInt8 → Bool) (kind : Kind) :
    Frugal source (takeWhile accept kind) :=
  frugal_get fun s => by
    split
    · exact frugal_internal _
    · exact frugal_take _ _

theorem frugal_closed (d : Delimiter) (start : Nat) : Frugal source (closed d start) := by
  intro s hs
  rw [ends_closed]
  split
  · exact hs.skip _
  split
  · exact hs.refl
  · exact hs.refl

theorem Frugal.within {scan : Scan α} (h : Frugal source scan) (state : State) :
    Frugal source (within state scan) := by
  intro s hs
  rw [ends_within]
  exact (h.after hs (hs.enter state)).mono (fun _ _ ht => ht.enter _) fun _ _ ht => ht.enter _

theorem Frugal.many {read : Scan Node} (more : Scanner → Bool) (h : Frugal source read) :
    Frugal source (many more read) := by
  intro s hs
  simp only [Scan.many, ends_bind, ends_get]
  let inv (_ : Nat) (_ : List Node) (t : Scanner) : Prop := s.Advances source false t
  refine (ends_manyWithin inv ?_ ?_ s.rest [] s hs.refl).imp ?_
  · intro budget nodes t ht _
    exact h.after hs ht
  · intro nodes t ht _
    exact ht
  · rintro nodes t ⟨_, _, ht⟩
    exact ht

theorem Frugal.leaf {read : Scan Leaf} (h : Frugal source read) :
    Frugal source (do return Node.leaf (← read)) :=
  h.bind fun _ => frugal_pure _

end Rules

structure FrugalInside (source : List UInt8) (levels : Nat) (inner : Inner) : Prop where
  obeys : inner.Obeys source True levels
  frugal : ∀ read, inner = some read → ∀ form, Frugal source (read form)

/-- What is read of a construct behind its opening. -/
theorem enclosure_opened (hi : FrugalInside source levels inner)
    (ho : d = .arithmeticGroup ∨ d.opening <+: s.rest)
    (hs : (s.skip d.opening.length).Orderly source) :
    Ends (enclosure inner d) s
      (fun _ t => (s.skip d.opening.length).Advances source false t)
      (fun e t => (s.skip d.opening.length).Advances source e.isTooDeep t) := by
  simp only [enclosure, ends_bind, ends_get, ends_opened, if_pos ho]
  cases inner with
  | none => exact hs.refl
  | some read =>
    have elements : Frugal source (many d.goesOn (read d.form)) :=
      (hi.frugal read rfl d.form).many _
    have body : Frugal source (d.inBody (many d.goesOn (read d.form))) := by
      cases d with
      | commandSubstitution => exact elements.within _
      | doubleQuote | arithmetic | arithmeticGroup => exact elements
    exact (body.bind fun nodes => (frugal_closed d s.pos).bind fun closing => frugal_pure _) _ hs

theorem enclosure_frugal (hi : FrugalInside source levels inner) :
    Frugal source (enclosure inner d) := by
  intro s hs
  by_cases ho : d = .arithmeticGroup ∨ d.opening <+: s.rest
  · have first : s.Advances source false (s.skip d.opening.length) := hs.skip _
    exact (enclosure_opened hi ho (first.orderly hs)).mono (fun _ _ ht => first.trans ht)
      fun _ _ ht => first.trans ht
  · simp only [enclosure, ends_bind, ends_get, ends_opened, if_neg ho]
    exact hs.refl

/-- Both readings of a `$((` are behind an opening of it. -/
theorem attempt_midway (hi : FrugalInside source levels inner) (hs : s.Orderly source)
    (hp : ascii "$((" <+: s.rest) (ho : s.outcome? = none) :
    Ends (attempt inner) s
      (fun _ t => ∃ v, Scanner.Midway source s v ∧ v.Advances source false t)
      (fun e t => ∃ v, Scanner.Midway source s v ∧ v.Advances source e.isTooDeep t) := by
  obtain ⟨midway, hown⟩ := Scanner.Midway.attempt hs ho hp
  have first := enclosure_opened (d := .arithmetic) hi (s := s.note (.attempt s.pos))
    (Or.inr hp) midway.orderly
  have read := Scan.enclosure_ends (d := .arithmetic) hi.obeys (hs.fits.note (.attempt s.pos)) hp
  rw [ends_attempt]
  refine (first.and read).mono (fun _ _ ht => ⟨_, midway, ht.1⟩) ?_
  rintro e t ⟨ht, failing⟩
  by_cases hdeep : e.isTooDeep
  · rw [if_pos hdeep]
    exact ⟨_, midway, ht⟩
  · -- the levels lasted, so going back to `s` leaves nothing ahead that is not in the table
    rw [if_neg hdeep]
    have hd : e.isTooDeep = false := by simpa using hdeep
    rw [hd] at ht
    have again := midway.again hown ht hd failing.isInternal_eq
    have second := enclosure_opened (d := .commandSubstitution) hi (s := s.again e t)
      (Or.inr (prefix_of_expansion hp)) again.orderly
    exact second.mono (fun _ _ hu => ⟨_, again, hu⟩) fun _ _ hu => ⟨_, again, hu⟩

theorem expansion_frugal (hi : FrugalInside source levels inner) (hs : s.Orderly source)
    (hp : ascii "$((" <+: s.rest) :
    Ends (expansion inner) s (fun _ t => s.Advances source false t)
      (fun e t => s.Advances source e.isTooDeep t) := by
  cases ho : s.outcome? with
  | some outcome =>
    rw [ends_recall ho]
    cases outcome.result <;> exact hs.skip _
  | none =>
    rw [ends_expansion ho]
    refine ((attempt_midway hi hs hp ho).and (attempt_ends hi.obeys hs.fits hp)).mono ?_ ?_
    · rintro node t ⟨⟨v, midway, ht⟩, read⟩
      exact midway.record ht read.kept
    · rintro e t ⟨⟨v, midway, ht⟩, failing⟩
      by_cases hdeep : e.isTooDeep
      · rw [hdeep] at ht ⊢
        exact midway.abandon ht
      · have hd : e.isTooDeep = false := by simpa using hdeep
        rw [hd] at ht ⊢
        exact midway.record ht (failing.kept hd)

theorem reference_frugal (hi : FrugalInside source levels inner) :
    Frugal source (reference inner) := by
  intro s hs
  by_cases hd : s.role? = some .dollar
  · rw [ends_reference hd]
    split
    · rename_i hp
      exact expansion_frugal hi hs hp
    split
    · exact enclosure_frugal hi s hs
    split
    · exact hs.refl
    · exact hs.skip _
  · rw [ends_reference_elsewhere hd]
    exact hs.refl

theorem escape_frugal : Frugal source escape := frugal_get fun _ => (frugal_take _ _).leaf

theorem wordPart_frugal (hi : FrugalInside source levels inner) :
    Frugal source (wordPart inner) := by
  apply frugal_get
  intro s
  split
  · exact (frugal_take _ _).leaf
  · exact escape_frugal
  · exact enclosure_frugal hi
  · exact reference_frugal hi
  · exact (frugal_takeWhile _ _).leaf

theorem word_frugal (hi : FrugalInside source levels inner) : Frugal source (word inner) := by
  apply ((wordPart_frugal hi).many inWord).bind
  intro nodes
  cases nodes with
  | nil => exact frugal_internal _
  | cons node nodes => exact frugal_pure _

theorem quotedPart_frugal (hi : FrugalInside source levels inner) :
    Frugal source (quotedPart inner) := by
  apply frugal_get
  intro s
  split
  · exact escape_frugal
  · exact reference_frugal hi
  · exact (frugal_takeWhile _ _).leaf

theorem arithmeticPart_frugal (hi : FrugalInside source levels inner) :
    Frugal source (arithmeticPart inner) := by
  apply frugal_get
  intro s
  split
  · exact frugal_internal _
  split
  · exact (frugal_takeWhile _ _).leaf
  · exact (frugal_take _ _).leaf
  · exact escape_frugal
  · exact reference_frugal hi
  · exact enclosure_frugal hi
  split
  · exact (frugal_take _ _).leaf
  split
  · exact (frugal_takeWhile _ _).leaf
  split
  · exact (frugal_take _ _).leaf
  · exact (frugal_take _ _).leaf

theorem unexpected_frugal (b : UInt8) : Frugal source (unexpected b) :=
  frugal_get fun _ => frugal_fail _ _

theorem commandWord_frugal (hi : FrugalInside source levels inner) :
    Frugal source (commandWord inner) := by
  apply frugal_get
  intro s
  apply (word_frugal hi).bind
  intro nodes
  split
  · exact (frugal_enter _).bind fun _ => frugal_pure _
  · exact (frugal_enter _).bind fun _ => frugal_pure _

theorem operator_frugal : Frugal source operator := frugal_get fun _ => frugal_take _ _

theorem commandPart_frugal (hi : FrugalInside source levels inner) (r : Role) :
    Frugal source (commandPart inner r) := by
  unfold commandPart
  cases r with
  | separator | openParen | closeParen =>
    refine (frugal_enter _).bind fun _ => operator_frugal.bind fun leaf => ?_
    split
    · exact (frugal_enter _).bind fun _ => frugal_pure _
    · exact frugal_pure _
  | redirection => exact (frugal_enter _).bind fun _ => operator_frugal.leaf
  | _ => exact commandWord_frugal hi

theorem caseSubject_frugal (hi : FrugalInside source levels inner) (b : UInt8) :
    Frugal source (caseSubject inner b) := by
  unfold caseSubject
  cases role b with
  | separator | openParen | closeParen | redirection => exact unexpected_frugal b
  | _ => exact (word_frugal hi).bind fun _ => (frugal_enter _).bind fun _ => frugal_pure _

theorem caseIn_frugal (b : UInt8) : Frugal source (caseIn b) := by
  unfold caseIn
  split
  · exact unexpected_frugal b
  · refine frugal_get fun s => (frugal_takeWhile _ _).bind fun leaf => ?_
    split
    · exact (frugal_enter _).bind fun _ => frugal_pure _
    · exact frugal_fail _ _

theorem casePart_frugal (hi : FrugalInside source levels inner) (b : UInt8) :
    Frugal source (casePart inner b) := by
  unfold casePart
  cases role b with
  | openParen => exact (frugal_take _ _).leaf
  | closeParen =>
    exact (frugal_take _ _).bind fun _ => (frugal_enter _).bind fun _ => frugal_pure _
  | separator | redirection => exact unexpected_frugal b
  | _ =>
    refine (word_frugal hi).bind fun nodes => ?_
    split
    · exact (frugal_enter _).bind fun _ => frugal_pure _
    · exact frugal_pure _

theorem scriptPart_frugal (hi : FrugalInside source levels inner) :
    Frugal source (scriptPart inner) := by
  apply frugal_get
  intro s
  split
  · exact frugal_internal _
  rename_i b bytes hr
  split
  · exact (frugal_takeWhile _ _).leaf
  · exact (frugal_takeWhile _ _).leaf
  · split
    · exact (frugal_enter _).bind fun _ => (frugal_take _ _).leaf
    · exact (frugal_take _ _).leaf
  split
  · exact commandPart_frugal hi _
  · exact commandPart_frugal hi _
  · exact caseSubject_frugal hi b
  · exact caseIn_frugal b
  · exact casePart_frugal hi b

theorem part_frugal (hi : FrugalInside source levels inner) (form : Enclosure) :
    Frugal source (part inner form) := by
  cases form with
  | quotes => exact quotedPart_frugal hi
  | substitution => exact scriptPart_frugal hi
  | arithmetic => exact arithmeticPart_frugal hi

theorem deeper_frugal (source : List UInt8) (levels : Nat) :
    FrugalInside source levels (deeper levels) := by
  refine ⟨deeper_obeys source True levels, ?_⟩
  induction levels with
  | zero => nofun
  | succ levels ih =>
    rintro _ ⟨⟩
    exact part_frugal ⟨deeper_obeys source True levels, ih⟩

theorem element_frugal (source : List UInt8) : Frugal source element :=
  scriptPart_frugal (deeper_frugal source nestingLimit)

end Scan

namespace Scanner

variable {source : List UInt8} {s t : Scanner}

def Once (source : List UInt8) (s : Scanner) : Prop :=
  ∀ pos, s.history pos ≠ [] → ascii "$((" <+: source.drop pos ∧ ReadOnce pos (s.history pos)

theorem Once.advance {deep : Bool} (h : s.Once source) (k : s.Advances source deep t) :
    t.Once source := by
  intro pos hne
  rcases k.fate pos with same | ⟨_, starts, once, _⟩
  · rw [same] at hne ⊢
    exact h pos hne
  · exact ⟨starts, once⟩

theorem Once.of_mem {event : Event} {pos : Nat} (h : s.Once source) (hm : event ∈ s.journal)
    (he : event.expansion? = some pos) :
    ascii "$((" <+: source.drop pos ∧ ReadOnce pos (s.history pos) ∧ event ∈ s.history pos := by
  have hmem : event ∈ s.history pos := List.mem_filter.mpr ⟨hm, by simpa using he⟩
  obtain ⟨starts, once⟩ := h pos (List.ne_nil_of_mem hmem)
  exact ⟨starts, once, hmem⟩

/-- What the events list is listed once, if it is among the events of each `$((`. -/
theorem Once.nodup {listed? : Event → Option Nat} (h : s.Once source)
    (hlisted : ∀ event pos, listed? event = some pos → event.expansion? = some pos)
    (honce : ∀ pos events, ReadOnce pos events → (events.filterMap listed?).count pos ≤ 1) :
    (s.journal.filterMap listed?).Nodup := by
  rw [List.nodup_iff_count_le_one]
  intro pos
  have hcount : (s.journal.filterMap listed?).count pos =
      ((s.history pos).filterMap listed?).count pos := by
    rw [List.count_filterMap, List.count_filterMap, history, List.countP_filter]
    refine List.countP_congr fun event _ => ?_
    simp only [beq_iff_eq, Bool.and_eq_true, decide_eq_true_eq]
    exact ⟨fun hl => ⟨hl, hlisted event pos hl⟩, And.left⟩
  rw [hcount]
  by_cases hne : s.history pos = []
  · simp [hne]
  · exact honce pos _ (h pos hne).2

end Scanner

namespace Lexer

variable {source : List UInt8} {lexer : Lexer}

theorem Reachable.orderly_once (h : Reachable source lexer) :
    lexer.scanner.Orderly source ∧ lexer.scanner.Once source := by
  let inv (s : Scanner) : Prop := s.Orderly source ∧ s.Once source
  have start : inv (.start source) :=
    ⟨⟨Scanner.start_fits source, rfl, fun _ hne => absurd rfl hne⟩, fun _ hne => absurd rfl hne⟩
  have step : ∀ lexer : Lexer, inv lexer.scanner → inv lexer.get.2.scanner := by
    rintro lexer ⟨orderly, once⟩
    have run := Scan.element_frugal source lexer.scanner orderly
    unfold Lexer.get
    split
    · exact ⟨orderly, once⟩
    split
    · rename_i hrun
      have ht := run.of_ok hrun
      exact ⟨ht.orderly orderly, once.advance ht⟩
    · rename_i hrun
      have ht := run.of_error hrun
      exact ⟨ht.orderly orderly, once.advance ht⟩
  exact h.induct start step

/-- However a lexer is called, it reads each `$((` as arithmetic at most once. So the `$((` that it
reads again are distinct, and none of them is read again for want of levels. -/
theorem expansions_read_once (h : Reachable source lexer) :
    (lexer.scanner.journal.filterMap Event.attempted?).Nodup ∧
    (∀ pos, .attempt pos ∈ lexer.scanner.journal → ascii "$((" <+: source.drop pos) ∧
    (lexer.scanner.journal.filterMap Event.retried?).Nodup ∧
    ∀ pos e, .retry pos e ∈ lexer.scanner.journal →
      ascii "$((" <+: source.drop pos ∧ e.isTooDeep = false := by
  have once := h.orderly_once.2
  refine ⟨once.nodup ?_ ?_, ?_, once.nodup ?_ ?_, ?_⟩
  · rintro (_ | at_ | _) pos ⟨⟩
    rfl
  · exact fun _ _ read => read.count_attempted
  · intro pos hm
    exact (once.of_mem hm rfl).1
  · rintro (_ | _ | ⟨at_, e⟩) pos ⟨⟩
    rfl
  · exact fun _ _ read => read.count_retried
  · intro pos e hm
    obtain ⟨starts, read, hmem⟩ := once.of_mem hm rfl
    exact ⟨starts, (read.of_retry hmem).1⟩

/-- Neither `$((` closes. The inner one is met twice and read once, although the outer one is read
again. -/
theorem expansions_read_once_nested :
    let source := ascii "$(($((b"
    let journal := (start source).get.2.scanner.journal
    journal.filterMap Event.attempted? = [3, 0] ∧ journal.filterMap Event.retried? = [0, 3] ∧
    (journal.filterMap Event.attempted?).Nodup ∧
    (∀ pos, .attempt pos ∈ journal → ascii "$((" <+: source.drop pos) ∧
    (journal.filterMap Event.retried?).Nodup ∧
    ∀ pos e, .retry pos e ∈ journal → ascii "$((" <+: source.drop pos ∧ e.isTooDeep = false :=
  ⟨by decide +kernel, by decide +kernel, expansions_read_once (.get .start)⟩

/-- Any call that fails, of either kind and after any others, fails for a fault of the source. Also
what is given up on the way, to be read again, is given up for none of the lexer. -/
theorem error_ofSource (h : Reachable source lexer) :
    (∀ e, lexer.get.1 = .error e ∨ lexer.next.1 = .error e → e.cause.OfSource) ∧
    ∀ pos e, .retry pos e ∈ lexer.scanner.journal → e.isInternal = false := by
  refine ⟨fun e he => h.blames_source he, ?_⟩
  intro pos e hm
  obtain ⟨_, read, hmem⟩ := h.orderly_once.2.of_mem hm rfl
  exact (read.of_retry hmem).2

/-- The group is given up for its closing, and so is then the substitution. -/
theorem error_ofSource_unclosed :
    (start (ascii "$(((")).get.1 = .error ⟨.unterminated .commandSubstitution, 0⟩ ∧
      (Cause.unterminated .commandSubstitution).OfSource ∧
      .retry 0 ⟨.unterminated .arithmeticGroup, 3⟩ ∈
        (start (ascii "$(((")).get.2.scanner.journal ∧
      LexError.isInternal ⟨.unterminated .arithmeticGroup, 3⟩ = false := by
  have reachable : Reachable (ascii "$(((") (start (ascii "$(((")) := .start
  have failed : (start (ascii "$(((")).get.1 =
      .error ⟨.unterminated .commandSubstitution, 0⟩ := by rfl
  have retried : Event.retry 0 ⟨.unterminated .arithmeticGroup, 3⟩ ∈
      (start (ascii "$(((")).get.2.scanner.journal := by decide +kernel
  exact ⟨failed, (error_ofSource reachable).1 _ (Or.inl failed), retried,
    (error_ofSource reachable.get).2 0 _ retried⟩

end Lexer

end ShellLex
