import ShellLex.Proofs.Calls
import ShellLex.Proofs.Counter
/-!
What a failure leaves intact. Constructs and words return to the state and to the count of open
constructs that they began with, however they end; so a call that fails has moved on in the source
and may have added to the table, but changed nothing else.
-/
namespace ShellLex

namespace Scan

variable {α β : Type} {inner : Inner} {d : Delimiter}

/-- However it ends, the scan is in the state that it began in. -/
def Steady (scan : Scan α) : Prop :=
  ∀ s, Ends scan s (fun _ t => t.state = s.state) (fun _ t => t.state = s.state)

section Rules

theorem Steady.bind {scan : Scan α} {next : α → Scan β} (h : Steady scan)
    (k : ∀ a, Steady (next a)) : Steady (scan >>= next) := by
  intro s
  rw [ends_bind]
  refine (h s).imp fun a t ht => ?_
  exact (k a t).mono (fun _ u hu => hu.trans ht) fun _ u hu => hu.trans ht

theorem steady_get {next : Scanner → Scan α} (h : ∀ s, Steady (next s)) : Steady (get >>= next) :=
  fun s => h s s

theorem steady_pure (a : α) : Steady (pure a) := fun _ => rfl

theorem steady_fail (cause : Cause) (pos : Nat) : Steady (fail cause pos : Scan α) := fun _ => rfl

theorem steady_internal (reason : String) : Steady (internal reason : Scan α) := fun _ => rfl

theorem steady_take (size : Nat) (kind : Kind) : Steady (take size kind) := fun _ => rfl

theorem steady_takeWhile (accept : UInt8 → Bool) (kind : Kind) : Steady (takeWhile accept kind) :=
  steady_get fun s => by
    split
    · exact steady_internal _
    · exact steady_take _ _

theorem steady_opened (d : Delimiter) : Steady (opened d) := by
  intro s
  rw [ends_opened]
  split <;> rfl

theorem steady_closed (d : Delimiter) (start : Nat) : Steady (closed d start) := by
  intro s
  rw [ends_closed]
  split
  · rfl
  split <;> rfl

/-- Whatever the body does to the state, it ends where it began. -/
theorem steady_within (state : State) (scan : Scan α) : Steady (within state scan) := by
  intro s
  rw [ends_within]
  unfold Ends
  split <;> exact Scanner.enter_state _ _

theorem Steady.many {read : Scan Node} (more : Scanner → Bool) (h : Steady read) :
    Steady (many more read) := by
  intro s
  simp only [Scan.many, ends_bind, ends_get]
  let inv (_ : Nat) (_ : List Node) (t : Scanner) : Prop := t.state = s.state
  refine (ends_manyWithin inv ?_ ?_ s.rest [] s rfl).imp ?_
  · intro budget nodes t ht _
    exact (h t).mono (fun _ u hu => hu.trans ht) fun _ u hu => hu.trans ht
  · intro nodes t ht _
    exact ht
  · rintro nodes t ⟨_, _, ht⟩
    exact ht

theorem Steady.leaf {read : Scan Leaf} (h : Steady read) :
    Steady (do return Node.leaf (← read)) :=
  h.bind fun _ => steady_pure _

end Rules

def SteadyInside (inner : Inner) : Prop :=
  ∀ read, inner = some read → ∀ form, form ≠ .substitution → Steady (read form)

theorem enclosure_steady (hi : SteadyInside inner) : Steady (enclosure inner d) := by
  apply steady_get
  intro s
  apply (steady_opened d).bind
  intro opening
  cases inner with
  | none => exact steady_fail _ _
  | some read =>
    have body : Steady (d.inBody (many d.goesOn (read d.form))) := by
      cases d with
      | commandSubstitution => exact steady_within _ _
      | doubleQuote => exact (hi read rfl .quotes nofun).many _
      | arithmetic | arithmeticGroup => exact (hi read rfl .arithmetic nofun).many _
    exact body.bind fun nodes => (steady_closed d s.pos).bind fun closing => steady_pure _

theorem attempt_steady (hi : SteadyInside inner) : Steady (attempt inner) := by
  intro s
  have first := enclosure_steady (d := .arithmetic) hi (s.note (.attempt s.pos))
  rw [ends_attempt]
  refine first.mono (fun _ _ h => h) ?_
  intro e t hstate
  split
  · exact hstate
  · exact (enclosure_steady (d := .commandSubstitution) hi (s.again e t)).mono
      (fun _ u hu => hu.trans hstate) fun _ u hu => hu.trans hstate

theorem expansion_steady (hi : SteadyInside inner) : Steady (expansion inner) := by
  intro s
  cases ho : s.outcome? with
  | some outcome =>
    rw [ends_recall ho]
    cases outcome.result <;> rfl
  | none =>
    rw [ends_expansion ho]
    refine (attempt_steady hi s).mono (fun _ _ h => h) ?_
    intro e t h
    split <;> exact h

theorem reference_steady (hi : SteadyInside inner) : Steady (reference inner) := by
  apply steady_get
  intro s
  split
  · exact steady_internal _
  split
  · exact expansion_steady hi
  split
  · exact enclosure_steady hi
  split
  · exact steady_fail _ _
  · exact (steady_take _ _).leaf

theorem escape_steady : Steady escape := steady_get fun _ => (steady_take _ _).leaf

theorem wordPart_steady (hi : SteadyInside inner) : Steady (wordPart inner) := by
  apply steady_get
  intro s
  split
  · exact (steady_take _ _).leaf
  · exact escape_steady
  · exact enclosure_steady hi
  · exact reference_steady hi
  · exact (steady_takeWhile _ _).leaf

theorem word_steady (hi : SteadyInside inner) : Steady (word inner) := by
  apply ((wordPart_steady hi).many inWord).bind
  intro nodes
  cases nodes with
  | nil => exact steady_internal _
  | cons node nodes => exact steady_pure _

theorem quotedPart_steady (hi : SteadyInside inner) : Steady (quotedPart inner) := by
  apply steady_get
  intro s
  split
  · exact escape_steady
  · exact reference_steady hi
  · exact (steady_takeWhile _ _).leaf

theorem arithmeticPart_steady (hi : SteadyInside inner) : Steady (arithmeticPart inner) := by
  apply steady_get
  intro s
  split
  · exact steady_internal _
  split
  · exact (steady_takeWhile _ _).leaf
  · exact (steady_take _ _).leaf
  · exact escape_steady
  · exact reference_steady hi
  · exact enclosure_steady hi
  split
  · exact (steady_take _ _).leaf
  split
  · exact (steady_takeWhile _ _).leaf
  split
  · exact (steady_take _ _).leaf
  · exact (steady_take _ _).leaf

theorem deeper_steady (levels : Nat) : SteadyInside (deeper levels) := by
  induction levels with
  | zero => nofun
  | succ levels ih =>
    rintro _ ⟨⟩ form hf
    cases form with
    | quotes => exact quotedPart_steady ih
    | substitution => exact absurd rfl hf
    | arithmetic => exact arithmeticPart_steady ih

end Scan

namespace Scanner

def Keeps (s t : Scanner) : Prop :=
  ∀ pos outcome, s.held? pos = some outcome → t.held? pos = some outcome

variable {s t u : Scanner}

theorem Keeps.trans (h : s.Keeps t) (k : t.Keeps u) : s.Keeps u :=
  fun pos outcome ho => k pos outcome (h pos outcome ho)

theorem keeps_of_outcomes (h : t.outcomes = s.outcomes) : s.Keeps t := by
  intro pos outcome ho
  rwa [held?, h]

/-- Only what was not in the table is recorded. -/
theorem Keeps.record (h : s.Keeps t) (hs : s.outcome? = none) (outcome : Outcome) :
    s.Keeps (t.record s.pos outcome) := by
  intro pos kept ho
  have hne : pos ≠ s.pos := by
    rintro rfl
    rw [show s.outcome? = some kept from ho] at hs
    nomatch hs
  rw [held?_record_of_ne hne]
  exact h pos kept ho

end Scanner

def Passage.table : Passage where
  Passes _ s _ t := s.Keeps t
  Fails s t := s.Keeps t
  Denied _ _ _ := True
  nil := Scanner.keeps_of_outcomes rfl
  append h k := h.trans k
  enter _ := Scanner.keeps_of_outcomes (by simp)
  attempted := Scanner.keeps_of_outcomes rfl
  take _ _ := Scanner.keeps_of_outcomes rfl
  rekind _ h := h
  ofWord h := h
  enclosed _ _ _ h _ := h
  retried _ hf _ h _ := hf.trans h
  retry_fails hf h := hf.trans h
  recalled _ _ := Scanner.keeps_of_outcomes rfl
  recalled_fails _ := Scanner.keeps_of_outcomes rfl
  kept ho _ h := h.record ho _
  kept_fails ho h := h.record ho _
  fail := Scanner.keeps_of_outcomes rfl
  left _ h := h.trans (Scanner.keeps_of_outcomes (by simp))
  fails h k := h.trans k

namespace Counting

variable {α : Type}

def after (count : Counting α) (c : Counter) : Counter :=
  match count c with
  | .ok _ t | .error _ t => t

/-- The routine, counted in any place, does what it does with the levels that are left there, and
ends with the depth and in the state that it began with. -/
structure Restores (count : Counting α) (routine : Inner → Scan α) : Prop where
  counts : ∀ c, count c = lift (routine (Scan.deeper (nestingLimit - c.depth))) c
  depth : ∀ c, (after count c).depth = c.depth
  state : ∀ c, (after count c).scanner.state = c.scanner.state

theorem restores_of_tracks {count : Counting α} {routine : Inner → Scan α}
    (h : ∀ depth, Tracks depth count (routine (Scan.deeper (nestingLimit - depth))))
    (hs : ∀ levels, Scan.Steady (routine (Scan.deeper levels))) : Restores count routine := by
  have counts (c : Counter) :
      count c = lift (routine (Scan.deeper (nestingLimit - c.depth))) c := h c.depth c.scanner
  refine ⟨counts, fun c => ?_, fun c => ?_⟩
  · rw [after, counts, lift]
    cases routine _ c.scanner <;> rfl
  · have steady := hs (nestingLimit - c.depth) c.scanner
    rw [after, counts, lift]
    unfold Scan.Ends at steady
    cases hrun : routine (Scan.deeper (nestingLimit - c.depth)) c.scanner with
    | ok a t => rwa [hrun] at steady
    | error e t => rwa [hrun] at steady

theorem deeper_beneath (depth : Nat) :
    Beneath depth (elements nestingLimit) (Scan.deeper (nestingLimit - depth)) :=
  elements_beneath nestingLimit depth (Nat.le_add_right _ _)

def element : Counting Node := scriptPart (elements nestingLimit)

theorem element_tracks : Tracks 0 element Scan.element := scriptPart_tracks (deeper_beneath 0)

end Counting

namespace Lexer

variable {source : List UInt8} {lexer after : Lexer}

theorem get_eq_error {e : LexError} (hget : lexer.get = (.error e, after)) :
    lexer.scanner.rest ≠ [] ∧ ∃ s, Scan.element lexer.scanner = .error e s ∧
      after = { lexer with scanner := s } := by
  unfold get at hget
  split at hget
  · nomatch hget
  · rename_i hne
    refine ⟨by simpa using hne, ?_⟩
    cases hrun : Scan.element lexer.scanner with
    | ok node s =>
      rw [hrun] at hget
      nomatch hget
    | error e' s =>
      rw [hrun] at hget
      obtain ⟨he, rfl⟩ := Prod.mk.inj hget
      obtain rfl := Except.error.inj he
      exact ⟨s, rfl, rfl⟩

/-- What a call that fails leaves as it was: the state, the mark of the iteration, the source, all
that the table held and the count of open constructs. It has only gone on in the source. -/
structure Intact (lexer : Lexer) (e : LexError) (after : Lexer) : Prop where
  state : after.state = lexer.state
  failed : after.failed = lexer.failed
  source : after.source = lexer.source
  table : lexer.scanner.Keeps after.scanner
  forward : lexer.pos ≤ after.pos
  within : after.pos ≤ lexer.source.length
  depth : Counting.element ⟨lexer.scanner, 0⟩ = .error e ⟨after.scanner, 0⟩

theorem get_source (lexer : Lexer) : lexer.get.2.source = lexer.source := by
  unfold get
  split
  · rfl
  · split <;> rfl

theorem Reachable.source_eq (h : Reachable source lexer) : lexer.source = source := by
  induction h with
  | start => rfl
  | get _ ih => rw [get_source, ih]
  | @next lexer _ ih =>
    rcases next_cases lexer with hn | ⟨failed, hn⟩
    · rw [hn, ih]
    · rw [hn]
      exact (get_source lexer).trans ih

theorem intact_of_error {e : LexError} (h : Reachable source lexer)
    (hget : lexer.get = (.error e, after)) : Intact lexer e after := by
  obtain ⟨hne, s, hrun, rfl⟩ := get_eq_error hget
  have failing := (Scan.element_ends h.fits hne).of_error hrun
  have keeps := (Passage.table.element_along (fun _ _ _ _ _ _ => trivial) _).of_error hrun
  refine ⟨failing.state, rfl, rfl, keeps, failing.forward, ?_, ?_⟩
  · rw [h.source_eq]
    exact failing.fits.within
  · have tracks := Counting.element_tracks lexer.scanner
    rwa [Counting.lift, hrun] at tracks

/-- A call that fails leaves intact what it did not read, and so does every routine that opens a
construct, at any depth and however it ends. -/
theorem get_restores :
    (∀ source lexer e after, Reachable source lexer → lexer.get = (.error e, after) →
      Intact lexer e after) ∧
    Counting.Restores (Counting.word (Counting.elements nestingLimit)) Scan.word ∧
    Counting.Restores (Counting.reference (Counting.elements nestingLimit)) Scan.reference ∧
    Counting.Restores (Counting.expansion (Counting.elements nestingLimit)) Scan.expansion ∧
    ∀ d, Counting.Restores (Counting.enclosure (Counting.elements nestingLimit) d)
      (Scan.enclosure · d) := by
  refine ⟨fun _ _ _ _ => intact_of_error, ?_, ?_, ?_, fun d => ?_⟩
  · exact Counting.restores_of_tracks (fun _ => Counting.word_tracks (Counting.deeper_beneath _))
      fun _ => Scan.word_steady (Scan.deeper_steady _)
  · exact Counting.restores_of_tracks
      (fun _ => Counting.reference_tracks (Counting.deeper_beneath _))
      fun _ => Scan.reference_steady (Scan.deeper_steady _)
  · exact Counting.restores_of_tracks
      (fun _ => Counting.expansion_tracks (Counting.deeper_beneath _))
      fun _ => Scan.expansion_steady (Scan.deeper_steady _)
  · exact Counting.restores_of_tracks
      (fun _ => Counting.enclosure_tracks (Counting.deeper_beneath _) d)
      fun _ => Scan.enclosure_steady (Scan.deeper_steady _)

/-- The third call opens quotes and fails in them, among the arguments of a command. -/
theorem get_restores_quotes :
    let lexer := (start (ascii "$((1)) \"$\x7b")).get.2.get.2
    let e : LexError := ⟨.unsupported "`$\x7b...\x7d` parameter expansion", 8⟩
    lexer.get.1 = .error e ∧ lexer.state = .command ∧ lexer.get.2.state = .command ∧
      (lexer.scanner.held? 0).isSome ∧ (lexer.get.2.scanner.held? 0).isSome ∧
      Intact lexer e lexer.get.2 := by
  intro lexer e
  have hget : lexer.get.1 = .error e := by rfl
  have intact : Intact lexer e lexer.get.2 :=
    get_restores.1 _ _ _ _ (.get (.get .start)) (Prod.ext hget rfl)
  have hstate : lexer.state = .command := by rfl
  exact ⟨hget, hstate, intact.state.trans hstate, by rfl, by rfl, intact⟩

end Lexer

end ShellLex
