import ShellLex.Proofs.Retries
import ShellLex.Proofs.Termination.CallTree
/-!
Calls go forward. Whatever the calls before it came to, a routine calls further on in the source or,
where it stands, a smaller routine; and the body of a construct begins further on than the
construct. The table may send a scan ahead and a `$((` that is read again sends it back, but never
to before the routine that reads it.
-/
namespace ShellLex

/-- The scanner stands in the source, and whatever its table holds ends in the source, no earlier
than it begins, and later if it is a node with bytes to begin with. -/
structure Scanner.Bounded (source : List UInt8) (s : Scanner) : Prop extends s.In source where
  stops : ∀ table, s.outcomes = some table → ∀ pos outcome, (pos, outcome) ∈ table →
    pos ≤ outcome.stop ∧ outcome.stop ≤ source.length ∧
      ∀ node, outcome.result = .ok node → pos < source.length → pos < outcome.stop

structure Scanner.Goes (source : List UInt8) (s t : Scanner) : Prop where
  bounded : t.Bounded source
  forward : s.pos ≤ t.pos

/-- The nodes were read on the way from `s` to `t`, which takes bytes if there were any left. -/
structure Scanner.Gains (source : List UInt8) (s : Scanner) (nodes : List Node) (t : Scanner) :
    Prop extends s.Goes source t where
  further : s.rest ≠ [] → nodes ≠ [] → s.pos < t.pos

namespace Scanner

variable {source : List UInt8} {s t u : Scanner}

theorem In.length (h : s.In source) : s.rest.length = source.length - s.pos := by
  rw [h.rest, List.length_drop]

theorem In.rest_ne_nil (h : s.In source) : s.rest ≠ [] ↔ s.pos < source.length := by
  rw [← List.length_pos_iff, h.length]
  omega

theorem In.pos_skip (h : s.In source) {size : Nat} (hs : size ≤ source.length - s.pos) :
    (s.skip size).pos = s.pos + size :=
  skip_pos (by rw [h.length]; exact hs)

namespace Bounded

theorem stay (h : s.Bounded source) : s.Goes source s := ⟨h, Nat.le_refl _⟩

theorem skip (h : s.Bounded source) (size : Nat) : s.Goes source (s.skip size) :=
  ⟨⟨h.toIn.skip size, h.stops⟩, Nat.le_add_right _ _⟩

theorem enter (h : s.Bounded source) (state : State) : s.Goes source (s.enter state) :=
  ⟨⟨h.toIn.enter state, by simpa using h.stops⟩, by simp⟩

theorem note (h : s.Bounded source) (event : Event) : s.Goes source (s.note event) :=
  ⟨⟨⟨h.rest, h.within⟩, h.stops⟩, Nat.le_refl _⟩

theorem again (h : s.Bounded source) (k : t.Bounded source) (e : LexError) :
    s.Goes source (s.again e t) :=
  ⟨⟨⟨h.rest, h.within⟩, k.stops⟩, Nat.le_refl _⟩

theorem record (h : s.Bounded source) {pos : Nat} {outcome : Outcome} (hp : pos ≤ outcome.stop)
    (hs : outcome.stop ≤ source.length)
    (hn : ∀ node, outcome.result = .ok node → pos < source.length → pos < outcome.stop) :
    s.Goes source (s.record pos outcome) := by
  refine ⟨⟨⟨h.rest, h.within⟩, ?_⟩, Nat.le_refl _⟩
  intro table ht p o hm
  obtain ⟨old, ho, rfl⟩ := Option.map_eq_some_iff.mp ht
  rcases List.mem_cons.mp hm with heq | hm
  · obtain ⟨rfl, rfl⟩ := Prod.mk.inj heq
    exact ⟨hp, hs, hn⟩
  · exact h.stops old ho p o hm

/-- Where there are bytes, to skip some is a gain. -/
theorem skip_gains (h : s.Bounded source) {size : Nat} (nodes : List Node)
    (hs : s.rest ≠ [] → 0 < size) : s.Gains source nodes (s.skip size) := by
  refine ⟨h.skip size, fun hr _ => ?_⟩
  have := hs hr
  have hl := List.length_pos_iff.mpr hr
  simp only [Scanner.skip, List.length_take]
  omega

end Bounded

namespace Goes

theorem trans (h : s.Goes source t) (k : t.Goes source u) : s.Goes source u :=
  ⟨k.bounded, Nat.le_trans h.forward k.forward⟩

theorem enter (h : s.Goes source t) (state : State) : s.Goes source (t.enter state) :=
  h.trans (h.bounded.enter state)

end Goes

namespace Gains

variable {nodes nodes' : List Node}

theorem congr (h : s.Gains source nodes t) (hn : nodes' ≠ [] → nodes ≠ []) :
    s.Gains source nodes' t :=
  ⟨h.toGoes, fun hr hne => h.further hr (hn hne)⟩

theorem enter (h : s.Gains source nodes t) (state : State) :
    s.Gains source nodes (t.enter state) :=
  ⟨h.toGoes.enter state, fun hr hn => by simpa using h.further hr hn⟩

theorem of_enter {state : State} (h : (s.enter state).Gains source nodes t) :
    s.Gains source nodes t :=
  ⟨⟨h.bounded, by simpa using h.forward⟩, by simpa using h.further⟩

end Gains

end Scanner

namespace Routine

/-- Among routines at one offset the smaller ones are called by the greater ones. -/
def rank : Routine → Nat
  | .construct _ => 0
  | .attempt => 1
  | .expansion => 2
  | .reference => 3
  | .part | .element .quotes | .element .arithmetic => 4
  | .parts => 5
  | .word => 6
  | .element .substitution => 7
  | .call | .elements _ => 8
  | .body _ => 9

/-- The routine `r'` at `t` lies further on than `r` at `s`, or it is no earlier and smaller. A loop
that goes on is no smaller, so it goes on further on. -/
def Below (r' : Routine) (t : Scanner) (r : Routine) (s : Scanner) : Prop :=
  s.pos < t.pos ∨ s.pos ≤ t.pos ∧ r'.rank < r.rank

def Forward (source : List UInt8) (r : Routine) (s : Scanner) : Scan.Result r.Answer → Prop
  | .ok answer t => s.Gains source (r.nodes answer) t
  | .error _ t => s.Goes source t

theorem forward_iff {source : List UInt8} {r : Routine} {s : Scanner} {scan : Scan r.Answer} :
    r.Forward source s (scan s) ↔
      Scan.Ends scan s (fun answer t => s.Gains source (r.nodes answer) t)
        fun _ t => s.Goes source t := by
  unfold Scan.Ends
  cases scan s <;> rfl

end Routine

/-- All calls of the tree are below `r` at `s`, and all bodies that it enters begin later, but for
that of a group at the end of the source, which has nothing to read. It ends as `ok` or `bad` says,
provided that what it calls goes forward. -/
def CallTree.Descends (source : List UInt8) (r : Routine) (s : Scanner) {α : Type}
    (ok : α → Scanner → Prop) (bad : LexError → Scanner → Prop) : CallTree α → Prop
  | .ends (.ok a t) => ok a t
  | .ends (.error e t) => bad e t
  | .calls r' t next => t.Bounded source ∧ r'.Below t r s ∧
      ∀ answer, r'.Forward source t answer → (next answer).Descends source r s ok bad
  | .enters d _ t next => t.Bounded source ∧
      (s.pos < t.pos ∨ d = .arithmeticGroup ∧ t.rest = []) ∧
      ∀ answer, (Routine.body d).Forward source t answer →
        (next answer).Descends source r s ok bad

namespace CallTree

variable {source : List UInt8} {r r' : Routine} {s t : Scanner} {α β : Type}
  {bad bad' : LexError → Scanner → Prop} {ok ok' : α → Scanner → Prop}

theorem Descends.mono {c : CallTree α} (h : c.Descends source r s ok bad)
    (hok : ∀ a t, ok a t → ok' a t) (hbad : ∀ e t, bad e t → bad' e t) :
    c.Descends source r s ok' bad' := by
  induction c with
  | ends result =>
    cases result with
    | ok a t => exact hok a t h
    | error e t => exact hbad e t h
  | calls r' t next ih | enters d start t next ih =>
    obtain ⟨ht, hb, hnext⟩ := h
    exact ⟨ht, hb, fun answer ha => ih answer (hnext answer ha)⟩

theorem descends_after {c : CallTree α} {f : Scan.Result α → CallTree β}
    {ok : β → Scanner → Prop} :
    (c.after f).Descends source r s ok bad ↔
      c.Descends source r s (fun a t => (f (.ok a t)).Descends source r s ok bad)
        (fun e t => (f (.error e t)).Descends source r s ok bad) := by
  induction c with
  | ends result => cases result <;> rfl
  | calls r' t next ih | enters d start t next ih => simp only [after, Descends, ih]

end CallTree

namespace Calling

variable {source : List UInt8} {r r' : Routine} {s t : Scanner} {α β : Type}
  {bad : LexError → Scanner → Prop} {ok : α → Scanner → Prop}

/-- What is shown of all answers is shown of those that are nodes and of those that are errors. -/
theorem forall_forward {ok : r'.Answer → Scanner → Prop} :
    (∀ answer, r'.Forward source t answer → CallTree.Descends source r s ok bad (.ends answer)) ↔
      (∀ answer u, t.Gains source (r'.nodes answer) u → ok answer u) ∧
        ∀ e u, t.Goes source u → bad e u := by
  refine ⟨fun h => ⟨fun a u hu => h (.ok a u) hu, fun e u hu => h (.error e u) hu⟩, ?_⟩
  rintro ⟨hok, hbad⟩ answer ha
  cases answer with
  | ok a u => exact hok a u ha
  | error e u => exact hbad e u ha

def Descends (source : List UInt8) (r : Routine) (s : Scanner) (x : Calling α) (t : Scanner)
    (ok : α → Scanner → Prop) (bad : LexError → Scanner → Prop) : Prop :=
  CallTree.Descends source r s ok bad (x t)

@[simp] theorem descends_pure (a : α) :
    Descends source r s (pure a) t ok bad ↔ ok a t := Iff.rfl

@[simp] theorem descends_get {ok : Scanner → Scanner → Prop} :
    Descends source r s get t ok bad ↔ ok t t := Iff.rfl

@[simp] theorem descends_lift (scan : Scan α) :
    Descends source r s (liftM scan) t ok bad ↔ Scan.Ends scan t ok bad := by
  change CallTree.Descends source r s ok bad (.ends (scan t)) ↔ _
  unfold Scan.Ends
  cases scan t <;> rfl

@[simp] theorem descends_bind {x : Calling β} {f : β → Calling α} :
    Descends source r s (x >>= f) t ok bad ↔
      Descends source r s x t (fun b u => Descends source r s (f b) u ok bad) bad :=
  CallTree.descends_after

@[simp] theorem descends_ask {ok : r'.Answer → Scanner → Prop} :
    Descends source r s (ask r') t ok bad ↔ t.Bounded source ∧ r'.Below t r s ∧
      (∀ answer u, t.Gains source (r'.nodes answer) u → ok answer u) ∧
      ∀ e u, t.Goes source u → bad e u :=
  and_congr_right fun _ => and_congr_right fun _ => forall_forward

@[simp] theorem descends_enter {d : Delimiter} {start : Nat} {ok : List Node → Scanner → Prop} :
    Descends source r s (enter d start) t ok bad ↔ t.Bounded source ∧
      (s.pos < t.pos ∨ d = .arithmeticGroup ∧ t.rest = []) ∧
      (∀ nodes u, t.Gains source nodes u → ok nodes u) ∧
      ∀ e u, t.Goes source u → bad e u :=
  and_congr_right fun _ => and_congr_right fun _ => forall_forward

@[simp] theorem descends_within {state : State} {x : Calling α} :
    Descends source r s (within state x) t ok bad ↔
      Descends source r s x (t.enter state) (fun a u => ok a (u.enter t.state))
        (fun e u => bad e (u.enter t.state)) :=
  CallTree.descends_after

theorem Descends.mono {x : Calling α} {ok' : α → Scanner → Prop}
    {bad' : LexError → Scanner → Prop} (h : Descends source r s x t ok bad)
    (hok : ∀ a u, ok a u → ok' a u) (hbad : ∀ e u, bad e u → bad' e u) :
    Descends source r s x t ok' bad' := CallTree.Descends.mono h hok hbad

theorem Descends.imp {x : Calling α} {ok' : α → Scanner → Prop}
    (h : Descends source r s x t ok bad) (hok : ∀ a u, ok a u → ok' a u) :
    Descends source r s x t ok' bad := h.mono hok fun _ _ he => he

/-- A call of a smaller routine from where the caller stands. -/
theorem ask_here (hs : s.Bounded source) (hr : r'.rank < r.rank) :
    Descends source r s (ask r') s (fun answer t => s.Gains source (r'.nodes answer) t)
      fun _ t => s.Goes source t :=
  descends_ask.mpr ⟨hs, Or.inr ⟨Nat.le_refl _, hr⟩, fun _ _ h => h, fun _ _ h => h⟩

/-- The next round of a loop. -/
theorem ask_later (ht : t.Bounded source) (hp : s.pos < t.pos) :
    Descends source r s (ask r') t (fun answer u => t.Gains source (r'.nodes answer) u)
      fun _ u => t.Goes source u :=
  descends_ask.mpr ⟨ht, Or.inl hp, fun _ _ h => h, fun _ _ h => h⟩

end Calling

def Routine.Descends (source : List UInt8) (r : Routine) (s : Scanner) : Prop :=
  r.tree.Descends source r s s (fun answer t => s.Gains source (r.nodes answer) t)
    fun _ t => s.Goes source t

namespace Scan

variable {source : List UInt8} {s : Scanner}

def Moves (source : List UInt8) (scan : Scan Node) (s : Scanner) : Prop :=
  Ends scan s (fun node t => s.Gains source [node] t) fun _ t => s.Goes source t

theorem rest_ne_nil_of_goesOn {d : Delimiter} (h : d.goesOn s = true) : s.rest ≠ [] := by
  intro hr
  simp [Delimiter.goesOn, Scanner.role?, hr] at h

section Leaves

theorem take_moves (hs : s.Bounded source) (kind : Kind) {size : Nat}
    (h : s.rest ≠ [] → 0 < size) : Moves source (do return .leaf (← take size kind)) s :=
  hs.skip_gains _ h

/-- A run that is empty is refused, so one that is taken is a gain. -/
theorem takeWhile_gains (hs : s.Bounded source) (accept : UInt8 → Bool) (kind : Kind) :
    Ends (takeWhile accept kind) s (fun _ t => ∀ nodes, s.Gains source nodes t)
      fun _ t => s.Goes source t := by
  simp only [takeWhile, ends_bind, ends_get]
  split
  · exact hs.stay
  · rename_i hsize
    exact fun nodes => hs.skip_gains nodes fun _ => Nat.pos_of_ne_zero hsize

theorem takeWhile_moves (hs : s.Bounded source) (accept : UInt8 → Bool) (kind : Kind) :
    Moves source (do return .leaf (← takeWhile accept kind)) s := by
  rw [Moves, ends_bind]
  exact (takeWhile_gains hs accept kind).imp fun _ _ h => h _

theorem escape_moves (hs : s.Bounded source) : Moves source escape s := by
  refine hs.skip_gains _ fun hr => ?_
  obtain ⟨b, bytes, hr⟩ := List.exists_cons_of_ne_nil hr
  rw [hr]
  exact Lexeme.escape_bounds.1

theorem wordPart_moves (hs : s.Bounded source) (hq : s.role? ≠ some .quote)
    (hd : s.role? ≠ some .dollar) : Moves source (wordPart none) s := by
  simp only [Moves, wordPart, ends_bind, ends_get]
  split
  · exact take_moves hs .term fun _ => Nat.one_pos
  · exact escape_moves hs
  · exact absurd ‹_› hq
  · exact absurd ‹_› hd
  · exact takeWhile_moves hs isPlain .term

theorem quotedPart_moves (hs : s.Bounded source) (hd : s.role? ≠ some .dollar) :
    Moves source (quotedPart none) s := by
  simp only [Moves, quotedPart, ends_bind, ends_get]
  split
  · exact escape_moves hs
  · exact absurd ‹_› hd
  · exact takeWhile_moves hs isQuotable .term

theorem arithmeticPart_moves (hs : s.Bounded source) (hd : s.role? ≠ some .dollar)
    (hp : s.role? ≠ some .openParen) : Moves source (arithmeticPart none) s := by
  simp only [Moves, arithmeticPart, ends_bind, ends_get]
  split
  · exact hs.stay
  rename_i b bytes hr
  rw [Scanner.role?_cons hr] at hd hp
  split
  · exact takeWhile_moves hs isBlank .space
  · exact take_moves hs .newLine fun _ => Nat.one_pos
  · exact escape_moves hs
  · exact absurd (congrArg some ‹_›) hd
  · exact absurd (congrArg some ‹_›) hp
  split
  · rename_i hdigit
    refine take_moves hs .variable fun _ => ?_
    rw [hr]
    exact (Lexeme.number_bounds hdigit).1
  split
  · exact takeWhile_moves hs isNameByte .variable
  split
  · rename_i ho
    exact take_moves hs .term fun _ => (Lexeme.arithmeticOperator?_bounds ho).1
  · exact take_moves hs .unknown fun _ => Nat.one_pos

/-- A reference that opens nothing is a variable or refused. -/
theorem reference_moves (hs : s.Bounded source) (he : ¬ (ascii "$((").isPrefixOf s.rest)
    (hc : ¬ (ascii "$(").isPrefixOf s.rest) : Moves source (reference none) s := by
  simp only [Moves, reference, ends_bind, ends_get, if_neg he, if_neg hc]
  split
  · exact hs.stay
  split
  · exact hs.stay
  · refine take_moves hs .variable fun hr => ?_
    obtain ⟨b, bytes, hr⟩ := List.exists_cons_of_ne_nil hr
    rw [hr]
    exact Lexeme.reference_bounds.1

theorem caseIn_moves (hs : s.Bounded source) (b : UInt8) : Moves source (caseIn b) s := by
  rw [Moves, caseIn]
  split
  · exact hs.stay
  · simp only [ends_bind, ends_get]
    refine (takeWhile_gains hs isPlain .keyword).imp ?_
    intro leaf t h
    split
    · exact (h _).enter .casePattern
    · exact (h []).toGoes

theorem operator_gains (hs : s.Bounded source) {b : UInt8} {bytes : List UInt8}
    (hr : s.rest = b :: bytes) :
    Ends operator s (fun _ t => ∀ nodes, s.Gains source nodes t) fun _ t => s.Goes source t := by
  intro nodes
  refine hs.skip_gains nodes fun _ => ?_
  rw [hr]
  exact Lexeme.operator_bounds.1

theorem commandPart_moves (hs : s.Bounded source) {b : UInt8} {bytes : List UInt8}
    (hr : s.rest = b :: bytes) (hb : role b ∈ [.separator, .openParen, .closeParen, .redirection]) :
    Moves source (commandPart none (role b)) s := by
  have operates (state : State) : Ends operator (s.enter state)
      (fun _ t => ∀ nodes, s.Gains source nodes t) fun _ t => s.Goes source t := by
    have hr' : (s.enter state).rest = b :: bytes := by rw [Scanner.enter_rest, hr]
    refine (operator_gains (hs.enter state).bounded hr').mono ?_ ?_
    · exact fun _ t h nodes => (h nodes).of_enter
    · exact fun _ t h => (hs.enter state).trans h
  unfold commandPart
  cases hrole : role b with
  | separator | openParen | closeParen =>
    simp only [Moves, ends_bind, ends_enter]
    refine (operates .normal).imp ?_
    intro leaf t h
    split
    · exact (h _).enter .casePattern
    · exact h _
  | redirection =>
    simp only [Moves, ends_bind, ends_enter]
    exact (operates .command).imp fun _ _ h => h _
  | _ => simp [hrole] at hb

theorem casePart_moves (hs : s.Bounded source) {b : UInt8}
    (hb : role b ∈ [.separator, .openParen, .closeParen, .redirection]) :
    Moves source (casePart none b) s := by
  unfold casePart
  cases hrole : role b with
  | openParen => exact take_moves hs .operator fun _ => Nat.one_pos
  | closeParen => exact (hs.skip_gains _ fun _ => Nat.one_pos).enter .normal
  | separator | redirection => exact hs.stay
  | _ => simp [hrole] at hb

theorem caseSubject_moves (hs : s.Bounded source) {b : UInt8}
    (hb : role b ∈ [.separator, .openParen, .closeParen, .redirection]) :
    Moves source (caseSubject none b) s := by
  unfold caseSubject
  cases hrole : role b with
  | separator | openParen | closeParen | redirection => exact hs.stay
  | _ => simp [hrole] at hb

/-- What begins no word makes no calls, and neither does what should be `in`. -/
theorem scriptPart_moves (hs : s.Bounded source) (hw : inWord s = false ∨ s.state = .caseIn) :
    Moves source (scriptPart none) s := by
  simp only [Moves, scriptPart, ends_bind, ends_get]
  split
  · exact hs.stay
  rename_i b bytes hr
  rw [inWord, Scanner.role?_cons hr] at hw
  cases hrole : role b with
  | blank => exact takeWhile_moves hs isBlank .space
  | hash => exact takeWhile_moves hs _ .comment
  | newline =>
    dsimp only
    split
    · exact ((hs.enter .normal).bounded.skip_gains _ fun _ => Nat.one_pos).of_enter
    · exact take_moves hs .newLine fun _ => Nat.one_pos
  | mark | backslash | quote | dollar | plain =>
    have hstate : s.state = .caseIn := by simpa [hrole, Role.endsWord] using hw
    simp only [hstate]
    exact caseIn_moves hs b
  | separator | openParen | closeParen | redirection =>
    have hb : role b ∈ [.separator, .openParen, .closeParen, .redirection] := by simp [hrole]
    cases s.state with
    | normal | command =>
      have h := commandPart_moves hs hr hb
      rw [hrole] at h
      exact h
    | caseSubject => exact caseSubject_moves hs hb
    | caseIn => exact caseIn_moves hs b
    | casePattern => exact casePart_moves hs hb

end Leaves

end Scan

namespace Routine

open Calling

variable {source : List UInt8} {s : Scanner}

def Moves (source : List UInt8) (r : Routine) (s : Scanner) (x : Calling Node) : Prop :=
  Calling.Descends source r s x s (fun node t => s.Gains source [node] t)
    fun _ t => s.Goes source t

/-- A part or an element that makes no call. -/
theorem lift_moves {r : Routine} {scan : Scan Node} (h : Scan.Moves source scan s) :
    Moves source r s (liftM scan) := (descends_lift scan).mpr h

theorem construct_descends (hs : s.Bounded source) (d : Delimiter) :
    (construct d).Descends source s := by
  simp only [Routine.Descends, tree, Calling.construct, descends_bind, descends_get, descends_lift,
    Scan.ends_opened]
  split
  · rename_i ho
    have hlen : 0 < d.opening.length := by cases d <;> decide
    have hopen : ∀ nodes, s.Gains source nodes (s.skip d.opening.length) :=
      fun nodes => hs.skip_gains nodes fun _ => hlen
    have ahead := (hopen []).toGoes
    have hlt : s.rest ≠ [] → s.pos < (s.skip d.opening.length).pos :=
      fun hr => (hopen [.word []]).further hr (List.cons_ne_nil _ _)
    have later : s.pos < (s.skip d.opening.length).pos ∨
        d = .arithmeticGroup ∧ (s.skip d.opening.length).rest = [] := by
      by_cases hr : s.rest = []
      · -- no opening but that of a group is found where nothing is left
        rw [hr, List.prefix_nil] at ho
        exact Or.inr ⟨ho.elim id fun hnil => absurd hlen (by simp [hnil]), by simp [hr]⟩
      · exact Or.inl (hlt hr)
    rw [descends_enter]
    refine ⟨ahead.bounded, later, ?_, fun e u hu => ahead.trans hu⟩
    intro nodes u hu
    rw [Scan.ends_closed]
    split
    · have hclose := hu.toGoes.trans (hu.bounded.skip d.closing.length)
      exact ⟨ahead.trans hclose, fun hr _ => Nat.lt_of_lt_of_le (hlt hr) hclose.forward⟩
    split <;> exact ahead.trans hu.toGoes
  · exact hs.stay

/-- Both readings begin where the routine stands, and both are smaller. -/
theorem attempt_descends (hs : s.Bounded source) : attempt.Descends source s := by
  have hnote := hs.note (.attempt s.pos)
  refine CallTree.descends_after.mpr (descends_ask.mpr ⟨hnote.bounded,
    Or.inr ⟨hnote.forward, by decide⟩, ?_, ?_⟩)
  · intro node t ht
    exact ⟨hnote.trans ht.toGoes, ht.further⟩
  · intro e t ht
    dsimp only
    split
    · exact hnote.trans ht
    · -- the table may have grown, but the second reading begins where the first one did
      have hagain := hs.again ht.bounded e
      refine descends_ask.mpr ⟨hagain.bounded, Or.inr ⟨hagain.forward, by decide⟩, ?_, ?_⟩
      · intro node u hu
        exact ⟨hagain.trans hu.toGoes, hu.further⟩
      · exact fun e' u hu => hagain.trans hu

/-- What is recalled has a bound by the table; what is kept for the table has the same. -/
theorem expansion_descends (hs : s.Bounded source) : expansion.Descends source s := by
  simp only [Routine.Descends, Calling.Descends, tree, Calling.expansion]
  cases ho : s.outcome? with
  | some outcome =>
    obtain ⟨table, ht, hm⟩ := Scan.outcome?_mem ho
    obtain ⟨hp, hstop, hn⟩ := hs.stops table ht _ _ hm
    have hskip := hs.skip (outcome.stop - s.pos)
    have hpos : (s.skip (outcome.stop - s.pos)).pos = s.pos + (outcome.stop - s.pos) :=
      hs.pos_skip (by omega)
    refine (descends_lift (Scan.expansion none)).mpr ((Scan.ends_recall ho).mpr ?_)
    cases hres : outcome.result with
    | ok node =>
      refine ⟨hskip, fun hr _ => ?_⟩
      have := hn node hres (hs.rest_ne_nil.mp hr)
      omega
    | error e => exact hskip
  | none =>
    refine CallTree.descends_after.mpr (descends_ask.mpr ⟨hs,
      Or.inr ⟨Nat.le_refl _, by decide⟩, ?_, ?_⟩)
    · intro node t ht
      have hrecord : t.Goes source (t.record s.pos ⟨.ok node, t.pos⟩) :=
        ht.bounded.record ht.forward ht.bounded.within fun _ _ hlt =>
          ht.further (hs.rest_ne_nil.mpr hlt) (List.cons_ne_nil _ _)
      exact ⟨ht.toGoes.trans hrecord, ht.further⟩
    · intro e t ht
      simp only [CallTree.Descends]
      split
      · exact ht
      · exact ht.trans (ht.bounded.record ht.forward ht.bounded.within nofun)

theorem reference_descends (hs : s.Bounded source) : reference.Descends source s := by
  simp only [Routine.Descends, tree, Calling.reference, descends_bind, descends_get]
  split
  · exact (descends_lift _).mpr hs.stay
  split
  · exact ask_here hs (by decide)
  rename_i he
  split
  · exact ask_here hs (by decide)
  · rename_i hc
    exact lift_moves (Scan.reference_moves hs he hc)

theorem part_descends (hs : s.Bounded source) : part.Descends source s := by
  simp only [Routine.Descends, tree, Calling.part, descends_bind, descends_get]
  split
  · exact ask_here hs (by decide)
  · exact ask_here hs (by decide)
  · rename_i hq hd
    exact lift_moves (Scan.wordPart_moves hs hq hd)

theorem word_descends (hs : s.Bounded source) : word.Descends source s := by
  simp only [Routine.Descends, tree, Calling.word, descends_bind]
  refine (ask_here hs (by decide)).imp ?_
  intro nodes t ht
  cases nodes with
  | nil => exact ht.toGoes
  | cons node nodes => exact ht.congr fun _ => List.cons_ne_nil _ _

/-- A node that a loop reads is a gain, so the loop goes on later than where it stands. -/
theorem loop_descends {r : Routine} {x : Calling Node} {y : Calling (List Node)}
    (hr : s.rest ≠ [])
    (hx : Moves source r s x)
    (hy : ∀ t, t.Bounded source → s.pos < t.pos → Calling.Descends source r s y t
      (fun nodes u => t.Gains source nodes u) fun _ u => t.Goes source u) :
    Calling.Descends source r s (do return (← x) :: (← y)) s
      (fun nodes t => s.Gains source nodes t) fun _ t => s.Goes source t := by
  simp only [descends_bind, descends_pure]
  refine hx.imp ?_
  intro node t ht
  have hlt := ht.further hr (List.cons_ne_nil _ _)
  refine (hy t ht.bounded hlt).mono ?_ fun _ _ hu => ht.toGoes.trans hu
  intro nodes u hu
  exact ⟨ht.toGoes.trans hu.toGoes, fun _ _ => Nat.lt_of_lt_of_le hlt hu.forward⟩

theorem parts_descends (hs : s.Bounded source) : parts.Descends source s := by
  simp only [Routine.Descends, tree, Calling.parts]
  rw [descends_bind, descends_get]
  split
  · rename_i hw
    obtain ⟨b, bytes, hr, _⟩ := Scan.inWord_cases hw
    exact loop_descends (by simp [hr]) (ask_here hs (by decide)) fun t => ask_later
  · exact ⟨hs.stay, fun _ h => absurd rfl h⟩

theorem elements_descends (hs : s.Bounded source) (d : Delimiter) :
    (elements d).Descends source s := by
  simp only [Routine.Descends, tree, Calling.elements]
  rw [descends_bind, descends_get]
  split
  · rename_i hm
    have hr := Scan.rest_ne_nil_of_goesOn hm
    have hrank : (Routine.element d.form).rank < (Routine.elements d).rank := by
      cases d <;> decide
    exact loop_descends hr (ask_here hs hrank) fun t => ask_later
  · exact ⟨hs.stay, fun _ h => absurd rfl h⟩

theorem body_descends (hs : s.Bounded source) (d : Delimiter) : (body d).Descends source s := by
  have hrank : (Routine.elements d).rank < (Routine.body d).rank := Nat.lt_add_one 8
  cases d with
  | commandSubstitution =>
    simp only [Routine.Descends, tree, Calling.inBody, descends_within]
    have henter := hs.enter .normal
    refine descends_ask.mpr ⟨henter.bounded, Or.inr ⟨henter.forward, hrank⟩, ?_, ?_⟩
    · exact fun nodes u hu => hu.of_enter.enter s.state
    · exact fun e u hu => (henter.trans hu).enter s.state
  | doubleQuote | arithmetic | arithmeticGroup => exact ask_here hs hrank

/-- A state that is entered after a word takes nothing from it. -/
theorem enter_descends {r : Routine} {nodes : List Node} {t : Scanner} (state : State)
    (answer : Node) (ht : s.Gains source [.word nodes] t) :
    Calling.Descends source r s (do Scan.enter state; return answer) t
      (fun node u => s.Gains source [node] u) fun _ u => s.Goes source u :=
  (ht.enter state).congr fun _ => List.cons_ne_nil _ _

theorem ask_word (hs : s.Bounded source) :
    Calling.Descends source (element .substitution) s (ask word) s
      (fun nodes t => s.Gains source [.word nodes] t) fun _ t => s.Goes source t :=
  ask_here hs (by decide)

theorem commandWord_moves (hs : s.Bounded source) :
    Moves source (element .substitution) s commandWord := by
  rw [Moves, commandWord, descends_bind, descends_get, descends_bind]
  refine (ask_word hs).imp ?_
  intro nodes t ht
  split
  · exact enter_descends _ _ ht
  · exact enter_descends _ _ ht

theorem caseSubject_moves (hs : s.Bounded source) :
    Moves source (element .substitution) s caseSubject := by
  rw [Moves, caseSubject, descends_bind]
  exact (ask_word hs).imp fun nodes t ht => enter_descends _ _ ht

theorem casePart_moves (hs : s.Bounded source) :
    Moves source (element .substitution) s casePart := by
  rw [Moves, casePart, descends_bind]
  refine (ask_word hs).imp ?_
  intro nodes t ht
  split
  · exact enter_descends _ _ ht
  · exact ht

theorem element_descends (hs : s.Bounded source) (form : Enclosure) :
    (element form).Descends source s := by
  simp only [Routine.Descends, tree]
  cases form with
  | quotes =>
    rw [Calling.element, descends_bind, descends_get]
    split
    · exact ask_here hs (by decide)
    · rename_i hd
      exact lift_moves (Scan.quotedPart_moves hs hd)
  | arithmetic =>
    rw [Calling.element, descends_bind, descends_get]
    split
    · exact ask_here hs (by decide)
    · exact ask_here hs (by decide)
    · rename_i hd hp
      exact lift_moves (Scan.arithmeticPart_moves hs hd hp)
  | substitution =>
    rw [Calling.element, descends_bind, descends_get]
    split
    · split
      · exact commandWord_moves hs
      · exact commandWord_moves hs
      · exact caseSubject_moves hs
      · exact casePart_moves hs
      · rename_i hstate
        exact lift_moves (Scan.scriptPart_moves hs (Or.inr hstate))
    · rename_i hw
      exact lift_moves (Scan.scriptPart_moves hs (Or.inl (by simpa using hw)))

theorem call_descends (hs : s.Bounded source) : call.Descends source s := by
  simp only [Routine.Descends, tree, Calling.call]
  rw [descends_bind, descends_get]
  split
  · exact ⟨hs.stay, fun _ h => absurd rfl h⟩
  · simp only [descends_bind, descends_pure]
    exact ask_here hs (by decide)

theorem descends (hs : s.Bounded source) (r : Routine) : r.Descends source s := by
  cases r with
  | call => exact call_descends hs
  | element form => exact element_descends hs form
  | word => exact word_descends hs
  | parts => exact parts_descends hs
  | part => exact part_descends hs
  | reference => exact reference_descends hs
  | expansion => exact expansion_descends hs
  | attempt => exact attempt_descends hs
  | construct d => exact construct_descends hs d
  | body d => exact body_descends hs d
  | elements d => exact elements_descends hs d

end Routine

end ShellLex
