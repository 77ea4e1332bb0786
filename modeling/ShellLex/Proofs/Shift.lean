import ShellLex.Proofs.Pairing.Routines
import ShellLex.Proofs.Passage
/-!
The same bytes at another offset. A lexer that has the rest of a source before it, in a state and
with a table that holds nothing for this rest, does what a lexer does that starts there, with every
offset moved by what came before.
-/
namespace ShellLex

def Outcome.move (f : Nat → Nat) (outcome : Outcome) : Outcome where
  result :=
    match outcome.result with
    | .ok node => .ok (node.move f)
    | .error e => .error (e.move f)
  stop := f outcome.stop

/-- The scanner on the right has the same bytes before it, `shift` further on, and holds for an
offset what the left one does for the same place. -/
structure Shifted (shift : Nat) (related : State → State → Prop) (s t : Scanner) : Prop where
  rest : t.rest = s.rest
  pos : t.pos = shift + s.pos
  state : related s.state t.state
  kept : s.outcomes.isSome ∧ t.outcomes.isSome
  entries : ∀ pos, t.held? (shift + pos) = (s.held? pos).map (Outcome.move (shift + ·))

namespace Shifted

variable {shift : Nat} {related : State → State → Prop} {s t u v : Scanner}

theorem skip (h : Shifted shift related s t) (size : Nat) :
    Shifted shift related (s.skip size) (t.skip size) where
  rest := by simp [h.rest]
  pos := by simp [Scanner.skip, h.rest, h.pos, Nat.add_assoc]
  state := h.state
  kept := h.kept
  entries := h.entries

theorem enter {related' : State → State → Prop} (h : Shifted shift related s t)
    {state state' : State} (hs : related' state state') :
    Shifted shift related' (s.enter state) (t.enter state') where
  rest := by simp [h.rest]
  pos := by simp [h.pos]
  state := by simpa using hs
  kept := by simpa using h.kept
  entries pos := by
    rw [Scanner.held?_congr (Scanner.enter_outcomes t state'),
      Scanner.held?_congr (Scanner.enter_outcomes s state)]
    exact h.entries pos

theorem note (h : Shifted shift related s t) (event event' : Event) :
    Shifted shift related (s.note event) (t.note event') :=
  ⟨h.rest, h.pos, h.state, h.kept, h.entries⟩

theorem rewind (h : Shifted shift related s t) (k : Shifted shift related u v) :
    Shifted shift related { u with rest := s.rest, pos := s.pos }
      { v with rest := t.rest, pos := t.pos } :=
  ⟨h.rest, h.pos, k.state, k.kept, k.entries⟩

theorem record (h : Shifted shift related s t) (pos : Nat) (outcome : Outcome) :
    Shifted shift related (s.record pos outcome)
      (t.record (shift + pos) (outcome.move (shift + ·))) where
  rest := h.rest
  pos := h.pos
  state := h.state
  kept := by simpa [Scanner.record] using h.kept
  entries q := by
    by_cases hq : q = pos
    · subst hq
      rw [Scanner.held?_record_self _ _ h.kept.2, Scanner.held?_record_self _ _ h.kept.1]
      rfl
    · rw [Scanner.held?_record_of_ne hq, Scanner.held?_record_of_ne (by omega)]
      exact h.entries q

theorem outcome?_eq (h : Shifted shift related s t) :
    t.outcome? = s.outcome?.map (Outcome.move (shift + ·)) := by
  have hentry := h.entries s.pos
  rw [← h.pos] at hentry
  exact hentry

end Shifted

/-- Neither side has fewer levels than the other. -/
def Pairing.shift (shift : Nat) : Pairing where
  Rel := Shifted shift
  move := (shift + ·)
  Spent _ := False
  Lacks := False
  rest h := h.rest
  pos h := h.pos
  state h := h.state
  skip size h := h.skip size
  enter h hs := h.enter hs
  note event event' h := h.note event event'
  rewind h k := h.rewind k
  leave _ h := h

namespace Scan

variable {shift : Nat}

/-- What is recalled on one side is recalled on the other, and what is recorded is recorded. -/
theorem expansion_shift {left right : Inner} (hi : (Pairing.shift shift).Deeper left right) :
    (Pairing.shift shift).Expands left right := by
  intro related s t hst _
  have ht := hst.outcome?_eq
  cases ho : s.outcome? with
  | some outcome =>
    rw [ho] at ht
    have hskip := hst.skip (outcome.stop - s.pos)
    have hstop : (outcome.move (shift + ·)).stop - t.pos = outcome.stop - s.pos := by
      rw [Outcome.move, hst.pos, Nat.add_sub_add_left]
    rw [expansion_recall ho, expansion_recall ht, hstop, Outcome.move]
    cases outcome.result with
    | ok node => exact .ok hskip
    | error e => exact .error hskip
  | none =>
    rw [ho] at ht
    have run := Pairing.attempt_alike hi s t hst
    rw [expansion_afresh ho, expansion_afresh ht, hst.pos]
    generalize attempt left s = l at run ⊢
    generalize attempt right t = r at run ⊢
    cases run with
    | @ok node u v h =>
      have hrecord := h.record s.pos ⟨.ok node, u.pos⟩
      dsimp only
      rw [h.pos]
      exact .ok hrecord
    | @error e u v h =>
      by_cases hd : e.isTooDeep
      · simp only [LexError.move_isTooDeep, hd, if_true]
        exact .error h
      · have hrecord := h.record s.pos ⟨.error e, u.pos⟩
        have hd' : e.isTooDeep = false := by simpa using hd
        simp only [LexError.move_isTooDeep, hd', Bool.false_eq_true, if_false]
        rw [h.pos]
        exact .error hrecord
    | spent _ h => exact h.elim
    | lacking _ h => exact h.elim

theorem element_shift (shift : Nat) :
    (Pairing.shift shift).Alike Eq (Node.move (shift + ·)) element element :=
  Pairing.element_alike fun _ => expansion_shift

theorem script_shift (shift : Nat) :
    (Pairing.shift shift).Alike Eq (Node.moveAll (shift + ·)) script script :=
  Pairing.script_alike fun _ => expansion_shift

end Scan

end ShellLex
