import ShellLex.Proofs.Restoration
import ShellLex.Proofs.Shift
/-!
Words apart from their surroundings. A word or a reference is read from the bytes that follow and
from nothing else: wherever it stands and whatever state it is met in, the run comes to the same,
with its offsets moved, and it leaves the state alone.
-/
namespace ShellLex

namespace Scanner

def fresh (source : List UInt8) (pos : Nat) (state : State) : Scanner :=
  ⟨source.drop pos, pos, state, some [], []⟩

/-- Between `s` and `t` a scan went on, and recorded nothing for what lies before `s`. -/
structure Spares (s t : Scanner) : Prop where
  forward : s.pos ≤ t.pos
  before : ∀ pos < s.pos, t.held? pos = s.held? pos

variable {s t u : Scanner}

theorem Spares.of_outcomes (ho : t.outcomes = s.outcomes) (hp : s.pos ≤ t.pos) : s.Spares t :=
  ⟨hp, fun pos _ => held?_congr ho pos⟩

theorem Spares.trans (h : s.Spares t) (k : t.Spares u) : s.Spares u := by
  constructor
  · exact Nat.le_trans h.forward k.forward
  · intro pos hpos
    have hlt : pos < t.pos := Nat.lt_of_lt_of_le hpos h.forward
    rw [k.before pos hlt, h.before pos hpos]

theorem spares_enter (s : Scanner) (state : State) : s.Spares (s.enter state) :=
  .of_outcomes (by simp) (by simp)

theorem spares_skip (s : Scanner) (size : Nat) : s.Spares (s.skip size) :=
  .of_outcomes rfl (Nat.le_add_right _ _)

theorem Spares.record (h : s.Spares t) (outcome : Outcome) : s.Spares (t.record s.pos outcome) := by
  constructor
  · exact h.forward
  · intro pos hpos
    rw [held?_record_of_ne (Nat.ne_of_lt hpos), h.before pos hpos]

/-- Reading a `$((` again begins where it was read first. -/
theorem Spares.again (h : s.Spares t) (e : LexError) : s.Spares (s.again e t) :=
  ⟨Nat.le_refl _, h.before⟩

end Scanner

open Scanner in
def Passage.spares : Passage where
  Passes _ s _ t := s.Spares t
  Fails s t := s.Spares t
  Denied _ _ _ := True
  nil := .of_outcomes rfl (Nat.le_refl _)
  append h k := h.trans k
  enter state := spares_enter _ state
  attempted := .of_outcomes rfl (Nat.le_refl _)
  take _ size := spares_skip _ size
  rekind _ h := h
  ofWord h := h
  enclosed _ _ _ h _ := (spares_skip _ _).trans (h.trans (spares_skip _ _))
  retried _ hf _ h _ := (hf.again _).trans ((spares_skip _ _).trans (h.trans (spares_skip _ _)))
  retry_fails hf h := (hf.again _).trans h
  recalled _ _ := spares_skip _ _
  recalled_fails _ := spares_skip _ _
  kept _ _ h := h.record _
  kept_fails _ h := h.record _
  fail := .of_outcomes rfl (Nat.le_refl _)
  left state h := h.trans (spares_enter _ state)
  fails h k := h.trans k

/-- The scanner on the right is the one on the left further on, with a table that holds the same for
the same bytes and nothing for what lies before them. -/
structure Apart (shift : Nat) (s t : Scanner) : Prop where
  rest : t.rest = s.rest
  pos : t.pos = shift + s.pos
  entries : ∀ pos, t.held? (shift + pos) = (s.held? pos).map (Outcome.move (shift + ·))
  before : ∀ pos < shift, t.held? pos = none

/-- The runs come to the same, the right one with its offsets moved, and each ends in its own
state. -/
inductive Displaced (shift : Nat) (state state' : State) {α : Type} (f : α → α) :
    (left right : EStateM.Result LexError Scanner α) → Prop where
  | ok {a s t} (h : Apart shift s t) (hs : s.state = state) (ht : t.state = state') :
      Displaced shift state state' f (.ok a s) (.ok (f a) t)
  | error {e s t} (h : Apart shift s t) (hs : s.state = state) (ht : t.state = state') :
      Displaced shift state state' f (.error e s) (.error (e.move (shift + ·)) t)

namespace Scan

section Alike

variable {α : Type} {f : α → α} {scan : Scan α}

theorem shifted_fresh (before bytes : List UInt8) (state state' : State) :
    Shifted before.length (fun _ _ => True) (.fresh bytes 0 state)
      (.fresh (before ++ bytes) before.length state') where
  rest := by simp [Scanner.fresh]
  pos := rfl
  state := trivial
  kept := ⟨rfl, rfl⟩
  entries _ := rfl

/-- A routine that is alike at any offset, that keeps to the state and to what lies before it, does
not depend on its surroundings. -/
theorem displaced_of_alike (before bytes : List UInt8) (state state' : State)
    (alike : (Pairing.shift before.length).Alike (fun _ _ => True) f scan scan)
    (steady : Steady scan)
    (spares : ∀ s, Ends scan s (fun _ t => s.Spares t) fun _ t => s.Spares t) :
    Displaced before.length state state' f (scan (.fresh bytes 0 state))
      (scan (.fresh (before ++ bytes) before.length state')) := by
  have run := alike _ _ (shifted_fresh before bytes state state')
  have hleft := steady (.fresh bytes 0 state)
  have hright := steady (.fresh (before ++ bytes) before.length state')
  have hspares := spares (.fresh (before ++ bytes) before.length state')
  unfold Ends at hleft hright hspares
  generalize scan (.fresh bytes 0 state) = l at run hleft ⊢
  generalize scan (.fresh (before ++ bytes) before.length state') = r at run hright hspares ⊢
  cases run with
  | ok h => exact .ok ⟨h.rest, h.pos, h.entries, hspares.before⟩ hleft hright
  | error h => exact .error ⟨h.rest, h.pos, h.entries, hspares.before⟩ hleft hright
  | spent _ h => exact h.elim
  | lacking _ h => exact h.elim

end Alike

/-- A word, and a reference, is read alike before the same bytes, whatever comes before them,
whatever the states are and however many constructs may still be opened. -/
theorem word_displaced (before bytes : List UInt8) (state state' : State) (levels : Nat) :
    Displaced before.length state state' (Node.moveAll (before.length + ·))
      (word (deeper levels) (.fresh bytes 0 state))
      (word (deeper levels) (.fresh (before ++ bytes) before.length state')) ∧
    Displaced before.length state state' (Node.move (before.length + ·))
      (reference (deeper levels) (.fresh bytes 0 state))
      (reference (deeper levels) (.fresh (before ++ bytes) before.length state')) := by
  have hi : (Pairing.shift before.length).Deeper (deeper levels) (deeper levels) :=
    Pairing.deeper_alike (fun _ => expansion_shift) levels
  have hx := expansion_shift hi
  have hd : ∀ levels, Passage.spares.Denies (deeper levels) := fun _ _ _ _ _ _ => trivial
  have inside := Passage.deeper_inside hd levels
  have steady := deeper_steady levels
  constructor
  · apply displaced_of_alike
    · exact Pairing.word_alike hi hx
    · exact word_steady steady
    · exact Passage.word_along inside (hd levels)
  · apply displaced_of_alike
    · exact Pairing.reference_alike hi hx
    · exact reference_steady steady
    · exact Passage.reference_along inside (hd levels)

end Scan

end ShellLex
