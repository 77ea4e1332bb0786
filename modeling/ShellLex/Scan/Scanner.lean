import ShellLex.Byte
import ShellLex.Error
import ShellLex.Node
import ShellLex.State
/-!
The state of a scan and the steps that all routines are made of. A scan that fails keeps the state
it failed in.
-/
namespace ShellLex

structure Outcome where
  result : Except LexError Node
  stop : Nat
  deriving Repr

inductive Event where
  /-- The grammar state changes while `pos` is the next offset. -/
  | transition (source target : State) (pos : Nat)
  /-- The `$((` at `pos` is read, not recalled. -/
  | attempt (pos : Nat)
  /-- The `$((` at `pos` is no arithmetic and will be read as a command substitution. -/
  | retry (pos : Nat) (error : LexError)
  deriving DecidableEq, Repr

structure Scanner where
  /-- The bytes not read yet. -/
  rest : List UInt8
  /-- The offset of the first of them. -/
  pos : Nat
  state : State
  /-- The outcome of every `$((` read so far, by its offset; `none` if none are to be kept. -/
  outcomes : Option (List (Nat × Outcome))
  /-- The latest event comes first. -/
  journal : List Event
  deriving Repr

namespace Scanner

def start (source : List UInt8) : Scanner := ⟨source, 0, .normal, some [], []⟩

/-- The scanner after `size` more bytes, or at the end if there are fewer. -/
def skip (s : Scanner) (size : Nat) : Scanner :=
  { s with rest := s.rest.drop size, pos := s.pos + (s.rest.take size).length }

def note (s : Scanner) (event : Event) : Scanner := { s with journal := event :: s.journal }

/-- A change of state is an event; staying is not. -/
def enter (s : Scanner) (state : State) : Scanner :=
  if s.state = state then s
  else { s.note (.transition s.state state s.pos) with state := state }

def outcome? (s : Scanner) : Option Outcome := s.outcomes.bind (·.lookup s.pos)

def record (s : Scanner) (pos : Nat) (outcome : Outcome) : Scanner :=
  { s with outcomes := s.outcomes.map ((pos, outcome) :: ·) }

def role? (s : Scanner) : Option Role := s.rest.head?.map role

end Scanner

abbrev Scan := EStateM LexError Scanner

namespace Scan

variable {α : Type}

def fail (cause : Cause) (pos : Nat) : Scan α := throw ⟨cause, pos⟩

def internal (reason : String) : Scan α := do fail (.internal reason) (← get).pos

def enter (state : State) : Scan Unit := modify (·.enter state)

def take (size : Nat) (kind : Kind) : Scan Leaf :=
  modifyGet fun s => (⟨kind, s.rest.take size, s.pos⟩, s.skip size)

/-- The bytes up to the first that is not accepted, as a leaf. There has to be one. -/
def takeWhile (accept : UInt8 → Bool) (kind : Kind) : Scan Leaf := do
  match ((← get).rest.takeWhile accept).length with
  | 0 => internal "nothing consumed"
  | size => take size kind

def delimiter? (text : List UInt8) : Scan (Option Leaf) := do
  if text.isPrefixOf (← get).rest then some <$> take text.length .quote else return none

/-- Runs `scan` from `state`, and returns to the state before it however it ends. -/
def within (state : State) (scan : Scan α) : Scan α := fun s =>
  match scan (s.enter state) with
  | .ok a t => .ok a (t.enter s.state)
  | .error e t => .error e (t.enter s.state)

/-- Reads nodes while `more` holds. No more of them are read than `budget` has bytes. -/
def manyWithin (more : Scanner → Bool) (read : Scan Node) :
    (budget : List UInt8) → List Node → Scan (List Node)
  | [], nodes => do
    if more (← get) then internal "nothing consumed" else return nodes.reverse
  | _ :: budget, nodes => do
    if more (← get) then manyWithin more read budget ((← read) :: nodes) else return nodes.reverse

/-- Reads nodes while `more` holds. Each takes at least one byte, so the rest of the source is
enough of a budget. -/
def many (more : Scanner → Bool) (read : Scan Node) : Scan (List Node) := do
  manyWithin more read (← get).rest []

end Scan

end ShellLex
