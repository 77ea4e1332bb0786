import ShellLex.Lexeme
import ShellLex.Scan.Scanner
/-!
Constructs with a body between two delimiters, and the `$` references that open most of them. The
body is read by whatever reads elements one level deeper, so these routines know nothing of what
bodies hold.
-/
namespace ShellLex

namespace Delimiter

def opening : Delimiter → List UInt8
  | .doubleQuote => ascii "\""
  | .commandSubstitution => ascii "$("
  | .arithmetic => ascii "$(("
  | .arithmeticGroup => ascii "("

def closing : Delimiter → List UInt8
  | .doubleQuote => ascii "\""
  | .commandSubstitution | .arithmeticGroup => ascii ")"
  | .arithmetic => ascii "))"

def form : Delimiter → Enclosure
  | .doubleQuote => .quotes
  | .commandSubstitution => .substitution
  | .arithmetic | .arithmeticGroup => .arithmetic

/-- What an internal error says of the delimiter that has to be next: of the opening, but of the
closing of a group. -/
def expected : Delimiter → String
  | .doubleQuote => "expected opening double quote"
  | .commandSubstitution => "expected `$(`"
  | .arithmetic => "expected `$((`"
  | .arithmeticGroup => "arithmetic group body stopped before `)`"

/-- Whether the body goes on. Among the patterns of a `case` a parenthesis closes a pattern. -/
def goesOn (d : Delimiter) (s : Scanner) : Bool :=
  match s.role? with
  | none => false
  | some r =>
    match d with
    | .doubleQuote => r != .quote
    | .commandSubstitution => r != .closeParen || s.state == .casePattern
    | .arithmetic | .arithmeticGroup => r != .closeParen

/-- A command substitution is a script of its own, whatever surrounds it. -/
def inBody {α : Type} (d : Delimiter) (scan : Scan α) : Scan α :=
  match d with
  | .commandSubstitution => Scan.within .normal scan
  | .doubleQuote | .arithmetic | .arithmeticGroup => scan

end Delimiter

def nestingLimit : Nat := 64

/-- How the elements of an enclosure are read one level deeper, unless the levels are used up. -/
abbrev Inner := Option (Enclosure → Scan Node)

namespace Scan

/-- The opening of a construct. A group is only asked for at a parenthesis, so any byte opens it. -/
def opened (d : Delimiter) : Scan Leaf := do
  match d with
  | .arithmeticGroup => take 1 .quote
  | _ =>
    match ← delimiter? d.opening with
    | some leaf => return leaf
    | none => internal d.expected

/-- The closing of the construct that begins at `start`. The body of a group ends before nothing
but a parenthesis, unless it meets the end of the source. -/
def closed (d : Delimiter) (start : Nat) : Scan Leaf := do
  match ← delimiter? d.closing with
  | some leaf => return leaf
  | none =>
    if d = .arithmeticGroup ∧ (← get).rest ≠ [] then internal d.expected
    else fail (.unterminated d) start

def enclosure (inner : Inner) (d : Delimiter) : Scan Node := do
  let start := (← get).pos
  let opening ← opened d
  let some element := inner | fail (.tooDeep nestingLimit) start
  let nodes ← d.inBody (many d.goesOn (element d.form))
  let closing ← closed d start
  return .enclosed d.form opening nodes closing

/-- Reads `$((` as arithmetic, and again as a command substitution if that does not close. -/
def attempt (inner : Inner) : Scan Node := fun s =>
  match enclosure inner .arithmetic (s.note (.attempt s.pos)) with
  | .ok node t => .ok node t
  | .error e t =>
    if e.isTooDeep then .error e t
    else
      enclosure inner .commandSubstitution
        { t.note (.retry s.pos e) with rest := s.rest, pos := s.pos }

/-- Both readings depend on nothing but the bytes that follow, so the outcome is kept and what
surrounds it may be read a second time without reading it again. Running out of levels depends on
the surroundings and is not kept. -/
def expansion (inner : Inner) : Scan Node := fun s =>
  match s.outcome? with
  | some outcome =>
    let t := s.skip (outcome.stop - s.pos)
    match outcome.result with
    | .ok node => .ok node t
    | .error e => .error e t
  | none =>
    match attempt inner s with
    | .ok node t => .ok node (t.record s.pos ⟨.ok node, t.pos⟩)
    | .error e t =>
      .error e (if e.isTooDeep then t else t.record s.pos ⟨.error e, t.pos⟩)

def reference (inner : Inner) : Scan Node := do
  let s ← get
  if s.role? ≠ some .dollar then internal "expected `$`"
  else if (ascii "$((").isPrefixOf s.rest then expansion inner
  else if (ascii "$(").isPrefixOf s.rest then enclosure inner .commandSubstitution
  else if (ascii "$\x7b").isPrefixOf s.rest then
    fail (.unsupported "`$\x7b...\x7d` parameter expansion") s.pos
  else return .leaf (← take (Lexeme.reference s.rest) .variable)

end Scan

end ShellLex
