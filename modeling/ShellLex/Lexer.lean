import ShellLex.Scan.Nesting
/-!
Lexing a whole source at once, and one node at a time.
-/
namespace ShellLex

def Scan.script : Scan (List Node) := many (!·.rest.isEmpty) element

def tokenize (source : List UInt8) : Except LexError (List Node) :=
  match Scan.script (Scanner.start source) with
  | .ok nodes _ => .ok nodes
  | .error e _ => .error e

def events (source : List UInt8) : List Event :=
  match Scan.script (Scanner.start source) with
  | .ok _ s | .error _ s => s.journal.reverse

structure Lexer where
  source : List UInt8
  scanner : Scanner
  /-- Whether the iteration has met an error. -/
  failed : Bool
  deriving Repr

abbrev Answer := Except LexError (Option Node)

namespace Lexer

def start (source : List UInt8) : Lexer := ⟨source, Scanner.start source, false⟩

def state (lexer : Lexer) : State := lexer.scanner.state

def pos (lexer : Lexer) : Nat := lexer.scanner.pos

/-- The next node. After an error, the call goes on from where the error left the scan. -/
def get (lexer : Lexer) : Answer × Lexer :=
  if lexer.scanner.rest.isEmpty then (.ok none, lexer)
  else
    match Scan.element lexer.scanner with
    | .ok node s => (.ok (some node), { lexer with scanner := s })
    | .error e s => (.error e, { lexer with scanner := s })

/-- The next node of an iteration, which ends with its first error. -/
def next (lexer : Lexer) : Answer × Lexer :=
  if lexer.failed then (.ok none, lexer)
  else
    match lexer.get with
    | (.error e, after) => (.error e, { after with failed := true })
    | (.ok answer, after) => (.ok answer, after)

/-- Repeats a call up to the first answer that is no node, and keeps the lexer after each call.
Every node takes at least one byte, so the rest of the source is enough of a budget. -/
def repeatWithin (call : Lexer → Answer × Lexer) : (budget : List UInt8) → Lexer →
    List (Answer × Lexer)
  | [], lexer => [call lexer]
  | _ :: budget, lexer =>
    match call lexer with
    | (.ok (some node), after) => (.ok (some node), after) :: repeatWithin call budget after
    | last => [last]

def runGet (lexer : Lexer) : List (Answer × Lexer) := repeatWithin get lexer.scanner.rest lexer

def runNext (lexer : Lexer) : List (Answer × Lexer) := repeatWithin next lexer.scanner.rest lexer

end Lexer

end ShellLex
