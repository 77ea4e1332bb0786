import ShellLex.Text.Literal
/-!
Why a source cannot be read on: a cause and the offset at which it shows.
-/
namespace ShellLex

inductive Delimiter where
  | doubleQuote
  | commandSubstitution
  | arithmetic
  | arithmeticGroup
  deriving DecidableEq, Repr

def Delimiter.describe : Delimiter → String
  | .doubleQuote => "double-quoted string"
  | .commandSubstitution => "command substitution"
  | .arithmetic => "arithmetic expansion"
  | .arithmeticGroup => "arithmetic group"

inductive Cause where
  | unexpected (found : Char)
  | expectedIn (got : String)
  | unsupported (what : String)
  | unterminated (delimiter : Delimiter)
  | tooDeep (limit : Nat)
  | internal (reason : String)
  deriving DecidableEq, Repr

structure LexError where
  cause : Cause
  pos : Nat
  deriving DecidableEq, Repr

namespace LexError

def isInternal (error : LexError) : Bool :=
  match error.cause with
  | .internal _ => true
  | _ => false

/-- Whether the construct would have been read with more levels of nesting at hand. -/
def isTooDeep (error : LexError) : Bool :=
  match error.cause with
  | .tooDeep _ => true
  | _ => false

def message (error : LexError) : String :=
  let offset := toString error.pos
  match error.cause with
  | .unexpected found => "unexpected `" ++ found.toString ++ "` at offset " ++ offset
  | .expectedIn got =>
    "expected \"in\", got " ++ String.ofList (Text.literal got.toList) ++ " at offset " ++ offset
  | .unsupported what => what ++ " is not supported (at offset " ++ offset ++ ")"
  | .unterminated delimiter =>
    "unterminated " ++ delimiter.describe ++ " starting at offset " ++ offset
  | .tooDeep limit =>
    "nesting deeper than " ++ toString limit ++ " levels at offset " ++ offset
  | .internal reason => "internal lexer error at offset " ++ offset ++ ": " ++ reason

end LexError

end ShellLex
