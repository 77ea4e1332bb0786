import ShellLex.Error
import ShellLex.Text.Utf8
/-!
Errors shown in the source: which bytes to mark, and what to write beside them.
-/
namespace ShellLex

structure Diagnostic where
  /-- The offset of the first byte marked. -/
  start : Nat
  /-- The offset after the last one. -/
  stop : Nat
  label : String
  deriving DecidableEq, Repr

def LexError.label (error : LexError) : String :=
  match error.cause with
  | .unexpected found => "`" ++ found.toString ++ "` is not valid here"
  | .expectedIn _ => "expected `in` here"
  | .unsupported what => what ++ " starts here"
  | .unterminated delimiter => delimiter.describe ++ " opened here"
  | .tooDeep limit => "level " ++ toString (limit + 1) ++ " starts here"
  | .internal reason => reason

def Diagnostic.ofError (source : List UInt8) (error : LexError) : Diagnostic :=
  let start := min error.pos source.length
  ⟨start, min (start + 1) source.length, error.label⟩

/-- Offsets mean something in a text only if all of the source is text. -/
def diagnose? (source : List UInt8) (error : LexError) : Option Diagnostic :=
  (Utf8.decode? source).map fun _ => Diagnostic.ofError source error

end ShellLex
