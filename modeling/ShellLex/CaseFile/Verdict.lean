import ShellLex.CaseFile
import ShellLex.Lexer
import ShellLex.Node.Sexpr
/-!
The verdict on a test case.
-/
namespace ShellLex

inductive Verdict where
  | pass
  | fail (expected actual : String)
  /-- The case could not be judged. -/
  | error (message : String)
  deriving DecidableEq, Repr

def Verdict.isPass : Verdict → Bool
  | .pass => true
  | .fail _ _ | .error _ => false

def Verdict.isFail : Verdict → Bool
  | .fail _ _ => true
  | .pass | .error _ => false

namespace Case

def errorText (message : String) : String := "error: " ++ message

def inOneLine (parts : List String) : String := String.intercalate " " parts

def inColumn (parts : List String) : String := String.intercalate "\n              " parts

/-- Nodes have to reproduce the input, and then to look as expected. -/
def verdict (case : Case) : Verdict :=
  let source := Utf8.encode case.input.toList
  match tokenize source, case.expectation with
  | .ok nodes, .nodes expected =>
    let text := Node.textAll nodes
    if text ≠ source then
      .error ("round trip mismatch: " ++ String.ofList (Text.literal (Utf8.lossy text)))
    else if sexprs nodes = expected then .pass
    else .fail (inColumn expected) (inColumn (sexprs nodes))
  | .ok nodes, .error expected => .fail (errorText expected) (inOneLine (sexprs nodes))
  | .error e, .error expected =>
    if e.message = expected then .pass else .fail (errorText expected) (errorText e.message)
  | .error e, .nodes expected => .fail (inOneLine expected) (errorText e.message)

end Case

end ShellLex
