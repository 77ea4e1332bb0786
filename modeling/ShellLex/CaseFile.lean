import ShellLex.Text.Blank
import ShellLex.Text.Line
/-!
Files of test cases. A case starts at a line `# test:` with its name. Then follow, if wanted, a line
`# expect:`, the input between two lines `---`, and up to a line `===` what lexing should answer.
Everything outside of cases is comment.
-/
namespace ShellLex

inductive Expectation where
  /-- Lexing succeeds, with these s-expressions. -/
  | nodes (sexprs : List String)
  | error (message : String)
  deriving DecidableEq, Repr

structure Case where
  name : String
  /-- The number of the line that names the case. -/
  line : Nat
  input : String
  expectation : Expectation
  deriving DecidableEq, Repr

namespace CaseFile

abbrev NumberedLine := List Char × Nat

def isMark (mark : String) (line : NumberedLine) : Bool := Text.trim line.1 == mark.toList

def keyed? (key : String) (line : NumberedLine) : Option (List Char) :=
  (Text.after? key.toList (Text.trim line.1)).map Text.trim

def upTo (mark : String) (lines : List NumberedLine) : List NumberedLine :=
  lines.takeWhile (!isMark mark ·)

def beyond (mark : String) (lines : List NumberedLine) : List NumberedLine :=
  (lines.dropWhile (!isMark mark ·)).tail

theorem length_beyond_le (mark : String) (lines : List NumberedLine) :
    (beyond mark lines).length ≤ lines.length := by
  have := (List.dropWhile_sublist (l := lines) (!isMark mark ·)).length_le
  simp only [beyond, List.length_tail]
  omega

/-- Whether the case should succeed, and the lines after the one that says so. Without such a line
it should. -/
def outlook : List NumberedLine → Bool × List NumberedLine
  | [] => (true, [])
  | line :: lines =>
    match keyed? "# expect:" line with
    | some answer => (answer == "ok".toList, lines)
    | none => (true, line :: lines)

theorem length_outlook_le (lines : List NumberedLine) :
    (outlook lines).2.length ≤ lines.length := by
  cases lines with
  | nil => simp [outlook]
  | cons line lines =>
    simp only [outlook]
    split <;> simp

def answers (lines : List NumberedLine) : List (List Char) :=
  (lines.map (Text.trim ·.1)).filter (!·.isEmpty)

def expectation (succeeds : Bool) (answers : List (List Char)) : Expectation :=
  if succeeds then .nodes (answers.map String.ofList)
  else .error (String.ofList (List.intercalate [' '] answers))

def cases : List NumberedLine → List Case
  | [] => []
  | line :: lines =>
    match keyed? "# test:" line with
    | none => cases lines
    | some name =>
      let body := beyond "---" (outlook lines).2
      let answer := beyond "---" body
      { name := String.ofList name
        line := line.2
        input := String.ofList (List.intercalate ['\n'] ((upTo "---" body).map (·.1)))
        expectation := expectation (outlook lines).1 (answers (upTo "===" answer)) } ::
        cases (beyond "===" answer)
termination_by lines => lines.length
decreasing_by
  · simp
  · have h₁ := length_outlook_le lines
    have h₂ := length_beyond_le "---" (outlook lines).2
    have h₃ := length_beyond_le "---" (beyond "---" (outlook lines).2)
    have h₄ := length_beyond_le "===" (beyond "---" (beyond "---" (outlook lines).2))
    simp only [List.length_cons]
    omega

def parse (content : String) : List Case := cases ((Text.lines content.toList).zipIdx 1)

end CaseFile

end ShellLex
