import ShellLex.CaseFile.Verdict
/-!
The count of verdicts over many cases, with those that are not a pass, and its text.
-/
namespace ShellLex

structure Failure where
  name : String
  line : Nat
  verdict : Verdict
  deriving DecidableEq, Repr

structure Tally where
  passed : Nat
  failed : Nat
  errors : Nat
  /-- In the order in which they were recorded. -/
  failures : List Failure
  deriving DecidableEq, Repr

namespace Tally

def empty : Tally := ⟨0, 0, 0, []⟩

def record (tally : Tally) (name : String) (line : Nat) (verdict : Verdict) : Tally :=
  let failures := tally.failures ++ [⟨name, line, verdict⟩]
  match verdict with
  | .pass => { tally with passed := tally.passed + 1 }
  | .fail _ _ => { tally with failed := tally.failed + 1, failures := failures }
  | .error _ => { tally with errors := tally.errors + 1, failures := failures }

def total (tally : Tally) : Nat := tally.passed + tally.failed + tally.errors

def allPassed (tally : Tally) : Bool := tally.failed == 0 && tally.errors == 0

def ofCases (cases : List Case) : Tally :=
  cases.foldl (fun tally case => tally.record case.name case.line case.verdict) empty

def rule : String := String.ofList (List.replicate 60 '═')

def detail (verdict : Verdict) : List String :=
  match verdict with
  | .pass => []
  | .fail expected actual => ["    expected: " ++ expected, "    actual:   " ++ actual]
  | .error message => ["    error: " ++ message]

def failureLines (failure : Failure) : List String :=
  ["", "  " ++ failure.name ++ " (line " ++ toString failure.line ++ ")"] ++
    detail failure.verdict

def summaryLines (tally : Tally) : List String :=
  ["", rule, "Test Summary: " ++ toString tally.total ++ " total",
    "  ✓ " ++ toString tally.passed ++ " passed  ✗ " ++ toString tally.failed ++
      " failed  ⚠ " ++ toString tally.errors ++ " errors"] ++
  (if tally.failures.isEmpty then []
    else ["", "Failures:"] ++ tally.failures.flatMap failureLines) ++
  [rule]

def summary (tally : Tally) : String := String.join (tally.summaryLines.map (· ++ "\n"))

end Tally

end ShellLex
