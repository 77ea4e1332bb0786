/-!
Where a scan stands in the grammar of commands. Only what changes the way bytes are split is
followed: the start of a command, and the stages of a `case`.
-/
namespace ShellLex

inductive State where
  /-- At the start of a command, where words can be reserved. -/
  | normal
  /-- Among the arguments of a command. -/
  | command
  /-- After `case`, whose subject comes next. -/
  | caseSubject
  /-- After the subject, where only `in` may follow. -/
  | caseIn
  /-- Among the patterns of a `case`. -/
  | casePattern
  deriving DecidableEq, Repr

def State.name : State → String
  | .normal => "Normal"
  | .command => "Command"
  | .caseSubject => "CaseWaitWord"
  | .caseIn => "CaseWaitIn"
  | .casePattern => "CaseWaitPattern"

end ShellLex
