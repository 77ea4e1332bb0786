import ShellLex.Main
import ShellLex.Proofs.Ends
import ShellLex.Proofs.Grammar
import ShellLex.Proofs.Reading
import ShellLex.Proofs.Elements
import ShellLex.Proofs.Calls
import ShellLex.Proofs.Transitions
import ShellLex.Proofs.Pairing.Routines
import ShellLex.Proofs.Agreement
import ShellLex.Proofs.Recall
import ShellLex.Proofs.Unlimited
import ShellLex.Proofs.Depth
import ShellLex.Proofs.Limit
import ShellLex.Proofs.Passage
import ShellLex.Proofs.Retries
import ShellLex.Proofs.Locality
import ShellLex.Proofs.Completeness.Reaches
import ShellLex.Proofs.Completeness.Runs
import ShellLex.Proofs.Substitution
import ShellLex.Proofs.Relexing
import ShellLex.Proofs.Contexts
import ShellLex.Proofs.CaseStatement
import ShellLex.Proofs.Counter
import ShellLex.Proofs.Restoration
import ShellLex.Proofs.Shift
import ShellLex.Proofs.Straight
import ShellLex.Proofs.Resumption
import ShellLex.Proofs.Evidence
import ShellLex.Proofs.Placement
import ShellLex.Proofs.Surroundings
import ShellLex.Proofs.Attempts
import ShellLex.Proofs.Lexemes
import ShellLex.Proofs.Literals
import ShellLex.Proofs.Progress
import ShellLex.Proofs.Sexprs
import ShellLex.Proofs.Lines
import ShellLex.Proofs.Answers
import ShellLex.Proofs.CaseFiles
import ShellLex.Proofs.Quoting
import ShellLex.Proofs.Views
import ShellLex.Proofs.Json.Values
import ShellLex.Proofs.Json.Nodes
import ShellLex.Proofs.Outline.Printer
import ShellLex.Proofs.Outline.Nodes
import ShellLex.Proofs.Arithmetic.Balance
import ShellLex.Proofs.Arithmetic.Elements
import ShellLex.Proofs.Arithmetic.Recognition
import ShellLex.Proofs.SimpleScripts
import ShellLex.Proofs.Diagnostics
import ShellLex.Proofs.Replacements
import ShellLex.Proofs.Termination.Results
