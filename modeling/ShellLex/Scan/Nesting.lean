import ShellLex.Scan.Command
/-!
The routines tied together: an enclosure's elements are read with one level less than the
enclosure itself.
-/
namespace ShellLex.Scan

def part (inner : Inner) : Enclosure → Scan Node
  | .quotes => quotedPart inner
  | .substitution => scriptPart inner
  | .arithmetic => arithmeticPart inner

/-- How elements are read where `levels` more constructs may be opened. -/
def deeper : (levels : Nat) → Inner
  | 0 => none
  | levels + 1 => some (part (deeper levels))

def element : Scan Node := scriptPart (deeper nestingLimit)

end ShellLex.Scan
