import ShellLex.Scan.Enclosure
/-!
Words and what they consist of, inside and outside of double quotes.
-/
namespace ShellLex.Scan

def escape : Scan Node := do
  return .leaf (← take (Lexeme.escape (← get).rest) .escaped)

def wordPart (inner : Inner) : Scan Node := do
  match (← get).role? with
  | some .mark => return .leaf (← take 1 .term)
  | some .backslash => escape
  | some .quote => enclosure inner .doubleQuote
  | some .dollar => reference inner
  | _ => return .leaf (← takeWhile isPlain .term)

def inWord (s : Scanner) : Bool := s.role?.any (!·.endsWord)

def word (inner : Inner) : Scan (List Node) := do
  match ← many inWord (wordPart inner) with
  | [] => internal "word without elements"
  | nodes => return nodes

def isQuotable (b : UInt8) : Bool :=
  match role b with
  | .backslash | .quote | .dollar => false
  | _ => true

def quotedPart (inner : Inner) : Scan Node := do
  match (← get).role? with
  | some .backslash => escape
  | some .dollar => reference inner
  | _ => return .leaf (← takeWhile isQuotable .term)

end ShellLex.Scan
