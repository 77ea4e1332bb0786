import ShellLex.Scan.Word
/-!
The elements of arithmetic: numbers and names are variables, operators are terms, and parentheses
make a group.
-/
namespace ShellLex.Scan

/-- A byte that begins no element of arithmetic is one of its own, of unknown kind. -/
def arithmeticPart (inner : Inner) : Scan Node := do
  let s ← get
  match s.rest with
  | [] => internal "nothing consumed"
  | b :: _ =>
    match role b with
    | .blank => return .leaf (← takeWhile isBlank .space)
    | .newline => return .leaf (← take 1 .newLine)
    | .backslash => escape
    | .dollar => reference inner
    | .openParen => enclosure inner .arithmeticGroup
    | _ =>
      if isDigit b then return .leaf (← take (Lexeme.number s.rest) .variable)
      else if isNameStart b then return .leaf (← takeWhile isNameByte .variable)
      else
        match Lexeme.arithmeticOperator? s.rest with
        | some size => return .leaf (← take size .term)
        | none => return .leaf (← take 1 .unknown)

end ShellLex.Scan
