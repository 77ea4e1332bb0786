import ShellLex.Scan.Arithmetic
import ShellLex.Text.Utf8
/-!
The elements of a script: blanks, comments, line ends, operators and words. The grammar state says
which words are reserved and what may stand where in a `case`.
-/
namespace ShellLex.Scan

def unexpected (b : UInt8) : Scan Node := do
  fail (.unexpected (Char.ofNat b.toNat)) (← get).pos

def reservation? (data : List UInt8) : Option (Kind × State) :=
  match data with
  | [b] => if role b = .mark then some (.operator, .normal) else none
  | _ =>
    if data = ascii "case" then some (.keyword, .caseSubject)
    else if data ∈ Lexeme.keywords then some (.keyword, .command)
    else none

def reserved? (nodes : List Node) : Option (Leaf × State) := do
  let leaf ← Node.onlyLeaf? .term nodes
  let (kind, next) ← reservation? leaf.data
  return ({ leaf with kind := kind }, next)

def commandWord (inner : Inner) : Scan Node := do
  let state := (← get).state
  let nodes ← word inner
  match if state = .normal then reserved? nodes else none with
  | some (leaf, next) =>
    enter next
    return .leaf leaf
  | none =>
    enter .command
    return .word nodes

def operator : Scan Leaf := do take (Lexeme.operator (← get).rest) .operator

/-- After an operator a new command starts, but after a redirection the same one goes on. -/
def commandPart (inner : Inner) (r : Role) : Scan Node := do
  match r with
  | .separator | .openParen | .closeParen =>
    enter .normal
    let leaf ← operator
    if leaf.data = ascii ";;" then enter .casePattern
    return .leaf leaf
  | .redirection =>
    enter .command
    return .leaf (← operator)
  | _ => commandWord inner

def caseSubject (inner : Inner) (b : UInt8) : Scan Node := do
  match role b with
  | .separator | .openParen | .closeParen | .redirection => unexpected b
  | _ =>
    let nodes ← word inner
    enter .caseIn
    return .word nodes

def caseIn (b : UInt8) : Scan Node := do
  if !isPlain b then unexpected b
  else
    let start := (← get).pos
    let leaf ← takeWhile isPlain .keyword
    if leaf.data = ascii "in" then
      enter .casePattern
      return .leaf leaf
    else fail (.expectedIn (String.ofList (Utf8.lossy leaf.data))) start

/-- A pattern list ends at the first closing parenthesis; `esac` ends the whole `case`. -/
def casePart (inner : Inner) (b : UInt8) : Scan Node := do
  match role b with
  | .openParen => return .leaf (← take 1 .operator)
  | .closeParen =>
    let leaf ← take 1 .operator
    enter .normal
    return .leaf leaf
  | .separator | .redirection => unexpected b
  | _ =>
    let nodes ← word inner
    match (Node.onlyLeaf? .term nodes).filter (·.data = ascii "esac") with
    | some leaf =>
      enter .normal
      return .leaf { leaf with kind := .keyword }
    | none => return .word nodes

def scriptPart (inner : Inner) : Scan Node := do
  let s ← get
  match s.rest with
  | [] => internal "nothing consumed"
  | b :: _ =>
    match role b with
    | .blank => return .leaf (← takeWhile isBlank .space)
    | .hash => return .leaf (← takeWhile (role · != .newline) .comment)
    | .newline =>
      if s.state = .command then enter .normal
      return .leaf (← take 1 .newLine)
    | r =>
      match s.state with
      | .normal | .command => commandPart inner r
      | .caseSubject => caseSubject inner b
      | .caseIn => caseIn b
      | .casePattern => casePart inner b

end ShellLex.Scan
