import ShellLex.Proofs.Reading
/-!
The routines as they call one another. A routine is a tree: its nodes are the calls it makes, and
below a call lies what is done with each thing that the call may come to. The trees hold no budget
and no levels, so that nothing but the source keeps the calls from going on for ever. Whether they
end is a question about carrying them out, which is a relation here and no function.
-/
namespace ShellLex

abbrev Scan.Result (α : Type) := EStateM.Result LexError Scanner α

inductive Routine where
  /-- A call of the lexer, which is answered by an element or by the end of the source. -/
  | call
  | element (form : Enclosure)
  | word
  /-- The parts of a word from here on. -/
  | parts
  | part
  | reference
  | expansion
  | attempt
  | construct (d : Delimiter)
  | body (d : Delimiter)
  /-- The elements of a body from here on. -/
  | elements (d : Delimiter)
  deriving DecidableEq, Repr

namespace Routine

abbrev Answer : Routine → Type
  | .call => Option Node
  | .word | .parts | .body _ | .elements _ => List Node
  | .element _ | .part | .reference | .expansion | .attempt | .construct _ => Node

def nodes : (r : Routine) → r.Answer → List Node
  | .call, answer => answer.toList
  | .word, answer => [.word answer]
  | .parts, answer | .body _, answer | .elements _, answer => answer
  | .element _, answer | .part, answer | .reference, answer | .expansion, answer
  | .attempt, answer | .construct _, answer => [answer]

/-- The scan that a routine is, where constructs are read by `inner`. A body reads its elements
on the same level. -/
def scan (inner : Inner) : (r : Routine) → Scan r.Answer
  | .call => do
    if (← MonadState.get).rest.isEmpty then return none
    else return some (← Scan.scriptPart inner)
  | .element form => Scan.part inner form
  | .word => Scan.word inner
  | .parts => Scan.many Scan.inWord (Scan.wordPart inner)
  | .part => Scan.wordPart inner
  | .reference => Scan.reference inner
  | .expansion => Scan.expansion inner
  | .attempt => Scan.attempt inner
  | .construct d => Scan.enclosure inner d
  | .body d => d.inBody (Scan.many d.goesOn (Scan.part inner d.form))
  | .elements d => Scan.many d.goesOn (Scan.part inner d.form)

end Routine

inductive CallTree (α : Type) where
  | ends (result : Scan.Result α)
  | calls (r : Routine) (s : Scanner) (next : Scan.Result r.Answer → CallTree α)
  /-- The construct opened at `start` has its body read, one level deeper. -/
  | enters (d : Delimiter) (start : Nat) (s : Scanner)
    (next : Scan.Result (List Node) → CallTree α)

def CallTree.after {α β : Type} : CallTree α → (Scan.Result α → CallTree β) → CallTree β
  | .ends result, f => f result
  | .calls r s next, f => .calls r s fun answer => (next answer).after f
  | .enters d start s next, f => .enters d start s fun answer => (next answer).after f

def Calling (α : Type) := Scanner → CallTree α

namespace Calling

variable {α β : Type}

instance : Monad Calling where
  pure a := fun s => .ends (.ok a s)
  bind x next := fun s => (x s).after fun
    | .ok a t => next a t
    | .error e t => .ends (.error e t)

instance : MonadLift Scan Calling where
  monadLift scan := fun s => .ends (scan s)

def ask (r : Routine) : Calling r.Answer := fun s => .calls r s .ends

def enter (d : Delimiter) (start : Nat) : Calling (List Node) := fun s =>
  .enters d start s .ends

def within (state : State) (x : Calling α) : Calling α := fun s =>
  (x (s.enter state)).after fun
    | .ok a t => .ends (.ok a (t.enter s.state))
    | .error e t => .ends (.error e (t.enter s.state))

def inBody (d : Delimiter) (x : Calling α) : Calling α :=
  match d with
  | .commandSubstitution => within .normal x
  | .doubleQuote | .arithmetic | .arithmeticGroup => x

def construct (d : Delimiter) : Calling Node := do
  let start := (← get).pos
  let opening ← Scan.opened d
  let nodes ← enter d start
  let closing ← Scan.closed d start
  return .enclosed d.form opening nodes closing

def attempt : Calling Node := fun s =>
  (ask (.construct .arithmetic) (s.note (.attempt s.pos))).after fun
    | .ok node t => .ends (.ok node t)
    | .error e t =>
      if e.isTooDeep then .ends (.error e t)
      else ask (.construct .commandSubstitution) (s.again e t)

def expansion : Calling Node := fun s =>
  match s.outcome? with
  | some _ => .ends (Scan.expansion none s)
  | none =>
    (ask .attempt s).after fun
      | .ok node t => .ends (.ok node (t.record s.pos ⟨.ok node, t.pos⟩))
      | .error e t =>
        .ends (.error e (if e.isTooDeep then t else t.record s.pos ⟨.error e, t.pos⟩))

def reference : Calling Node := do
  let s ← get
  if s.role? ≠ some .dollar then Scan.internal "expected `$`"
  else if (ascii "$((").isPrefixOf s.rest then ask .expansion
  else if (ascii "$(").isPrefixOf s.rest then ask (.construct .commandSubstitution)
  else Scan.reference none

def part : Calling Node := do
  match (← get).role? with
  | some .quote => ask (.construct .doubleQuote)
  | some .dollar => ask .reference
  | _ => Scan.wordPart none

def parts : Calling (List Node) := do
  if Scan.inWord (← get) then return (← ask .part) :: (← ask .parts) else return []

def word : Calling (List Node) := do
  match ← ask .parts with
  | [] => Scan.internal "word without elements"
  | nodes => return nodes

def commandWord : Calling Node := do
  let state := (← get).state
  let nodes ← ask .word
  match if state = .normal then Scan.reserved? nodes else none with
  | some (leaf, next) =>
    Scan.enter next
    return .leaf leaf
  | none =>
    Scan.enter .command
    return .word nodes

def caseSubject : Calling Node := do
  let nodes ← ask .word
  Scan.enter .caseIn
  return .word nodes

def casePart : Calling Node := do
  let nodes ← ask .word
  match (Node.onlyLeaf? .term nodes).filter (·.data = ascii "esac") with
  | some leaf =>
    Scan.enter .normal
    return .leaf { leaf with kind := .keyword }
  | none => return .word nodes

def element : Enclosure → Calling Node
  | .quotes => do
    match (← get).role? with
    | some .dollar => ask .reference
    | _ => Scan.quotedPart none
  | .arithmetic => do
    match (← get).role? with
    | some .dollar => ask .reference
    | some .openParen => ask (.construct .arithmeticGroup)
    | _ => Scan.arithmeticPart none
  | .substitution => do
    let s ← get
    if Scan.inWord s then
      match s.state with
      | .normal | .command => commandWord
      | .caseSubject => caseSubject
      | .casePattern => casePart
      | .caseIn => Scan.scriptPart none
    else Scan.scriptPart none

def elements (d : Delimiter) : Calling (List Node) := do
  if d.goesOn (← get) then return (← ask (.element d.form)) :: (← ask (.elements d))
  else return []

def call : Calling (Option Node) := do
  if (← get).rest.isEmpty then return none else return some (← ask (.element .substitution))

end Calling

def Routine.tree : (r : Routine) → Calling r.Answer
  | .call => Calling.call
  | .element form => Calling.element form
  | .word => Calling.word
  | .parts => Calling.parts
  | .part => Calling.part
  | .reference => Calling.reference
  | .expansion => Calling.expansion
  | .attempt => Calling.attempt
  | .construct d => Calling.construct d
  | .body d => Calling.inBody d (Calling.ask (.elements d))
  | .elements d => Calling.elements d

inductive Limit where
  | atMost (levels : Nat)
  | unlimited
  deriving DecidableEq, Repr

def Limit.deeper? : Limit → Option Limit
  | .atMost 0 => none
  | .atMost (levels + 1) => some (.atMost levels)
  | .unlimited => some .unlimited

/-- Carried out in full, with the calls that it makes and the calls that those make, the tree comes
to the result. -/
inductive CallTree.ComesTo :
    {α : Type} → (limit : Limit) → CallTree α → (result : Scan.Result α) → Prop where
  | ends {α limit} {result : Scan.Result α} : ComesTo limit (.ends result) result
  | calls {α limit r s answer next} {result : Scan.Result α}
    (h : ComesTo limit (r.tree s) answer) (k : ComesTo limit (next answer) result) :
    ComesTo limit (.calls r s next) result
  | enters {α limit below d start s answer next} {result : Scan.Result α}
    (hl : limit.deeper? = some below) (h : ComesTo below ((Routine.body d).tree s) answer)
    (k : ComesTo limit (next answer) result) :
    ComesTo limit (.enters d start s next) result
  | refused {α limit d start s next} {result : Scan.Result α} (hl : limit.deeper? = none)
    (k : ComesTo limit (next (.error ⟨.tooDeep nestingLimit, start⟩ s)) result) :
    ComesTo limit (.enters d start s next) result

/-- There is one thing at most that a tree comes to. -/
theorem CallTree.ComesTo.unique {α : Type} {limit : Limit} {c : CallTree α}
    {result other : Scan.Result α} (h : c.ComesTo limit result) (k : c.ComesTo limit other) :
    other = result := by
  induction h with
  | ends =>
    cases k
    rfl
  | calls _ _ ihcall ihnext =>
    cases k with
    | calls hcall hnext =>
      obtain rfl := ihcall hcall
      exact ihnext hnext
  | enters hl _ _ ihbody ihnext =>
    cases k with
    | enters hl' hbody hnext =>
      obtain rfl := Option.some.inj (hl'.symm.trans hl)
      obtain rfl := ihbody hbody
      exact ihnext hnext
    | refused hl' => nomatch hl'.symm.trans hl
  | refused hl _ ih =>
    cases k with
    | enters hl' => nomatch hl'.symm.trans hl
    | refused _ hnext => exact ih hnext

end ShellLex
