/-!
The tree that lexing produces: leaves are stretches of the source, words are their adjacent parts,
and an enclosure is a body between an opening and a closing leaf.
-/
namespace ShellLex

inductive Kind where
  | unknown
  | space
  | newLine
  | comment
  | term
  | operator
  | keyword
  | variable
  | quote
  | escaped
  deriving DecidableEq, Repr

def Kind.all : List Kind :=
  [.unknown, .space, .newLine, .comment, .term, .operator, .keyword, .variable, .quote, .escaped]

def Kind.name : Kind → String
  | .unknown => "Unknown"
  | .space => "Space"
  | .newLine => "NewLine"
  | .comment => "Comment"
  | .term => "Term"
  | .operator => "Operator"
  | .keyword => "Keyword"
  | .variable => "Variable"
  | .quote => "Quote"
  | .escaped => "Escaped"

structure Leaf where
  kind : Kind
  data : List UInt8
  pos : Nat
  deriving DecidableEq, Repr

def Leaf.stop (leaf : Leaf) : Nat := leaf.pos + leaf.data.length

inductive Enclosure where
  | quotes
  | substitution
  | arithmetic
  deriving DecidableEq, Repr

inductive Node where
  | leaf (leaf : Leaf)
  | word (nodes : List Node)
  | enclosed (form : Enclosure) (opening : Leaf) (nodes : List Node) (closing : Leaf)
  deriving Repr

namespace Node

def pos : Node → Nat
  | .leaf l => l.pos
  | .word [] => 0
  | .word (node :: _) => node.pos
  | .enclosed _ opening _ _ => opening.pos

mutual

def stop : Node → Nat
  | .leaf l => l.stop
  | .word nodes => stopAll nodes
  | .enclosed _ _ _ closing => closing.stop

def stopAll : List Node → Nat
  | [] => 0
  | [node] => node.stop
  | _ :: nodes => stopAll nodes

end

mutual

def text : Node → List UInt8
  | .leaf l => l.data
  | .word nodes => textAll nodes
  | .enclosed _ opening nodes closing => opening.data ++ textAll nodes ++ closing.data

def textAll : List Node → List UInt8
  | [] => []
  | node :: nodes => node.text ++ textAll nodes

end

def onlyLeaf? (kind : Kind) : List Node → Option Leaf
  | [.leaf l] => if l.kind = kind then some l else none
  | _ => none

end Node

def Enclosure.name : Enclosure → String
  | .quotes => "QQString"
  | .substitution => "SubshellString"
  | .arithmetic => "MathGroup"

def Enclosure.fields : Enclosure → String × String
  | .quotes | .substitution => ("Lquote", "Rquote")
  | .arithmetic => ("Lbrace", "Rbrace")

end ShellLex
