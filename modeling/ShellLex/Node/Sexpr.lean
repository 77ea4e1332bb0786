import ShellLex.Node
import ShellLex.Text.Literal
import ShellLex.Text.Utf8
/-!
Trees as s-expressions. The delimiters of an enclosure are not written. Its head implies them, but
that a group in arithmetic has the head of an expansion.
-/
namespace ShellLex.Sexpr

def leaf (l : Leaf) : List Char :=
  '(' :: (l.kind.name.toList ++ ' ' :: (Text.literal (Utf8.lossy l.data) ++ [')']))

def head : Enclosure → String
  | .quotes => "qq"
  | .substitution => "subshell"
  | .arithmetic => "math"

mutual

def node : Node → List Char
  | .leaf l => leaf l
  | .word nodes => '(' :: ("word".toList ++ members nodes ++ [')'])
  | .enclosed form _ nodes _ => '(' :: ((head form).toList ++ members nodes ++ [')'])

def members : List Node → List Char
  | [] => []
  | n :: nodes => ' ' :: (node n ++ members nodes)

end

end ShellLex.Sexpr

namespace ShellLex

def Node.sexpr (node : Node) : String := String.ofList (Sexpr.node node)

def sexprs (nodes : List Node) : List String := nodes.map Node.sexpr

end ShellLex
