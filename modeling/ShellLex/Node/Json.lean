import ShellLex.Node
import ShellLex.Text.Utf8
/-!
Trees as compact JSON. Every object begins with its `Type`, and an enclosure's closing leaf comes
last, so the `Data` values stand in source order.
-/
namespace ShellLex.Json

def unitEscape (c : Char) : List Char :=
  let digits := Nat.toDigits 16 c.toNat
  '\\' :: 'u' :: (List.replicate (4 - digits.length) '0' ++ digits)

def stringChar (c : Char) : List Char :=
  match c with
  | '"' => ['\\', '"']
  | '\\' => ['\\', '\\']
  | '\x08' => ['\\', 'b']
  | '\x0c' => ['\\', 'f']
  | '\n' => ['\\', 'n']
  | '\r' => ['\\', 'r']
  | '\t' => ['\\', 't']
  | c => if c.toNat < 0x20 then unitEscape c else [c]

def string (text : List Char) : List Char := '"' :: (text.flatMap stringChar ++ ['"'])

def member (name : String) (value : List Char) : List Char := string name.toList ++ ':' :: value

def object (members : List (List Char)) : List Char :=
  '{' :: (List.intercalate [','] members ++ ['}'])

def array (values : List (List Char)) : List Char :=
  '[' :: (List.intercalate [','] values ++ [']'])

def leaf (l : Leaf) : List Char :=
  object [member "Type" (string "Leaf".toList), member "Kind" (string l.kind.name.toList),
    member "Data" (string (Utf8.lossy l.data))]

mutual

def node : Node → List Char
  | .leaf l => leaf l
  | .word nodes =>
    object [member "Type" (string "Word".toList), member "Nodes" (array (nodeAll nodes))]
  | .enclosed form opening nodes closing =>
    object [member "Type" (string form.name.toList), member form.fields.1 (leaf opening),
      member "Nodes" (array (nodeAll nodes)), member form.fields.2 (leaf closing)]

def nodeAll : List Node → List (List Char)
  | [] => []
  | n :: nodes => node n :: nodeAll nodes

end

end ShellLex.Json

namespace ShellLex

def toJson (nodes : List Node) : String := String.ofList (Json.array (Json.nodeAll nodes))

end ShellLex
