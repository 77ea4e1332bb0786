import ShellLex.Byte
/-!
How far a lexeme reaches: each function here looks at the bytes that follow and answers with a
number of bytes. Operators are the longest match in a table.
-/
namespace ShellLex.Lexeme

/-- The operators of commands, the longer of two with one beginning first. -/
def operators : List (List UInt8) :=
  [";;", "&&", "||", "<<-", "<<", "<>", "<&", ">>", ">&", ">|", ";", "&", "|", "(", ")", "<",
    ">"].map ascii

def arithmeticOperators : List (List UInt8) :=
  ["<<=", ">>=", "**", "++", "--", "<<", ">>", "<=", ">=", "==", "!=", "&&", "||", "+=", "-=",
    "*=", "/=", "%=", "&=", "^=", "|=", "+", "-", "*", "/", "%", "<", ">", "=", "!", "~", "&",
    "^", "|", ",", "?", ":"].map ascii

def keywords : List (List UInt8) :=
  ["case", "do", "done", "elif", "else", "esac", "for", "if", "in", "then", "until",
    "while"].map ascii

def first? (table : List (List UInt8)) (bytes : List UInt8) : Option (List UInt8) :=
  table.find? (·.isPrefixOf bytes)

def operator (bytes : List UInt8) : Nat := ((first? operators bytes).map List.length).getD 1

def arithmeticOperator? (bytes : List UInt8) : Option Nat :=
  (first? arithmeticOperators bytes).map List.length

def escape (bytes : List UInt8) : Nat := min 2 bytes.length

/-- Decimal digits, or hexadecimal ones after a zero and an `x` in either case. -/
def number : List UInt8 → Nat
  | 0x30 :: x :: digits =>
    if x = 0x78 ∨ x = 0x58 then 2 + (digits.takeWhile isHexDigit).length
    else ((0x30 :: x :: digits).takeWhile isDigit).length
  | bytes => (bytes.takeWhile isDigit).length

/-- A dollar with the letters that follow, or with one byte if that is no letter. -/
def reference : List UInt8 → Nat
  | _ :: b :: bytes => if isLetter b then 2 + (bytes.takeWhile isLetter).length else 2
  | bytes => bytes.length

end ShellLex.Lexeme
