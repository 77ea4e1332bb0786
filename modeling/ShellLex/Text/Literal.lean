import ShellLex.Text.Hidden
/-!
Quoted literals: text between double quotes, with escapes for the quote, the backslash, the usual
controls and, by their number, the characters that a predicate calls hidden.
-/
namespace ShellLex.Text

/-- The escape `\u{...}` with the code point in lower-case hexadecimal, not padded. -/
def codePoint (c : Char) : List Char :=
  '\\' :: 'u' :: '{' :: (Nat.toDigits 16 c.toNat ++ ['}'])

def literalChar (hidden : Char → Bool) (c : Char) : List Char :=
  match c with
  | '\x00' => ['\\', '0']
  | '\t' => ['\\', 't']
  | '\r' => ['\\', 'r']
  | '\n' => ['\\', 'n']
  | '"' => ['\\', '"']
  | '\\' => ['\\', '\\']
  | c => if hidden c then codePoint c else [c]

def literalWith (hidden : Char → Bool) (text : List Char) : List Char :=
  '"' :: (text.flatMap (literalChar hidden) ++ ['"'])

def literal (text : List Char) : List Char := literalWith isHidden text

end ShellLex.Text
