/-!
Shell source is read byte by byte. A byte's role says what it can begin in a command; the letters,
digits and names are those of ASCII, so every byte of a multi-byte character is plain.
-/
namespace ShellLex

def ascii (text : String) : List UInt8 := text.toList.map (·.toUInt8)

inductive Role where
  | blank
  | newline
  | hash
  | separator
  | openParen
  | closeParen
  | redirection
  | mark
  | backslash
  | quote
  | dollar
  | plain
  deriving DecidableEq, Repr

def role : UInt8 → Role
  | 0x20 | 0x09 => .blank
  | 0x0A => .newline
  | 0x23 => .hash
  | 0x3B | 0x26 | 0x7C => .separator    -- ; & |
  | 0x28 => .openParen
  | 0x29 => .closeParen
  | 0x3C | 0x3E => .redirection         -- < >
  | 0x21 | 0x7B | 0x7D => .mark         -- the bang and the braces
  | 0x5C => .backslash
  | 0x22 => .quote
  | 0x24 => .dollar
  | _ => .plain

def Role.endsWord : Role → Bool
  | .blank | .newline | .hash | .separator | .openParen | .closeParen | .redirection => true
  | .mark | .backslash | .quote | .dollar | .plain => false

def isBlank (b : UInt8) : Bool := role b == .blank

def isPlain (b : UInt8) : Bool := role b == .plain

def isDigit (b : UInt8) : Bool := 0x30 ≤ b && b ≤ 0x39

def isLetter (b : UInt8) : Bool := (0x41 ≤ b && b ≤ 0x5A) || (0x61 ≤ b && b ≤ 0x7A)

def isHexDigit (b : UInt8) : Bool :=
  isDigit b || (0x41 ≤ b && b ≤ 0x46) || (0x61 ≤ b && b ≤ 0x66)

def isNameStart (b : UInt8) : Bool := isLetter b || b == 0x5F

def isNameByte (b : UInt8) : Bool := isNameStart b || isDigit b

end ShellLex
