/-!
UTF-8 between bytes and characters. Decoding never fails: an ill-formed stretch is cut into its
maximal subparts, and each of them stands in the result as `none`.
-/
namespace ShellLex.Utf8

def encode (text : List Char) : List UInt8 := text.flatMap String.utf8EncodeChar

/-- What may follow a lead byte: its own payload, how many bytes are still to come, and the range
of the first of them. Every later one lies in `0x80 ... 0xBF`. -/
structure Lead where
  payload : Nat
  count : Nat
  low : UInt8
  high : UInt8
  deriving DecidableEq, Repr

/-- The narrowed ranges keep out overlong forms, surrogates and values above `0x10FFFF`. -/
def lead? (b : UInt8) : Option Lead :=
  if b ≤ 0x7F then some ⟨b.toNat, 0, 0x80, 0xBF⟩
  else if b < 0xC2 then none
  else if b ≤ 0xDF then some ⟨b.toNat - 0xC0, 1, 0x80, 0xBF⟩
  else if b = 0xE0 then some ⟨0, 2, 0xA0, 0xBF⟩
  else if b = 0xED then some ⟨13, 2, 0x80, 0x9F⟩
  else if b ≤ 0xEF then some ⟨b.toNat - 0xE0, 2, 0x80, 0xBF⟩
  else if b = 0xF0 then some ⟨0, 3, 0x90, 0xBF⟩
  else if b ≤ 0xF3 then some ⟨b.toNat - 0xF0, 3, 0x80, 0xBF⟩
  else if b = 0xF4 then some ⟨4, 3, 0x80, 0x8F⟩
  else none

def continuing : (count : Nat) → (low high : UInt8) → List UInt8 → Nat
  | 0, _, _, _ => 0
  | _ + 1, _, _, [] => 0
  | count + 1, low, high, b :: bytes =>
    if low ≤ b ∧ b ≤ high then continuing count 0x80 0xBF bytes + 1 else 0

def scalar (payload : Nat) (bytes : List UInt8) : Nat :=
  bytes.foldl (fun value b => value * 64 + (b.toNat - 0x80)) payload

/-- The characters of `bytes` after the first `skip`, which belong to the character before. -/
def decodeFrom : (skip : Nat) → List UInt8 → List (Option Char)
  | _, [] => []
  | skip + 1, _ :: bytes => decodeFrom skip bytes
  | 0, b :: bytes =>
    match lead? b with
    | none => none :: decodeFrom 0 bytes
    | some lead =>
      let taken := continuing lead.count lead.low lead.high bytes
      let char :=
        if taken = lead.count then some (Char.ofNat (scalar lead.payload (bytes.take taken)))
        else none
      char :: decodeFrom taken bytes

def decode (bytes : List UInt8) : List (Option Char) := decodeFrom 0 bytes

def replacement : Char := '\uFFFD'

def lossy (bytes : List UInt8) : List Char := (decode bytes).map (·.getD replacement)

def decode? (bytes : List UInt8) : Option (List Char) := (decode bytes).mapM id

end ShellLex.Utf8
