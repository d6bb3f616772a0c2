import StorageAtlas.Bytes
import StorageAtlas.Text.Numeral

/-!
# Byte strings in base sixteen

Two lower-case digits a byte when written. When read, digits of both cases count, the length has
to be even, and a fault names the first byte of the text that is no digit and where it stands.
-/

namespace StorageAtlas.Text

/-- Why a text is no byte string in base sixteen. -/
inductive HexFault
  | oddLength
  /-- The first byte that is no digit, and its position. -/
  | invalidByte (byte : UInt8) (position : Nat)
deriving DecidableEq, Repr

def hexDigit (n : Nat) : Char := Nat.digitChar n

/-- The two digits of a byte. -/
def hexByte (b : UInt8) : List Char := [hexDigit (b.toNat / 16), hexDigit (b.toNat % 16)]

/-- The digits of a byte string. -/
def hexDigits (bs : Bytes) : List Char := bs.flatMap hexByte

/-- A byte string as `0x` and its digits. -/
def hex (bs : Bytes) : String := "0x" ++ String.ofList (hexDigits bs)

/-- Reads pairs of digits; `position` is that of the first of them. -/
def readHexPairs (position : Nat) : Bytes → Except HexFault Bytes
  | [] => .ok []
  | [_] => .error .oddLength
  | h :: l :: rest =>
    match digitOf? 16 (Char.ofUInt8 h), digitOf? 16 (Char.ofUInt8 l) with
    | none, _ => .error (.invalidByte h position)
    | some _, none => .error (.invalidByte l (position + 1))
    | some a, some b =>
      match readHexPairs (position + 2) rest with
      | .error e => .error e
      | .ok bs => .ok (UInt8.ofNat (16 * a + b) :: bs)

/-- Reads a byte string without a mark; an odd length is noticed before any digit. -/
def readHex (cs : List Char) : Except HexFault Bytes :=
  let text := utf8 cs
  if text.length % 2 = 1 then .error .oddLength else readHexPairs 0 text

/-- The text behind an optional `0x`. -/
def dropHexMark : List Char → List Char
  | '0' :: 'x' :: cs => cs
  | cs => cs

/-- A byte as a character between single quotes; what does not print is escaped. -/
def quotedByte (b : UInt8) : String :=
  let n := b.toNat
  let body :=
    if n = 0 then "\\0"
    else if n = 9 then "\\t"
    else if n = 10 then "\\n"
    else if n = 13 then "\\r"
    else if n = 39 then "\\'"
    else if n = 92 then "\\\\"
    else if n < 32 ∨ (127 ≤ n ∧ n ≤ 160) ∨ n = 173 then "\\u\x7b" ++ hexadecimal n ++ "\x7d"
    else String.singleton (Char.ofUInt8 b)
  "'" ++ body ++ "'"

namespace HexFault

/-- The wording for byte strings of any length. -/
def message : HexFault → String
  | oddLength => "Odd number of digits"
  | invalidByte b position =>
    "Invalid character " ++ quotedByte b ++ " at position " ++ decimal position

end HexFault

end StorageAtlas.Text
