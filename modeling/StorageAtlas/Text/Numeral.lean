import StorageAtlas.Bytes
import StorageAtlas.Text.Integer

/-!
# Numerals below 2 ^ 256

Digit strings with `_` as a mute separator and without signs. No digits at all is zero.

Decimal digits are read from the left in groups of nineteen, and the size is looked at when a
group is full and at the end; digits of a base that is a power of two are read from the right, and
one that stands too high is noticed at once unless it is zero. So where a text has a wrong digit
and is too large as well, the base decides which of the two is reported.

Decimal fractions are kept as they are written; all that is asked of one is whether it is nearer to
infinity than to the largest double (`beyondDouble`).
-/

namespace StorageAtlas.Text

/-- Why a digit string is no number below 2 ^ 256. -/
inductive NumeralFault
  /-- A byte of the text that is no digit of the base. -/
  | invalidDigit (byte : UInt8)
  | tooLarge
deriving DecidableEq, Repr

namespace NumeralFault

def message : NumeralFault → String
  | invalidDigit b => "invalid digit: " ++ String.singleton (Char.ofUInt8 b)
  | tooLarge => "the value is too large to fit the target type"

end NumeralFault

/-- The bytes of a text in UTF-8. -/
def utf8 (cs : List Char) : Bytes := cs.flatMap String.utf8EncodeChar

theorem length_utf8 (s : String) : (utf8 s.toList).length = s.utf8ByteSize := by
  rw [← String.size_toByteArray, ← String.utf8Encode_toList, List.utf8Encode,
    List.size_toByteArray, utf8]

/-- A text is known by its bytes. -/
theorem utf8_inj {s t : String} : utf8 s.toList = utf8 t.toList ↔ s = t := by
  rw [← String.toByteArray_inj, ← String.utf8Encode_toList, ← String.utf8Encode_toList,
    List.utf8Encode, List.utf8Encode, List.toByteArray_inj, utf8, utf8]

/-- One past the largest number a numeral may denote. -/
def numeralLimit : Nat := Nat.pow 2 256

/-- Decimal digits after `count` digits of value `value`. -/
def readDecimal (value count : Nat) : Bytes → Except NumeralFault Nat
  | [] => if value < numeralLimit then .ok value else .error .tooLarge
  | b :: bs =>
    if Char.ofUInt8 b = '_' then readDecimal value count bs
    else match digitOf? 10 (Char.ofUInt8 b) with
      | none => .error (.invalidDigit b)
      | some d =>
        let next := value * 10 + d
        if (count + 1) % 19 = 0 ∧ numeralLimit ≤ next then .error .tooLarge
        else readDecimal next (count + 1) bs

/-- Digits of base `radix` from the right; the next one weighs `weight`. -/
def readFromRight (radix value weight : Nat) : Bytes → Except NumeralFault Nat
  | [] => .ok value
  | b :: bs =>
    if Char.ofUInt8 b = '_' then readFromRight radix value weight bs
    else match digitOf? radix (Char.ofUInt8 b) with
      | none => .error (.invalidDigit b)
      | some d =>
        if d = 0 then readFromRight radix value (weight * radix) bs
        else if d * weight < numeralLimit then
          readFromRight radix (value + d * weight) (weight * radix) bs
        else .error .tooLarge

/-- A decimal numeral. -/
def readNumeral10 (cs : List Char) : Except NumeralFault Nat := readDecimal 0 0 (utf8 cs)

/-- A numeral of a base that is a power of two. -/
def readNumeral2 (radix : Nat) (cs : List Char) : Except NumeralFault Nat :=
  readFromRight radix 0 1 (utf8 cs).reverse

/-- An integer literal: hexadecimal after `0x` or `0X`, else decimal. -/
def readLiteral : List Char → Except NumeralFault Nat
  | '0' :: 'x' :: cs => readNumeral2 16 cs
  | '0' :: 'X' :: cs => readNumeral2 16 cs
  | cs => readNumeral10 cs

/-- An integer literal that may also be octal (`0o`) or binary (`0b`). -/
def readMarkedLiteral : List Char → Except NumeralFault Nat
  | '0' :: 'o' :: cs => readNumeral2 8 cs
  | '0' :: 'O' :: cs => readNumeral2 8 cs
  | '0' :: 'b' :: cs => readNumeral2 2 cs
  | '0' :: 'B' :: cs => readNumeral2 2 cs
  | cs => readLiteral cs

/-! ## Decimal fractions -/

/-- Whether `digits * 10 ^ exponent` lies beyond the largest double. Far from the bound the number
of digits tells, so that a large exponent is never carried out. -/
def beyondDouble (digits : Nat) (exponent : Int) : Bool :=
  let length : Int := (Nat.toDigits 10 digits).length
  if digits = 0 then false
  else if length + exponent < 300 then false
  else if 310 < length + exponent then true
  else
    let limit := Nat.pow 2 1024 - Nat.pow 2 970
    match exponent with
    | .ofNat e => limit ≤ digits * Nat.pow 10 e
    | .negSucc e => limit * Nat.pow 10 (e + 1) ≤ digits

end StorageAtlas.Text
