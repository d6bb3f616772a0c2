/-!
# Integers of a machine width

Reading a digit string that must stay below a limit. One leading plus sign is allowed, leading
zeros are, a minus sign is not. Where a digit is wrong and the value is already too large, the
fault that stands further to the left wins.

Numbers are written in a base, and spans of time in the largest unit that keeps them at or above
one: seconds with up to three places and no trailing zeros, else milliseconds (`span`). No time at
all is `0ns`.
-/

namespace StorageAtlas.Text

/-- Why a digit string is not an integer below the limit. -/
inductive IntegerFault
  | empty
  | invalidDigit
  | tooLarge
deriving DecidableEq, Repr

namespace IntegerFault

def message : IntegerFault → String
  | empty => "cannot parse integer from empty string"
  | invalidDigit => "invalid digit found in string"
  | tooLarge => "number too large to fit in target type"

end IntegerFault

/-- The value of a digit or letter, in bases up to 36. -/
def digitValue? (c : Char) : Option Nat :=
  if '0' ≤ c ∧ c ≤ '9' then some (c.toNat - '0'.toNat)
  else if 'a' ≤ c ∧ c ≤ 'z' then some (c.toNat - 'a'.toNat + 10)
  else if 'A' ≤ c ∧ c ≤ 'Z' then some (c.toNat - 'A'.toNat + 10)
  else none

/-- The value of `c` as a digit of base `radix`. -/
def digitOf? (radix : Nat) (c : Char) : Option Nat :=
  (digitValue? c).filter (· < radix)

/-- Extends `value` by the digits, keeping it below `limit`. -/
def readDigits (radix limit value : Nat) : List Char → Except IntegerFault Nat
  | [] => .ok value
  | c :: cs =>
    match digitOf? radix c with
    | none => .error .invalidDigit
    | some d =>
      let next := value * radix + d
      if next < limit then readDigits radix limit next cs else .error .tooLarge

/-- Reads an integer below `limit`; a lone sign is a wrong digit. -/
def readInteger (radix limit : Nat) (cs : List Char) : Except IntegerFault Nat :=
  match cs with
  | [] => .error .empty
  | ['+'] => .error .invalidDigit
  | '+' :: c :: rest => readDigits radix limit 0 (c :: rest)
  | c :: rest => readDigits radix limit 0 (c :: rest)

/-- The digits of a number in a base, most significant first; zero has one digit. -/
def digits (radix n : Nat) : List Char := Nat.toDigits radix n

/-- A number in base ten. -/
def decimal (n : Nat) : String := String.ofList (digits 10 n)

/-- A number in base sixteen, in lower case and without a mark. -/
def hexadecimal (n : Nat) : String := String.ofList (digits 16 n)

/-! ## Spans of time -/

/-- The places after the point of `thousandths / 1000`, without trailing zeros. -/
def places (thousandths : Nat) : List Char :=
  let padded := (digits 10 (1000 + thousandths % 1000)).drop 1
  (padded.reverse.dropWhile (· == '0')).reverse

/-- The text of a span of `ms` milliseconds. -/
def span (ms : Nat) : String :=
  if ms = 0 then "0ns"
  else if ms < 1000 then decimal ms ++ "ms"
  else
    match places (ms % 1000) with
    | [] => decimal (ms / 1000) ++ "s"
    | fraction => decimal (ms / 1000) ++ "." ++ String.ofList fraction ++ "s"

end StorageAtlas.Text
