import StorageAtlas.Text.Numeral
import StorageAtlas.Toml

/-!
# Numbers and points in time in TOML

What stands without quotes: truth values, integers in four bases, numbers with a fraction or an
exponent, and points in time. How large a number is does not count when it is read; `isHeld` tells
whether a reader can hold it.
-/

namespace StorageAtlas.Toml

/-- The digits of a number, with single underscores between them left out. -/
def groupedDigits? (isDigit : Char → Bool) : List Char → Option (List Char)
  | [] => none
  | [c] => if isDigit c then some [c] else none
  | c :: '_' :: rest =>
    if isDigit c then (groupedDigits? isDigit rest).map (c :: ·) else none
  | c :: rest => if isDigit c then (groupedDigits? isDigit rest).map (c :: ·) else none

/-- The value of digits in a base. -/
def digitsValue (radix : Nat) (cs : List Char) : Nat :=
  cs.foldl (fun n c => n * radix + (Text.digitOf? radix c).getD 0) 0

/-- A sign in front, and what follows it. -/
def signed (cs : List Char) : Bool × List Char :=
  match cs with
  | '-' :: rest => (true, rest)
  | '+' :: rest => (false, rest)
  | rest => (false, rest)

/-- Digits in base ten without a needless zero in front. -/
def wholePart? (cs : List Char) : Option (List Char) :=
  match groupedDigits? Char.isDigit cs with
  | some ('0' :: _ :: _) => none
  | other => other

def marked? (radix : Nat) (cs : List Char) : Option Int :=
  (groupedDigits? (fun c => (Text.digitOf? radix c).isSome) cs).map fun ds => digitsValue radix ds

def integer? (cs : List Char) : Option Int :=
  match cs with
  | '0' :: 'x' :: rest => marked? 16 rest
  | '0' :: 'o' :: rest => marked? 8 rest
  | '0' :: 'b' :: rest => marked? 2 rest
  | _ =>
    let (negative, digits) := signed cs
    (wholePart? digits).map fun ds =>
      let n : Int := digitsValue 10 ds
      if negative then -n else n

/-- Whether a text is an exponent behind its letter. -/
def isExponent (cs : List Char) : Bool := (groupedDigits? Char.isDigit (signed cs).2).isSome

/-- Whether a text is a number with a fraction or an exponent, or none at all. -/
def isFloat (cs : List Char) : Bool :=
  let isMark (c : Char) : Bool := c == 'e' || c == 'E'
  let digits := (signed cs).2
  let mantissa := digits.takeWhile (!isMark ·)
  let exponent := digits.dropWhile (!isMark ·)
  let whole := mantissa.takeWhile (· != '.')
  let fraction := mantissa.dropWhile (· != '.')
  if digits = "inf".toList ∨ digits = "nan".toList then true
  else (wholePart? whole).isSome && (!fraction.isEmpty || !exponent.isEmpty) &&
    (fraction.isEmpty || (groupedDigits? Char.isDigit fraction.tail).isSome) &&
    (exponent.isEmpty || isExponent exponent.tail)

/-! ## Sizes of numbers -/

/-- Whether an integer has at most 128 bits, with or without a sign. -/
def isHeldInteger (n : Int) : Bool := -(Nat.pow 2 127 : Int) ≤ n && n < Nat.pow 2 128

/-- Whether a written number stays within the doubles. The names of infinity and of no number have
no digits, so they do. -/
def isHeldFloat (written : List Char) : Bool :=
  let isMark (c : Char) : Bool := c == 'e' || c == 'E'
  let digits := (signed written).2.filter (· != '_')
  let mantissa := digits.takeWhile (!isMark ·)
  let (negative, exponent) := signed (digits.dropWhile (!isMark ·)).tail
  let fraction := (mantissa.dropWhile (· != '.')).tail
  let e : Int := digitsValue 10 exponent
  !Text.beyondDouble (digitsValue 10 (mantissa.takeWhile (· != '.') ++ fraction))
    ((if negative then -e else e) - fraction.length)

mutual
/-- Whether a reader can hold every number of a value. -/
def isHeld : Toml → Bool
  | integer n => isHeldInteger n
  | float written => isHeldFloat written.toList
  | array items | tables items => areHeldItems items
  | table _ entries => areHeldEntries entries
  | _ => true

def areHeldItems : List Toml → Bool
  | [] => true
  | t :: rest => t.isHeld && areHeldItems rest

def areHeldEntries : List (String × Toml) → Bool
  | [] => true
  | (_, t) :: rest => t.isHeld && areHeldEntries rest
end

/-! ## Points in time -/

/-- A number of two digits. -/
def twoDigits? (a b : Char) : Option Nat :=
  if a.isDigit && b.isDigit then some (digitsValue 10 [a, b]) else none

def daysIn (year month : Nat) : Nat :=
  if month = 2 then
    if year % 4 = 0 ∧ (year % 100 ≠ 0 ∨ year % 400 = 0) then 29 else 28
  else if month ∈ [4, 6, 9, 11] then 30
  else 31

/-- What follows a date, if the text starts with one. -/
def afterDate? (cs : List Char) : Option (List Char) :=
  match cs with
  | y₁ :: y₂ :: y₃ :: y₄ :: '-' :: m₁ :: m₂ :: '-' :: d₁ :: d₂ :: rest => do
    let century ← twoDigits? y₁ y₂
    let year ← twoDigits? y₃ y₄
    let month ← twoDigits? m₁ m₂
    let day ← twoDigits? d₁ d₂
    if 1 ≤ month ∧ month ≤ 12 ∧ 1 ≤ day ∧ day ≤ daysIn (century * 100 + year) month then some rest
    else none
  | _ => none

/-- What follows the seconds of a time of day, which may have a fraction. -/
def afterSeconds? (cs : List Char) : Option (List Char) :=
  match cs with
  | s₁ :: s₂ :: rest =>
    if (twoDigits? s₁ s₂).any (· ≤ 60) then
      match rest with
      | '.' :: c :: more => if c.isDigit then some (more.dropWhile Char.isDigit) else none
      | '.' :: [] => none
      | rest => some rest
    else none
  | _ => none

/-- What follows a time of day, if the text starts with one. The seconds may be left out. -/
def afterTime? (cs : List Char) : Option (List Char) :=
  match cs with
  | h₁ :: h₂ :: ':' :: m₁ :: m₂ :: rest =>
    if (twoDigits? h₁ h₂).any (· ≤ 23) && (twoDigits? m₁ m₂).any (· ≤ 59) then
      match rest with
      | ':' :: rest => afterSeconds? rest
      | rest => some rest
    else none
  | _ => none

/-- Whether a text is a distance from universal time, or nothing. -/
def isOffset (cs : List Char) : Bool :=
  match cs with
  | [] | ['Z'] | ['z'] => true
  | [sign, h₁, h₂, ':', m₁, m₂] =>
    (sign == '+' || sign == '-') && (twoDigits? h₁ h₂).any (· ≤ 23) &&
      (twoDigits? m₁ m₂).any (· ≤ 59)
  | _ => false

/-- Whether a text is a date, a time of day, or both. -/
def isDatetime (cs : List Char) : Bool :=
  match afterDate? cs with
  | some [] => true
  | some (c :: rest) =>
    (c == 'T' || c == 't' || c == ' ') &&
      (match afterTime? rest with
      | some offset => isOffset offset
      | none => false)
  | none => afterTime? cs == some []

/-- The value that a text without quotes stands for. -/
def scalar? (cs : List Char) : Option Toml :=
  if cs = "true".toList then some (boolean true)
  else if cs = "false".toList then some (boolean false)
  else match integer? cs with
    | some n => some (integer n)
    | none =>
      if isFloat cs then some (float (String.ofList cs))
      else if isDatetime cs then some (datetime (String.ofList cs))
      else none

end StorageAtlas.Toml
