import StorageAtlas.Json
import StorageAtlas.Text.Numeral

/-!
# Reading JSON

No comments, no trailing text, no raw control characters in strings. Halves of surrogate pairs,
more than 127 arrays and objects inside one another, numbers beyond the range of a double and a
comma at the end of an array are flaws of the values they are found in.
-/

namespace StorageAtlas.Json

/-- The four blanks of the format. -/
def isSpace (c : Char) : Bool := c == ' ' || c == '\t' || c == '\n' || c == '\r'

def skipSpace (cs : List Char) : List Char := cs.dropWhile isSpace

/-! ## Strings -/

/-- The number four digits of base sixteen denote. -/
def hexQuad? (a b c d : Char) : Option Nat := do
  let a ← Text.digitOf? 16 a
  let b ← Text.digitOf? 16 b
  let c ← Text.digitOf? 16 c
  let d ← Text.digitOf? 16 d
  return ((a * 16 + b) * 16 + c) * 16 + d

/-- The character behind a one-letter escape. -/
def shortEscape? (c : Char) : Option Char :=
  match c with
  | '"' => some '"'
  | '\\' => some '\\'
  | '/' => some '/'
  | 'b' => some (Char.ofNat 8)
  | 'f' => some (Char.ofNat 12)
  | 'n' => some '\n'
  | 'r' => some '\r'
  | 't' => some '\t'
  | _ => none

def isHighHalf (n : Nat) : Bool := 0xd800 ≤ n && n < 0xdc00

def isLowHalf (n : Nat) : Bool := 0xdc00 ≤ n && n < 0xe000

/-- The character behind two halves of a pair. -/
def joinHalves (high low : Nat) : Char :=
  Char.ofNat (0x10000 + (high - 0xd800) * 0x400 + (low - 0xdc00))

/-- What a string holds so far, last first, when one more character is read: nothing once a half of
a pair stands alone. -/
def extend (half : Option Nat) (done : Option (List Char)) (c : Char) : Option (List Char) :=
  if half.isSome then none else done.map (c :: ·)

/-- Reads a string up to its closing quote. `half` is the first half of a pair when it was read
last. -/
def readString (half : Option Nat) (done : Option (List Char)) :
    List Char → Option (Json × List Char)
  | '"' :: rest =>
    match half, done with
    | none, some cs => some (.string (String.ofList cs.reverse), rest)
    | _, _ => some (.flawed .halfPair, rest)
  | '\\' :: 'u' :: a :: b :: c :: d :: rest =>
    match hexQuad? a b c d, half with
    | none, _ => none
    | some n, some high =>
      readString none (if isLowHalf n then done.map (joinHalves high n :: ·) else none) rest
    | some n, none =>
      if isHighHalf n then readString (some n) done rest
      else readString none (if isLowHalf n then none else done.map (Char.ofNat n :: ·)) rest
  | '\\' :: c :: rest =>
    match shortEscape? c with
    | some c => readString none (extend half done c) rest
    | none => none
  | c :: rest => if c.toNat < 32 then none else readString none (extend half done c) rest
  | [] => none

/-! ## Numbers -/

/-- The value of decimal digits. -/
def digitsValue (cs : List Char) : Nat := cs.foldl (fun n c => n * 10 + (c.toNat - '0'.toNat)) 0

/-- The digits behind a decimal point, if there is one. -/
def readFraction (cs : List Char) : Option (List Char × List Char) :=
  match cs with
  | '.' :: rest =>
    match rest.takeWhile Char.isDigit with
    | [] => none
    | ds => some (ds, rest.dropWhile Char.isDigit)
  | _ => some ([], cs)

/-- The exponent, if there is one, and whether it was written. -/
def readExponent (cs : List Char) : Option (Int × Bool × List Char) :=
  match cs with
  | [] => some (0, false, [])
  | c :: rest =>
    if c = 'e' ∨ c = 'E' then
      let (negative, rest) : Bool × List Char := match rest with
        | '-' :: r => (true, r)
        | '+' :: r => (false, r)
        | r => (false, r)
      match rest.takeWhile Char.isDigit with
      | [] => none
      | ds =>
        let n : Int := digitsValue ds
        some (if negative then -n else n, true, rest.dropWhile Char.isDigit)
    else some (0, false, cs)

/-- Reads a number behind its sign. -/
def readUnsigned (negative : Bool) (cs : List Char) : Option (Json × List Char) :=
  let whole := cs.takeWhile Char.isDigit
  match whole with
  | [] => none
  | '0' :: _ :: _ => none
  | _ =>
    match readFraction (cs.dropWhile Char.isDigit) with
    | none => none
    | some (fraction, afterFraction) =>
      match readExponent afterFraction with
      | none => none
      | some (exponent, hasExponent, rest) =>
        let n := digitsValue whole
        let isInteger := fraction.isEmpty && !hasExponent &&
          (if negative then n != 0 && n ≤ UInt64.size / 2 else n < UInt64.size)
        if isInteger then some (.integer (if negative then -(n : Int) else n), rest)
        else
          let digits := digitsValue (whole ++ fraction)
          if Text.beyondDouble digits (exponent - fraction.length) then
            some (.flawed .tooLarge, rest)
          else
            let written := cs.take (cs.length - rest.length)
            some (.real ((if negative then "-" else "") ++ String.ofList written), rest)

def readNumber (cs : List Char) : Option (Json × List Char) :=
  match cs with
  | '-' :: rest => readUnsigned true rest
  | _ => readUnsigned false cs

/-! ## Values -/

/-- An entry whose key was read as a value. -/
def entry? : Json × Json → Option (String × Json)
  | (.string key, j) => some (key, j)
  | _ => none

/-- An object whose keys were read as values. -/
def ofEntries (entries : List (Json × Json)) : Json :=
  match entries.mapM entry? with
  | some entries => object entries
  | none => spoiled .halfPair (array (entries.map (·.2)))

/-- An array or object where `room` for more is left. -/
def enclosed (room : Nat) (j : Json) : Json := if room = 0 then spoiled .tooDeep j else j

mutual
/-- Reads a value. `fuel` bounds the steps by the length of the text, `room` the nesting. -/
def readValue : Nat → Nat → List Char → Option (Json × List Char)
  | 0, _, _ => none
  | fuel + 1, room, cs =>
    match skipSpace cs with
    | 'n' :: 'u' :: 'l' :: 'l' :: rest => some (.null, rest)
    | 't' :: 'r' :: 'u' :: 'e' :: rest => some (.bool true, rest)
    | 'f' :: 'a' :: 'l' :: 's' :: 'e' :: rest => some (.bool false, rest)
    | '"' :: rest => readString none (some []) rest
    | '[' :: rest =>
      match skipSpace rest with
      | ']' :: rest => some (enclosed room (.array []), rest)
      | rest => (readItems fuel (room - 1) [] rest).map fun r => (enclosed room (.array r.1), r.2)
    | '\x7b' :: rest =>
      match skipSpace rest with
      | '\x7d' :: rest => some (enclosed room (.object []), rest)
      | rest =>
        (readEntries fuel (room - 1) [] rest).map fun r => (enclosed room (ofEntries r.1), r.2)
    | cs => readNumber cs

/-- Reads the items of an array, one at least; `done` holds those before, last first. -/
def readItems : Nat → Nat → List Json → List Char → Option (List Json × List Char)
  | 0, _, _, _ => none
  | fuel + 1, room, done, cs =>
    match readValue fuel room cs with
    | none => none
    | some (j, rest) =>
      match skipSpace rest with
      | ',' :: rest =>
        match skipSpace rest with
        | ']' :: rest => some ((.flawed .missing :: j :: done).reverse, rest)
        | rest => readItems fuel room (j :: done) rest
      | ']' :: rest => some ((j :: done).reverse, rest)
      | _ => none

/-- Reads the entries of an object, one at least; `done` holds those before, last first. -/
def readEntries : Nat → Nat → List (Json × Json) → List Char →
    Option (List (Json × Json) × List Char)
  | 0, _, _, _ => none
  | fuel + 1, room, done, cs =>
    match skipSpace cs with
    | '"' :: rest =>
      match readString none (some []) rest with
      | none => none
      | some (key, rest) =>
        match skipSpace rest with
        | ':' :: rest =>
          match readValue fuel room rest with
          | none => none
          | some (j, rest) =>
            match skipSpace rest with
            | ',' :: rest => readEntries fuel room ((key, j) :: done) rest
            | '\x7d' :: rest => some (((key, j) :: done).reverse, rest)
            | _ => none
        | _ => none
    | _ => none
end

/-- Reads a text that is one value. -/
def parse (text : String) : Option Json :=
  let cs := text.toList
  match readValue (cs.length + 1) 127 cs with
  | some (j, rest) => if (skipSpace rest).isEmpty then some j else none
  | none => none

end StorageAtlas.Json
