import StorageAtlas.Text.Integer

/-!
# Hosts

A host is a name or a number. Numbers of 32 bits are read in one to four parts, of which the last
fills what is left, each in base eight, ten or sixteen; numbers of 128 bits in eight pieces, where a
pair of colons stands for one or more pieces that are zero. Both are shown in one form only.
-/

namespace StorageAtlas.Url

open Text

/-- Who is asked: a name, or the number of a machine. -/
inductive Host
  | name (text : String)
  /-- A number of 32 bits. -/
  | v4 (number : Nat)
  /-- A number of 128 bits, in eight pieces. -/
  | v6 (pieces : List Nat)
deriving DecidableEq, Repr

/-! ## Numbers of 32 bits -/

/-- The number of digits in a base; of no digits, zero. -/
def digitsNumber? (radix : Nat) (ds : List Char) : Option Nat :=
  if ds.all fun d => (digitOf? radix d).isSome then
    some (ds.foldl (fun n d => n * radix + (digitOf? radix d).getD 0) 0)
  else none

/-- One part of a number: in base sixteen behind `0x`, and in base eight behind a zero. -/
def v4Part? (cs : List Char) : Option Nat :=
  match cs with
  | [] => none
  | '0' :: 'x' :: ds | '0' :: 'X' :: ds => digitsNumber? 16 ds
  | '0' :: d :: ds => digitsNumber? 8 (d :: ds)
  | ds => digitsNumber? 10 ds

/-- The parts between dots. One dot at the end does not count. -/
def v4Parts (cs : List Char) : List (List Char) :=
  let parts := cs.splitOnP (· == '.')
  if 1 < parts.length && parts.getLast? == some [] then parts.dropLast else parts

/-- Whether a name has to be a number, as its last part is one. -/
def endsInNumber (cs : List Char) : Bool :=
  match (v4Parts cs).getLast? with
  | none | some [] => false
  | some part => part.all Char.isDigit || (v4Part? part).isSome

/-- The number whose parts before the last are bytes, highest first. -/
def joinV4 (bytes : List Nat) (last : Nat) : Option Nat :=
  let room := Nat.pow 256 (4 - bytes.length)
  if bytes.length ≤ 3 ∧ bytes.all (· < 256) ∧ last < room then
    some (bytes.foldl (fun n b => n * 256 + b) 0 * room + last)
  else none

def readV4? (cs : List Char) : Option Nat :=
  match (v4Parts cs).mapM v4Part? with
  | none => none
  | some parts => parts.getLast?.bind (joinV4 parts.dropLast)

def v4Text (n : Nat) : String :=
  String.intercalate "." ([16777216, 65536, 256, 1].map fun w => decimal (n / w % 256))

/-! ## Numbers of 128 bits -/

/-- A piece of one to four digits. -/
def v6Piece? (cs : List Char) : Option Nat :=
  if 0 < cs.length ∧ cs.length ≤ 4 then digitsNumber? 16 cs else none

/-- A byte in base ten, without a needless zero in front. -/
def plainByte? (cs : List Char) : Option Nat :=
  match cs with
  | [] | '0' :: _ :: _ => none
  | ds => (digitsNumber? 10 ds).filter (· < 256)

/-- The last two pieces, given as four bytes. -/
def v6Tail? (cs : List Char) : Option (List Nat) :=
  match (cs.splitOnP (· == '.')).mapM plainByte? with
  | some [a, b, c, d] => some [a * 256 + b, c * 256 + d]
  | _ => none

/-- Pieces between colons, of which the last two may be given as bytes. -/
def v6Pieces? : List (List Char) → Option (List Nat)
  | [] => some []
  | [part] => ((v6Piece? part).map fun n => [n]) <|> v6Tail? part
  | part :: rest =>
    match v6Piece? part, v6Pieces? rest with
    | some n, some ns => some (n :: ns)
    | _, _ => none

/-- The pieces on one side of a pair of colons. -/
def v6Side? (cs : List Char) : Option (List Nat) :=
  if cs.isEmpty then some [] else v6Pieces? (cs.splitOnP (· == ':'))

/-- What stands before and after the first pair of colons. -/
def cutAtColons (before : List Char) : List Char → Option (List Char × List Char)
  | ':' :: ':' :: rest => some (before.reverse, rest)
  | c :: rest => cutAtColons (c :: before) rest
  | [] => none

def readV6? (cs : List Char) : Option (List Nat) :=
  match cutAtColons [] cs with
  | none => (v6Side? cs).filter (·.length = 8)
  | some (before, after) =>
    if before.contains '.' then none
    else match v6Side? before, v6Side? after with
      | some left, some right =>
        if left.length + right.length < 8 then
          some (left ++ List.replicate (8 - left.length - right.length) 0 ++ right)
        else none
      | _, _ => none

/-- The first of the longest runs of zeros: where it starts and how long it is. -/
def longestZeros (pieces : List Nat) : Nat × Nat :=
  (List.range pieces.length).foldl (fun best start =>
    let run := ((pieces.drop start).takeWhile (· == 0)).length
    if best.2 < run then (start, run) else best) (0, 0)

/-- Pieces with two colons in the place of the longest run of two or more zeros. -/
def v6Text (pieces : List Nat) : String :=
  let join (ns : List Nat) : String := String.intercalate ":" (ns.map hexadecimal)
  let (start, run) := longestZeros pieces
  if run < 2 then join pieces
  else join (pieces.take start) ++ "::" ++ join (pieces.drop (start + run))

/-! ## Text -/

def Host.text : Host → String
  | name text => text
  | v4 number => v4Text number
  | v6 pieces => "[" ++ v6Text pieces ++ "]"

end StorageAtlas.Url
