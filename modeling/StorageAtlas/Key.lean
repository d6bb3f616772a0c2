import StorageAtlas.Address
import StorageAtlas.Error
import StorageAtlas.Text.Character

/-!
# Mapping keys

A literal is read as a value of the key type and turned into the bytes that are hashed for it:
value types fill a word, numbers and addresses at its low end and byte strings at its high end;
`string` and `bytes` keys are hashed as they are.
-/

namespace StorageAtlas

open Text

/-- An unsigned integer literal. -/
def readUint (literal : List Char) : Except KeyFault Nat :=
  match readLiteral literal with
  | .ok n => .ok n
  | .error fault => .error (.notAnInteger (String.ofList literal) fault)

/-- A signed integer literal: an unsigned one behind an optional minus sign, within 256 bits. -/
def readInt (literal : List Char) : Except KeyFault Int :=
  match literal with
  | '-' :: magnitude =>
    match readUint magnitude with
    | .error e => .error e
    | .ok n =>
      if n ≤ numeralLimit / 2 then .ok (-(n : Int))
      else .error (.doesNotFit (String.ofList literal) "int256")
  | _ =>
    match readUint literal with
    | .error e => .error e
    | .ok n =>
      if n < numeralLimit / 2 then .ok n else .error (.doesNotFit (String.ofList literal) "int256")

/-- A byte string in base sixteen, with or without its mark. -/
def readHexLiteral (literal : List Char) : Except KeyFault Bytes :=
  match readHex (dropHexMark literal) with
  | .ok bs => .ok bs
  | .error fault => .error (.notHex (String.ofList literal) fault)

/-- Whether a signed number fits in so many bits; from 256 bits on there is nothing to check, and no
number fits in none. -/
def fitsSigned (bits : Nat) (v : Int) : Bool :=
  let half := Nat.pow 2 bits / 2
  256 ≤ bits || (-(half : Int) ≤ v && v < half)

/-- Whether an unsigned number fits in so many bits; from 256 bits on there is nothing to check. -/
def fitsUnsigned (bits n : Nat) : Bool := 256 ≤ bits || n < Nat.pow 2 bits

/-- The first 32 bytes of a string, filled up with zeros on the right. -/
def padRight (bs : Bytes) : Bytes := (bs ++ List.replicate 32 0).take 32

namespace Elementary

/-- The word-sized key of a value type. -/
def encodeKey (e : Elementary) (literal : List Char) : Except KeyFault Bytes :=
  match e with
  | uint bits => do
    let n ← readUint literal
    if fitsUnsigned bits.toNat n then .ok (Word.toBytes (Word.ofNat n))
    else .error (.doesNotFit (String.ofList literal) e.spelling)
  | int bits => do
    let v ← readInt literal
    if fitsSigned bits.toNat v then .ok (Word.toBytes (BitVec.ofInt 256 v))
    else .error (.doesNotFit (String.ofList literal) e.spelling)
  | address => do
    let bs ← readHexLiteral literal
    if bs.length = 20 then .ok (List.replicate 12 0 ++ bs)
    else .error (.wrongAddressLength (String.ofList literal) bs.length)
  | bool =>
    if literal = ['t', 'r', 'u', 'e'] ∨ literal = ['1'] then .ok (Word.toBytes 1)
    else if literal = ['f', 'a', 'l', 's', 'e'] ∨ literal = ['0'] then .ok (Word.toBytes 0)
    else .error (.notABool (String.ofList literal))
  | fixedBytes width => do
    let bs ← readHexLiteral literal
    if bs.length ≤ width.toNat then .ok (padRight bs)
    else .error (.tooLong (String.ofList literal) width.toNat)

end Elementary

/-- The bytes hashed for a key of type `t` written as `literal`. -/
def encodeKey (t : Ty) (literal : String) : Except KeyFault Bytes :=
  let literal := trim literal.toList
  match t.stored with
  | .elementary e => e.encodeKey literal
  | .string => .ok (utf8 literal)
  | .bytes =>
    match literal with
    | '0' :: 'x' :: _ => readHexLiteral literal
    | _ => .ok (utf8 literal)
  | other => .error (.notAKeyType other)

end StorageAtlas
