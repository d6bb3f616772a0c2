import StorageAtlas.Hash.Keccak

/-!
# Addresses

Twenty bytes. The display form mixes the case of its letters as a checksum: a letter is upper case
when the digest of the lower-case digits has a nibble of at least eight at its place.
-/

namespace StorageAtlas

/-- The address of an account: twenty bytes, as a number. -/
abbrev Address := BitVec 160

namespace Address

/-- The twenty bytes of an address, highest first. -/
def toBytes (a : Address) : Bytes := Bytes.bigEndian 20 a.toNat

/-- The address of twenty bytes given highest first. -/
def ofBytes (bs : Bytes) : Address := BitVec.ofNat 160 (Bytes.ofBigEndian bs)

theorem ofBytes_toBytes (a : Address) : ofBytes (toBytes a) = a := by
  have fits : a.toNat < Nat.pow 256 20 := a.isLt
  simp [ofBytes, toBytes, Bytes.ofBigEndian_bigEndian, Nat.mod_eq_of_lt fits]

/-- The lower-case form. -/
def hexText (a : Address) : String := Text.hex (toBytes a)

/-- Raises the letters whose nibble in `nibbles` is at least eight. -/
def raise (digits nibbles : List Char) : List Char :=
  List.zipWith (fun c n => if (Text.digitOf? 16 n).any (8 ≤ ·) then c.toUpper else c) digits nibbles

/-- The display form, with the checksum in the case of its letters. -/
def text (a : Address) : String :=
  let digits := Text.hexDigits (toBytes a)
  "0x" ++ String.ofList (raise digits (Text.hexDigits (Hash.keccak256 (Text.utf8 digits))))

/-- Why a text is no address. -/
inductive Fault
  | hex (fault : Text.HexFault)
  | wrongLength
deriving DecidableEq, Repr

/-- What is told of a text that is no address. -/
def Fault.message : Fault → String
  | .hex .oddLength => "odd number of digits"
  | .hex (.invalidByte b position) =>
    "invalid character " ++ Text.quotedByte b ++ " at position " ++ Text.decimal position
  | .wrongLength => "invalid string length"

/-- The text behind an optional mark in either case. -/
def dropMark : List Char → List Char
  | '0' :: 'x' :: cs | '0' :: 'X' :: cs => cs
  | cs => cs

/-- Reads forty digits behind an optional mark, in any case; the length is looked at first. -/
def read (cs : List Char) : Except Fault Address :=
  let body := Text.utf8 (dropMark cs)
  if body.length % 2 = 1 then .error (.hex .oddLength)
  else if body.length ≠ 40 then .error .wrongLength
  else match Text.readHexPairs 0 body with
    | .error e => .error (.hex e)
    | .ok bs => .ok (ofBytes bs)

end Address

end StorageAtlas
