import StorageAtlas.Text.Hex
import StorageAtlas.Text.Utf8

/-!
# Percent encoding

A character that may not stand in a part of a URL is written as its bytes in UTF-8, each as `%` and
two digits. Which characters these are depends on the part. Reading takes any two digits behind
`%` for a byte, and leaves a `%` that has none behind it as it is.
-/

namespace StorageAtlas.Url

open Text

/-- A byte as `%` and two upper-case digits. -/
def percentByte (b : UInt8) : List Char := '%' :: (hexByte b).map Char.toUpper

/-- Writes the characters in `set` as bytes. -/
def percentEncode (set : Char → Bool) (cs : List Char) : List Char :=
  cs.flatMap fun c => if set c then (utf8 [c]).flatMap percentByte else [c]

/-- The bytes that a text stands for. -/
def percentDecode : List Char → Bytes
  | '%' :: a :: b :: rest =>
    match digitOf? 16 a, digitOf? 16 b with
    | some x, some y => UInt8.ofNat (16 * x + y) :: percentDecode rest
    | _, _ => utf8 ['%'] ++ percentDecode (a :: b :: rest)
  | c :: rest => utf8 [c] ++ percentDecode rest
  | [] => []

/-- The characters that a text stands for, if they are well formed. -/
def percentDecodeText? (cs : List Char) : Option (List Char) :=
  let bs := percentDecode cs
  let decoded := decodeLossy bs
  if utf8 decoded = bs then some decoded else none

/-! ## What is encoded -/

/-- Control characters, and all that is not ASCII. -/
def isControl (c : Char) : Bool := c.toNat < 32 || 127 ≤ c.toNat

def inFragmentSet (c : Char) : Bool := isControl c || " \"<>`".toList.contains c

def inQuerySet (c : Char) : Bool := isControl c || " \"#<>".toList.contains c

/-- In the queries of schemes that are known, the single quote too. -/
def inSpecialQuerySet (c : Char) : Bool := inQuerySet c || c == '\''

def inPathSet (c : Char) : Bool := inFragmentSet c || "#?\x7b\x7d".toList.contains c

def inUserSet (c : Char) : Bool := inPathSet c || "/:;=@[\\]^|".toList.contains c

end StorageAtlas.Url
