import StorageAtlas.Text.Character
import StorageAtlas.Url.Punycode

/-!
# Domain names

The labels of a name in lower case and in ASCII. A label with other characters is written behind
`xn--` (`Punycode.encode`), and one that is written so already has to be readable. Of the letters
beyond ASCII those count that have a single lower-case letter; the full-width forms count for the
characters whose forms they are; composed letters are not taken apart, nor others put together.
-/

namespace StorageAtlas.Url.Domain

/-- Whether a code point is in one of some ranges. -/
def inRanges (ranges : List (Nat × Nat)) (n : Nat) : Bool := ranges.any fun r => r.1 ≤ n && n ≤ r.2

/-- Characters that do not count. -/
def ignored : List (Nat × Nat) :=
  [(0xad, 0xad), (0x34f, 0x34f), (0x115f, 0x1160), (0x17b4, 0x17b5), (0x180b, 0x180f),
    (0x200b, 0x200b), (0x2060, 0x2064), (0x206a, 0x206f), (0x3164, 0x3164), (0xfe00, 0xfe0f),
    (0xfeff, 0xfeff), (0xffa0, 0xffa0), (0x1bca0, 0x1bca3), (0x1d173, 0x1d17a), (0xe0100, 0xe01ef)]

/-- Characters that no name may hold: controls, spaces, marks of direction, and what is for private
use or no character. -/
def forbidden : List (Nat × Nat) :=
  [(0x80, 0xa0), (0x1680, 0x1680), (0x2000, 0x200a), (0x200c, 0x200f), (0x2028, 0x202f),
    (0x205f, 0x205f), (0x2065, 0x2069), (0x3000, 0x3000), (0xe000, 0xf8ff), (0xfdd0, 0xfdef),
    (0xfff0, 0xffff), (0xe0000, 0xe00ff), (0xe01f0, 0x10ffff)]

/-- Dots that end a label like the one of ASCII. -/
def isDot (n : Nat) : Bool := n == 0x3002 || n == 0xff0e || n == 0xff61

/-- Letters and digits that stand for others, as raised ones do. -/
def substitutes : List (Nat × Nat) :=
  [(0xaa, 0x61), (0xb2, 0x32), (0xb3, 0x33), (0xb5, 0x3bc), (0xb9, 0x31), (0xba, 0x6f),
    (0x17f, 0x73), (0x3d0, 0x3b2), (0x3d1, 0x3b8), (0x3d5, 0x3c6), (0x3d6, 0x3c0), (0x3f0, 0x3ba),
    (0x3f1, 0x3c1), (0x3f2, 0x3c3), (0x3f5, 0x3b5), (0x3f9, 0x3c3)]

/-- What a character of a name counts for. -/
def mapped? (c : Char) : Option (List Char) :=
  let n := c.toNat
  if n < 128 then some [c.toLower]
  else if inRanges ignored n then some []
  else if inRanges forbidden n then none
  else if isDot n then some ['.']
  else if 0xff01 ≤ n ∧ n ≤ 0xff5e then some [(Char.ofNat (n - 0xfee0)).toLower]
  else match substitutes.lookup n with
    | some m => some [Char.ofNat m]
    | none => some [Text.toLowerChar c]

/-- Whether a character is a mark on the one before it. -/
def isCombining (c : Char) : Bool :=
  inRanges [(0x300, 0x36f), (0x1ab0, 0x1aff), (0x1dc0, 0x1dff), (0x20d0, 0x20ff), (0xfe20, 0xfe2f)]
    c.toNat

/-- Whether a label may be shown as it is. -/
def isValid (label : List Char) : Bool :=
  label.all (fun c => mapped? c = some [c]) && !(label.head?.any isCombining)

/-- A label in ASCII. -/
def labelToAscii? (label : List Char) : Option (List Char) :=
  match label with
  | 'x' :: 'n' :: '-' :: '-' :: rest =>
    match Punycode.decode? rest with
    | some decoded =>
      if decoded.all (·.toNat < 128) || !isValid decoded then none else some label
    | none => none
  | _ =>
    if label.all (·.toNat < 128) then some label
    else if isValid label then some ("xn--".toList ++ Punycode.encode label)
    else none

/-- Characters of ASCII that no name may hold. -/
def isDelimiter (c : Char) : Bool :=
  c.toNat ≤ 32 || c.toNat == 127 || "%#/:<>?@[\\]^|".toList.contains c

/-- A name in ASCII. -/
def toAscii? (cs : List Char) : Option (List Char) :=
  match cs.mapM mapped? with
  | none => none
  | some parts =>
    match (parts.flatten.splitOnP (· == '.')).mapM labelToAscii? with
    | none => none
    | some labels =>
      let name := ['.'].intercalate labels
      if name.any isDelimiter then none else some name

end StorageAtlas.Url.Domain
