import StorageAtlas.Text.Numeral

/-!
# Reading UTF-8 that may be broken

`decodeLossy` reads a byte string as UTF-8 and puts one replacement character in the place of each
maximal run of bytes that starts a character and breaks off.
-/

namespace StorageAtlas.Text

/-- How many bytes a character takes that starts with `lead`, and the range of its second byte. -/
def leadShape? (lead : Nat) : Option (Nat × Nat × Nat) :=
  if 0xc2 ≤ lead ∧ lead ≤ 0xdf then some (2, 0x80, 0xbf)
  else if lead = 0xe0 then some (3, 0xa0, 0xbf)
  else if lead = 0xed then some (3, 0x80, 0x9f)
  else if 0xe1 ≤ lead ∧ lead ≤ 0xef then some (3, 0x80, 0xbf)
  else if lead = 0xf0 then some (4, 0x90, 0xbf)
  else if 0xf1 ≤ lead ∧ lead ≤ 0xf3 then some (4, 0x80, 0xbf)
  else if lead = 0xf4 then some (4, 0x80, 0x8f)
  else none

def isContinuation (b : UInt8) : Bool := 0x80 ≤ b.toNat && b.toNat ≤ 0xbf

/-- How many of the bytes behind a lead byte carry its character on, at most `more`. -/
def continuationRun (low high : Nat) (rest : Bytes) (more : Nat) : Nat :=
  match rest with
  | b :: bs =>
    if low ≤ b.toNat ∧ b.toNat ≤ high then
      1 + ((bs.take (more - 1)).takeWhile isContinuation).length
    else 0
  | [] => 0

/-- The number that the payload bits of continuation bytes add to `high`. -/
def joinPayload (high : Nat) (bs : Bytes) : Nat :=
  bs.foldl (fun acc b => acc * 64 + b.toNat % 64) high

/-- The payload bits of a lead byte for a character of `width` bytes. -/
def leadPayload (width lead : Nat) : Nat :=
  if width = 2 then lead % 32 else if width = 3 then lead % 16 else lead % 8

def replacement : Char := '\ufffd'

/-- The first character of `lead :: rest` and how many bytes of `rest` it takes. -/
def decodeFirst (lead : UInt8) (rest : Bytes) : Char × Nat :=
  if lead.toNat < 0x80 then (Char.ofUInt8 lead, 0)
  else match leadShape? lead.toNat with
    | none => (replacement, 0)
    | some (width, low, high) =>
      let run := continuationRun low high rest (width - 1)
      if run + 1 = width then
        (Char.ofNat (joinPayload (leadPayload width lead.toNat) (rest.take run)), run)
      else (replacement, run)

/-- Reads a byte string as UTF-8, with replacement characters where it is broken. -/
def decodeLossy : Bytes → List Char
  | [] => []
  | b :: rest =>
    let (c, taken) := decodeFirst b rest
    c :: decodeLossy (rest.drop taken)
termination_by bs => bs.length
decreasing_by simp only [List.length_drop, List.length_cons]; omega

end StorageAtlas.Text
