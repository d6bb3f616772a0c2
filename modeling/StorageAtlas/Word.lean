import StorageAtlas.Bytes
import StorageAtlas.Text.Hex

/-!
# Words of 256 bits

Slots, lengths and the contents of storage are words; all arithmetic on them wraps modulo
2 ^ 256. A word is written in base ten, and where a mark is wanted in base sixteen with as few
digits as possible.
-/

namespace StorageAtlas

/-- A word of storage, or the number of a slot. -/
abbrev Word := BitVec 256

namespace Word

/-- The word congruent to `n` modulo 2 ^ 256. -/
abbrev ofNat (n : Nat) : Word := BitVec.ofNat 256 n

/-- The 32 bytes of a word, highest first. -/
def toBytes (w : Word) : Bytes := Bytes.bigEndian 32 w.toNat

/-- The word of at most 32 bytes given highest first. -/
def ofBytes (bs : Bytes) : Word := ofNat (Bytes.ofBigEndian bs)

@[simp] theorem length_toBytes (w : Word) : (toBytes w).length = 32 := by simp [toBytes]

theorem ofBytes_toBytes (w : Word) : ofBytes (toBytes w) = w := by
  have fits : w.toNat < Nat.pow 256 32 := w.isLt
  simp [ofBytes, toBytes, Bytes.ofBigEndian_bigEndian, Nat.mod_eq_of_lt fits]

theorem toBytes_inj {v w : Word} : toBytes v = toBytes w ↔ v = w :=
  ⟨fun h => by rw [← ofBytes_toBytes v, h, ofBytes_toBytes], fun h => h ▸ rfl⟩

/-- The least of a word and the largest number of 64 bits. -/
def clamp64 (w : Word) : Nat := min w.toNat (UInt64.size - 1)

/-- Multiplication that stops at the largest word. -/
def mulSat (a b : Word) : Word :=
  if BitVec.umulOverflow a b then BitVec.allOnes 256 else a * b

/-- A word in base ten. -/
def text (w : Word) : String := Text.decimal w.toNat

/-- A word in base sixteen, marked and without leading zeros. -/
def hexText (w : Word) : String := "0x" ++ Text.hexadecimal w.toNat

/-- A word as a signed number in base ten. -/
def signedText (w : Word) : String :=
  if w.msb then "-" ++ Text.decimal (-w).toNat else Text.decimal w.toNat

/-- The slots `start, start + 1, …`, `count` of them, modulo 2 ^ 256. -/
def consecutive (start : Word) (count : Nat) : List Word :=
  (List.range count).map fun i => start + ofNat i

end Word

end StorageAtlas
