import StorageAtlas.Ty
import StorageAtlas.Word

/-!
# Room in storage

How much room a type takes where it is declared, and where declarations that follow each other
come to lie. Value types are packed from the low-order end of a slot as long as they fit; anything
else starts a fresh slot, and so does what follows it. Slots are counted modulo 2 ^ 256.

`Ty.footprint` is the room of a type, `Cursor.place` puts one declaration behind the ones before
it, `placeMembers` lays out a struct and `elementLocation` finds an element of an array.
-/

namespace StorageAtlas

/-- Bytes in a slot. -/
abbrev slotBytes : Nat := 32

/-- The room a type takes at its declared position. -/
inductive Footprint
  /-- A value type, packed into so many bytes of a slot. -/
  | packed (bytes : Nat)
  /-- A struct or static array, spread over whole slots. -/
  | slots (count : Word)
  /-- One slot in place of contents that lie elsewhere. -/
  | dynamic
deriving DecidableEq, Repr

namespace Footprint

/-- All but value types begin at a slot of their own. -/
def startsNewSlot : Footprint → Bool
  | packed _ => false
  | slots _ | dynamic => true

/-- Bytes taken in the slot; a whole one for what is not packed. -/
def bytes : Footprint → Nat
  | packed n => n
  | slots _ | dynamic => slotBytes

/-- Whole slots taken at the declared position. -/
def slotCount : Footprint → Word
  | packed _ | dynamic => 1
  | slots n => n

/-- The size shown for a value: its packed width, or its slots in bytes up to the largest number
of 64 bits. -/
def size : Footprint → Nat
  | packed n => n
  | dynamic => slotBytes
  | slots n => Word.clamp64 (Word.mulSat n (Word.ofNat slotBytes))

/-- How many values share a slot. -/
def perSlot : Footprint → Nat
  | packed n => slotBytes / max n 1
  | slots _ | dynamic => 1

/-- The slots of an array of `length` elements. -/
def arraySlots (element : Footprint) (length : Nat) : Word :=
  match element with
  | packed _ => Word.ofNat ((length + element.perSlot - 1) / element.perSlot)
  | slots _ | dynamic => Word.mulSat (Word.ofNat length) element.slotCount

end Footprint

/-- A slot and a byte offset in it, counted from the low-order end. -/
structure Location where
  slot : Word
  offset : UInt8
deriving DecidableEq, Repr

/-- The next free byte while declarations are placed one after another. -/
structure Cursor where
  slot : Word := 0
  offset : Nat := 0
deriving DecidableEq, Repr

namespace Cursor

/-- Moves on to a fresh slot unless at the start of one. -/
def freshSlot (c : Cursor) : Cursor :=
  if c.offset = 0 then c else ⟨c.slot + 1, 0⟩

/-- Where a declaration of the given room goes: here if it fits, else at the next slot. -/
def seek (c : Cursor) (f : Footprint) : Cursor :=
  if f.startsNewSlot ∨ slotBytes < c.offset + f.bytes then c.freshSlot else c

/-- Passes over the room of a declaration that starts here. -/
def advance (c : Cursor) (f : Footprint) : Cursor :=
  if f.startsNewSlot then ⟨c.slot + f.slotCount, 0⟩ else ⟨c.slot, c.offset + f.bytes⟩

def location (c : Cursor) : Location := ⟨c.slot, UInt8.ofNat c.offset⟩

/-- Places one declaration. -/
def place (c : Cursor) (f : Footprint) : Location × Cursor :=
  let here := c.seek f
  (here.location, here.advance f)

/-- Places declarations in order. -/
def placeAll (c : Cursor) : List Footprint → List Location × Cursor
  | [] => ([], c)
  | f :: fs =>
    let (here, next) := c.place f
    let (rest, last) := next.placeAll fs
    (here :: rest, last)

/-- Slots touched so far, a partly filled one included. -/
def slotsUsed (c : Cursor) : Word := if c.offset = 0 then c.slot else c.slot + 1

end Cursor

/-- Slots of a struct whose members take the given room; at least one. -/
def structSlots (members : List Footprint) : Word :=
  let used := ((Cursor.mk 0 0).placeAll members).2.slotsUsed
  if used = 0 then 1 else used

mutual
/-- The room a type takes. A struct that is only named takes the slot of the container it stands
in. -/
def Ty.footprint : Ty → Footprint
  | .elementary e => .packed e.byteWidth
  | .function external => .packed (if external then 24 else 8)
  | .fixedArray element length => .slots (element.footprint.arraySlots length.toNat)
  | .struct _ members => .slots (structSlots (footprints members))
  | .userDefined _ _ underlying => underlying.footprint
  | .dynamicArray _ | .mapping _ _ | .bytes | .string | .structRef _ => .dynamic

/-- The room each member of a struct takes. -/
def footprints : List Member → List Footprint
  | [] => []
  | (_, t) :: rest => t.footprint :: footprints rest
end

/-- A member of a struct and where it lies, counted from the first slot of the struct. -/
structure PlacedMember where
  name : String
  type : Ty
  location : Location

/-- The members of a struct with their places. -/
def placeMembers (members : List Member) : List PlacedMember :=
  List.zipWith (fun m l => ⟨m.1, m.2, l⟩) members
    ((Cursor.mk 0 0).placeAll (footprints members)).1

/-- Slots of a struct with the given members. -/
def memberSlots (members : List Member) : Word := structSlots (footprints members)

/-- Where a member of the given name lies. -/
def findPlaced? (members : List Member) (name : String) : Option PlacedMember :=
  (placeMembers members).find? (·.name == name)

/-- Where element `index` lies in an array whose data start at `base`. -/
def elementLocation (base : Word) (element : Ty) (index : Word) : Location :=
  match element.footprint with
  | .packed bytes =>
    let perSlot := (Footprint.packed bytes).perSlot
    ⟨base + Word.ofNat (index.toNat / perSlot), UInt8.ofNat (index.toNat % perSlot * bytes)⟩
  | f => ⟨base + index * f.slotCount, 0⟩

namespace Location

/-- A place relative to `base`, taken from its slot. -/
def within (relative : Location) (base : Word) : Location := ⟨base + relative.slot, relative.offset⟩

end Location

end StorageAtlas
