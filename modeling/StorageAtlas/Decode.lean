import StorageAtlas.Derivation
import StorageAtlas.Text.Utf8
import StorageAtlas.Value

/-!
# Values from words

A packed value of `size` bytes at byte `offset` is the window of its word that starts `8 * offset`
bits above the low end. `bytes` and `string` have two forms, told apart by the lowest bit of the
head word: up to 31 bytes lie in the word itself, with twice their number in its lowest byte; more
lie at the hash of the slot, and the head word is twice their number plus one.

Structs and static arrays are decoded by a recursion over their parts; `DecodesTo` says the same by
a loop over frames.
-/

namespace StorageAtlas

namespace Word

/-- The number in the `size` bytes of a word from byte `offset` on, counted from the low end. -/
def window (w : Word) (offset size : Nat) : Nat :=
  ((w >>> (8 * offset)).setWidth (8 * size)).toNat

end Word

/-- The bytes of a window, highest first; it has to lie within the word. -/
def windowBytes (w : Word) (offset size : Nat) : Except Error Bytes :=
  if slotBytes < offset then .error (.invalidPath (.outsideSlot offset))
  else if slotBytes < offset + size then .error (.invalidPath (.crossesSlot size offset))
  else .ok (Bytes.bigEndian size (Word.window w offset size))

/-- A number of `size` bytes in two's complement, widened to a word. -/
def signExtend (size n : Nat) : Word := (BitVec.ofNat (8 * size) n).signExtend 256

/-- The value whose bytes are given. -/
def Elementary.ofWindow (e : Elementary) (bs : Bytes) : Value :=
  let n := Bytes.ofBigEndian bs
  match e with
  | uint _ => .uint (Word.ofNat n)
  | int _ => .int (signExtend bs.length n)
  | address => .address (Address.ofBytes bs)
  | bool => .bool (n != 0)
  | fixedBytes _ => .fixedBytes bs

/-- Decodes a value type at a byte offset. -/
def decodeValueType (t : Ty) (w : Word) (offset : Nat) : Except Error Value :=
  match t.stored with
  | .elementary e =>
    match windowBytes w offset e.byteWidth with
    | .ok bs => .ok (e.ofWindow bs)
    | .error e => .error e
  | .function _ => .error (.unresolvedType (.code t))
  | other => .error (.unresolvedType (.notValueType other))

/-! ## Byte strings -/

/-- How a byte string is kept. -/
inductive ByteForm
  /-- The bytes themselves. -/
  | short (bs : Bytes)
  /-- Their number; they lie elsewhere. -/
  | long (length : Word)
deriving DecidableEq

/-- Reads the head word of a byte string. -/
def classifyBytes (w : Word) : Except Error ByteForm :=
  let low := w.toNat % 256
  if low % 2 = 1 then .ok (.long (Word.ofNat (w.toNat / 2)))
  else if 31 < low / 2 then .error (.unresolvedType (.shortLength (low / 2)))
  else .ok (.short ((Word.toBytes w).take (low / 2)))

/-- The slots of `length` bytes that belong to a byte string at `slot`. -/
def longSlots (slot : Word) (length : Nat) : List Word :=
  Word.consecutive (dataSlot slot) ((length + 31) / 32)

/-- The value of a byte string of type `t`. -/
def bytesValue (t : Ty) (bs : Bytes) : Value :=
  match t.stored with
  | .string => .string (String.ofList (Text.decodeLossy bs))
  | _ => .bytes bs

/-! ## Any type -/

/-- Decodes a type that is not made of parts in place; `none` where there is no value in place. -/
def decodeSimple (t : Ty) (head : Word) (offset : Nat) : Except Error (Option Value) :=
  match t.stored with
  | .elementary _ | .function _ =>
    match decodeValueType t head offset with
    | .ok v => .ok (some v)
    | .error e => .error e
  | .bytes | .string =>
    match classifyBytes head with
    | .ok (.short bs) => .ok (some (bytesValue t bs))
    | .ok (.long _) => .ok none
    | .error e => .error e
  | .dynamicArray _ => .ok (some (.length head))
  | .structRef name => .error (.unresolvedType (.notExpanded name))
  | _ => .ok none

/-- Decodes a part that has no parts in place. References to code and whatever lies behind the
words that were read have no value. -/
def decodePart (t : Ty) (words : List Word) (slot offset : Nat) : Except Error (Option Value) :=
  match words[slot]? with
  | none => .ok none
  | some w =>
    if t.isDynamic then decodeSimple t w 0 else .ok (decodeValueType t w offset).toOption

mutual
/-- Decodes a type at a slot of `words`, its parts in declaration order. -/
def decodeInPlace (words : List Word) : Ty → Nat → Nat → Except Error (Option Value)
  | .struct _ members, slot, _ =>
    match decodeMembers words slot members ((Cursor.mk 0 0).placeAll (footprints members)).1 with
    | .ok vs => .ok (some (.composite vs))
    | .error e => .error e
  | .fixedArray element length, slot, _ =>
    let one (i : Nat) : Except Error (String × Option Value) :=
      let l := elementLocation 0 element (Word.ofNat i)
      match decodeInPlace words element (slot + l.slot.toNat) l.offset.toNat with
      | .ok v => .ok ("[" ++ Text.decimal i ++ "]", v)
      | .error e => .error e
    match (List.range length.toNat).mapM one with
    | .ok vs => .ok (some (.composite vs))
    | .error e => .error e
  | .userDefined _ _ underlying, slot, offset => decodeInPlace words underlying slot offset
  | t, slot, offset => decodePart t words slot offset

def decodeMembers (words : List Word) (slot : Nat) :
    List Member → List Location → Except Error (List (String × Option Value))
  | (name, t) :: ms, l :: ls =>
    match decodeInPlace words t (slot + l.slot.toNat) l.offset.toNat with
    | .error e => .error e
    | .ok v =>
      match decodeMembers words slot ms ls with
      | .error e => .error e
      | .ok vs => .ok ((name, v) :: vs)
  | _, _ => .ok []
end

/-- Decodes a struct or static array from its words. -/
def decodeComposite (t : Ty) (words : List Word) : Except Error Value :=
  match decodeInPlace words t 0 0 with
  | .error e => .error e
  | .ok (some v) => .ok v
  | .ok none => .error (.unresolvedType (.noMembers t))

/-- Decodes what can be decoded from the words at the slots of a record. -/
def decode (t : Ty) (words : List Word) (offset : Nat) : Except Error (Option Value) :=
  match words with
  | [] => .error (.transport .noWord)
  | head :: _ =>
    if t.isComposite then
      match decodeComposite t words with
      | .ok v => .ok (some v)
      | .error e => .error e
    else decodeSimple t head offset

end StorageAtlas
