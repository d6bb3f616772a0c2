import StorageAtlas.Footprint
import StorageAtlas.Path
import StorageAtlas.Value

/-!
# Slot records

Where one logical value lies and, once it is read, what it is. A status tells how far a record
got, so that a value that is missing is never taken for zero.
-/

namespace StorageAtlas

/-- How far a record got. -/
inductive Status
  /-- The place is known, and the value once it is read. -/
  | resolved
  /-- Stopped early, by a limit. -/
  | incomplete (reason : String)
  /-- The type cannot be decoded from storage. -/
  | unresolved (reason : String)
  /-- The words could not be read. -/
  | readFailed (reason : String)
deriving DecidableEq

namespace Status

def isResolved : Status → Bool
  | resolved => true
  | _ => false

/-- The display text, with the reason if there is one. -/
def text : Status → String
  | resolved => "resolved"
  | incomplete reason => "partial: " ++ reason
  | unresolved reason => "unresolved: " ++ reason
  | readFailed reason => "read-failed: " ++ reason

end Status

/-- What a record is found under. -/
structure RecordKey where
  contract : String
  path : String
deriving DecidableEq, Repr

/-- The path behind its contract. -/
def RecordKey.text (k : RecordKey) : String := k.contract ++ "." ++ k.path

/-- What is known of one value: its name, its place and its type, how far it got, and once it was
read also its bytes and what they stand for. -/
structure SlotRecord where
  /-- The contract whose layout the record belongs to. -/
  contract : String
  path : VariablePath
  /-- The contract that declares the base variable. -/
  declaredIn : String
  location : Location
  /-- Bytes taken from the location on; a slot for dynamic types. -/
  size : Nat
  type : Ty
  status : Status := .resolved
  /-- The bytes that were read. -/
  raw : Option Bytes := none
  value : Option Value := none
deriving DecidableEq

namespace SlotRecord

/-- What a record is found under; it says nothing of the place. -/
def key (r : SlotRecord) : RecordKey := ⟨r.contract, r.path.text⟩

/-- How many slots the record touches. Its end is counted in 64 bits. -/
def slotSpan (r : SlotRecord) : Nat :=
  max 1 (((r.location.offset.toNat + r.size) % UInt64.size + 31) / 32)

/-- Whether two records say the same of their place. -/
def samePlacement (r s : SlotRecord) : Bool :=
  r.location == s.location && r.size == s.size && r.type == s.type && r.declaredIn == s.declaredIn

/-- The position of the first byte, counted from slot zero, modulo 2 ^ 256. -/
def firstByte (r : SlotRecord) : Word :=
  r.location.slot * Word.ofNat slotBytes + Word.ofNat r.location.offset.toNat

/-- The position behind the last byte; a record takes at least one. -/
def endByte (r : SlotRecord) : Word := r.firstByte + Word.ofNat (max 1 r.size)

/-- Whether two records share a byte. -/
def overlaps (r s : SlotRecord) : Bool := r.firstByte < s.endByte && s.firstByte < r.endByte

/-- Whether the record lies within a slot, or in slots of its own. -/
def fitsSlot (r : SlotRecord) : Bool :=
  let offset := r.location.offset.toNat
  offset < slotBytes && (slotBytes ≤ r.size || offset + r.size ≤ slotBytes)

end SlotRecord

/-! ## JSON -/

open Json

def Status.toJson : Status → Json
  | resolved => .object [("status", .string "resolved")]
  | incomplete reason => .object [("status", .string "partial"), ("reason", .string reason)]
  | unresolved reason => .object [("status", .string "unresolved"), ("reason", .string reason)]
  | readFailed reason => .object [("status", .string "read_failed"), ("reason", .string reason)]

def Status.ofJson? (o : Origin) (j : Json) : Option Status :=
  match adjacent? o "status" "reason" ["resolved", "partial", "unresolved", "read_failed"] j with
  | some ⟨"resolved", reason, _⟩ => if isAbsent reason then some resolved else none
  | some ⟨"partial", some reason, _⟩ => (asString? reason).map incomplete
  | some ⟨"unresolved", some reason, _⟩ => (asString? reason).map unresolved
  | some ⟨"read_failed", some reason, _⟩ => (asString? reason).map readFailed
  | _ => none

def AccessStep.toJson : AccessStep → Json
  | index i => .object [("step", .string "index"), ("value", ofWord i)]
  | key literal => .object [("step", .string "key"), ("value", .string literal)]
  | field name => .object [("step", .string "field"), ("value", .string name)]

def AccessStep.ofJson? (o : Origin) (j : Json) : Option AccessStep :=
  match adjacent? o "step" "value" ["index", "key", "field"] j with
  | some ⟨"index", some v, _⟩ => (asWord? v).map index
  | some ⟨"key", some v, _⟩ => (asString? v).map key
  | some ⟨"field", some v, _⟩ => (asString? v).map field
  | _ => none

def VariablePath.toJson (p : VariablePath) : Json :=
  .object [("base", .string p.base), ("steps", .array (p.steps.map (·.toJson)))]

def VariablePath.ofJson? (o : Origin) (j : Json) : Option VariablePath := do
  match ← fields? ["base", "steps"] j with
  | [some base, some steps] => return ⟨← asString? base, ← asList? (AccessStep.ofJson? o) steps⟩
  | _ => none

end StorageAtlas
