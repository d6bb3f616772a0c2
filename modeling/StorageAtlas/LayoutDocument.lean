import StorageAtlas.Hash.Sha256
import StorageAtlas.Store

/-!
# The persisted form of a layout

The commitment and, by contract and then by path, an entry for each record. Slots are written in
base ten, since they exceed the integers of other programs.

The commitment is a digest of the number of records and, for each in order, its contract, path,
slot, offset and type. Texts are preceded by their length in bytes, so that different layouts have
different preimages. Status and values do not count.
-/

namespace StorageAtlas

/-! ## The commitment -/

/-- A text in UTF-8 behind its length in bytes. -/
def framed (s : String) : Bytes :=
  let bs := Text.utf8 s.toList
  Bytes.littleEndian 4 bs.length ++ bs

/-- What the commitment hashes of one record. -/
def SlotRecord.preimage (r : SlotRecord) : Bytes :=
  framed r.contract ++ framed r.path.text ++ Word.toBytes r.location.slot ++
    Bytes.littleEndian 4 r.location.offset.toNat ++ framed r.type.spelling

namespace LayoutStore

/-- What the commitment hashes. -/
def preimage (s : LayoutStore) : Bytes :=
  Bytes.littleEndian 4 s.size ++ s.records.flatMap (·.preimage)

/-- The digest of the layout. -/
def commitment (s : LayoutStore) : Bytes := Hash.sha256 s.preimage

/-- The commitment in base sixteen, without a mark. -/
def commitmentText (s : LayoutStore) : String := String.ofList (Text.hexDigits s.commitment)

end LayoutStore

/-! ## Entries -/

/-- The persisted form of one record. -/
structure LayoutEntry where
  slot : String
  offset : Nat
  typeSpelling : String
  size : Nat
  declaredIn : String
  value : Option String := none
  raw : Option String := none
  status : String
deriving DecidableEq

/-- The persisted form of a layout. -/
structure LayoutDocument where
  commitment : String
  contracts : SortedMap (SortedMap LayoutEntry)
deriving DecidableEq

/-- The persisted form of a record, with its numbers and values as texts. -/
def SlotRecord.entry (r : SlotRecord) : LayoutEntry where
  slot := Word.text r.location.slot
  offset := r.location.offset.toNat
  typeSpelling := r.type.spelling
  size := r.size
  declaredIn := r.declaredIn
  value := r.value.map (·.text)
  raw := r.raw.map Text.hex
  status := r.status.text

/-- Puts the entry of a record under its contract and path. -/
def addEntry (contracts : SortedMap (SortedMap LayoutEntry)) (r : SlotRecord) :
    SortedMap (SortedMap LayoutEntry) :=
  contracts.insert r.contract
    (((contracts.lookup r.contract).getD []).insert r.path.text r.entry)

/-- The persisted form of a layout, its contracts and paths sorted by name. -/
def LayoutStore.document (s : LayoutStore) : LayoutDocument :=
  ⟨s.commitmentText, s.records.foldl addEntry []⟩

/-! ## JSON -/

open Json

def LayoutEntry.toJson (e : LayoutEntry) : Json :=
  let optional (name : String) (s : Option String) : List (String × Json) :=
    match s with
    | some s => [(name, .string s)]
    | none => []
  .object ([("slot", .string e.slot), ("offset", .nat e.offset),
    ("type_string", .string e.typeSpelling), ("size", .nat e.size),
    ("declared_in", .string e.declaredIn)] ++ optional "value" e.value ++ optional "raw" e.raw ++
    [("status", .string e.status)])

def LayoutDocument.toJson (d : LayoutDocument) : Json :=
  .object [("layout_commitment", .string d.commitment),
    ("contracts", .object (d.contracts.map fun c =>
      (c.1, .object (c.2.map fun e => (e.1, e.2.toJson)))))]

/-- Reads an entry; in the array form only trailing fields that have a default may be left out. -/
def LayoutEntry.ofJson? (j : Json) : Option LayoutEntry := do
  match ← fields? ["slot", "offset", "type_string", "size", "declared_in", "value", "raw",
      "status"] j with
  | [some slot, some offset, some type, some size, some declaredIn, value, raw, some status] =>
    return ⟨← asString? slot, ← asNat? 256 offset, ← asString? type, ← asNat64? size,
      ← asString? declaredIn, ← orDefault (asOption? asString?) none value,
      ← orDefault (asOption? asString?) none raw, ← asString? status⟩
  | _ => none

def LayoutDocument.ofJson? (j : Json) : Option LayoutDocument := do
  match ← fields? ["layout_commitment", "contracts"] j with
  | [some commitment, some contracts] =>
    let contracts ← asMap? (asMap? LayoutEntry.ofJson?) contracts
    return ⟨← asString? commitment,
      SortedMap.ofEntries (contracts.map fun c => (c.1, SortedMap.ofEntries c.2))⟩
  | _ => none

end StorageAtlas
