import StorageAtlas.Error
import StorageAtlas.Record

/-!
# The layout store

Records in the order in which they were resolved, each under its contract and path. A key that is
stored keeps its placement: the same one again changes nothing, another one is refused. Afterwards
only status, raw bytes and value of a record change.
-/

namespace StorageAtlas

/-- Records in the order in which they were added; `insert` keeps one under each key. -/
structure LayoutStore where
  records : List SlotRecord := []
deriving DecidableEq

namespace LayoutStore

/-- The record under a key. -/
def find? (s : LayoutStore) (key : RecordKey) : Option SlotRecord :=
  s.records.find? (·.key == key)

def contains (s : LayoutStore) (key : RecordKey) : Bool := (s.find? key).isSome

def size (s : LayoutStore) : Nat := s.records.length

def isEmpty (s : LayoutStore) : Bool := s.records.isEmpty

/-- The refusal of a record whose key is taken by another placement. -/
def otherPlacement (stored new : SlotRecord) : Error :=
  .conflict (.otherPlacement stored.key.text stored.location.slot stored.location.offset.toNat
    new.location.slot new.location.offset.toNat)

/-- Adds a record, and tells whether its key is new. -/
def insert (s : LayoutStore) (r : SlotRecord) : Except Error (LayoutStore × Bool) :=
  match s.find? r.key with
  | none => .ok (⟨s.records ++ [r]⟩, true)
  | some stored =>
    if stored.samePlacement r then .ok (s, false) else .error (otherPlacement stored r)

/-- Adds records in order up to the first that is refused. -/
def insertAll (s : LayoutStore) : List SlotRecord → LayoutStore × Option Error
  | [] => (s, none)
  | r :: rest =>
    match s.insert r with
    | .ok (s, _) => s.insertAll rest
    | .error e => (s, some e)

/-- Adds the records of another store up to the first that is refused. -/
def merge (s other : LayoutStore) : LayoutStore × Option Error := s.insertAll other.records

/-- Changes the record under a key. -/
def modify (s : LayoutStore) (key : RecordKey) (f : SlotRecord → SlotRecord) :
    Except Error LayoutStore :=
  if s.contains key then .ok ⟨s.records.map fun r => if r.key = key then f r else r⟩
  else .error (.invalidPath (.noRecord key.text))

/-- Attaches the bytes that were read and the value they stand for. -/
def attachValue (s : LayoutStore) (key : RecordKey) (raw : Bytes) (value : Option Value) :
    Except Error LayoutStore :=
  s.modify key fun r => { r with raw := some raw, value }

/-- Marks a record; what is attached to it stays. -/
def setStatus (s : LayoutStore) (key : RecordKey) (status : Status) : Except Error LayoutStore :=
  s.modify key fun r => { r with status }

/-- Marks a record as not readable; nothing stays attached. -/
def markFailed (s : LayoutStore) (key : RecordKey) (reason : String) : Except Error LayoutStore :=
  s.modify key fun r => { r with raw := none, value := none, status := .readFailed reason }

/-- The records of a contract, in order. -/
def forContract (s : LayoutStore) (contract : String) : List SlotRecord :=
  s.records.filter (·.contract == contract)

/-- The contracts in the order in which they were first seen. -/
def contracts (s : LayoutStore) : List String :=
  s.records.foldl (fun seen r => if r.contract ∈ seen then seen else seen ++ [r.contract]) []

/-! ## Overlap of variables -/

/-- The records of variables themselves, without those of their parts. -/
def topLevel (s : LayoutStore) : List SlotRecord := s.records.filter (·.path.steps.isEmpty)

/-- The first pair of records, in order, that share a byte. -/
def firstOverlap? : List SlotRecord → Option (SlotRecord × SlotRecord)
  | [] => none
  | r :: rest =>
    match rest.find? (r.overlaps ·) with
    | some s => some (r, s)
    | none => firstOverlap? rest

/-- The first overlap within one of the contracts, which are looked at in order. -/
def overlapAmong? (top : List SlotRecord) : List String → Option Error
  | [] => none
  | contract :: rest =>
    match firstOverlap? (top.filter (·.contract == contract)) with
    | some (r, s) =>
      some (.conflict (.overlap r.path.text s.path.text contract s.location.slot))
    | none => overlapAmong? top rest

/-- Checks that no variable crosses a slot boundary it could keep, and that no two variables of a
contract overlap. -/
def validate (s : LayoutStore) : Except Error Unit :=
  let top := s.topLevel
  match top.find? (!·.fitsSlot) with
  | some r => .error (.conflict (.exceedsSlot r.key.text r.location.offset.toNat r.size))
  | none =>
    let names := SortedMap.ofEntries (top.map fun r => (r.contract, ()))
    match overlapAmong? top (names.map (·.1)) with
    | some e => .error e
    | none => .ok ()

end LayoutStore

end StorageAtlas
