import StorageAtlas.Decode
import StorageAtlas.Store

/-!
# Elements of dynamic arrays

Once the length of a dynamic array is read, a record is added for each of its elements, up to a
limit; an array with more of them says so.
-/

namespace StorageAtlas

namespace SlotRecord

/-- The element type and the length of a dynamic array whose length was read. -/
def readLength? (r : SlotRecord) : Option (Ty × Word) :=
  match r.type.stored, r.value with
  | .dynamicArray element, some (.length n) => some (element, n)
  | _, _ => none

/-- The record of one element. -/
def element (r : SlotRecord) (t : Ty) (i : Nat) : SlotRecord where
  contract := r.contract
  path := r.path.child (.index (Word.ofNat i))
  declaredIn := r.declaredIn
  location := elementLocation (dataSlot r.location.slot) t (Word.ofNat i)
  size := t.footprint.size
  type := t
  status := match t.stored with
    | .function _ => .unresolved (Error.unresolvedType (.code t)).message
    | _ => .resolved

/-- The records of the elements, at most `limit` of them. -/
def elements (r : SlotRecord) (limit : Nat) : List SlotRecord :=
  match r.readLength? with
  | some (t, n) => (List.range (min n.toNat limit)).map (r.element t)
  | none => []

/-- What is told of an array with more elements than `limit`. -/
def limited? (r : SlotRecord) (limit : Nat) : Option (RecordKey × Status) :=
  match r.readLength? with
  | some (_, n) =>
    if limit < n.toNat then
      some (r.key, .incomplete ("expanded " ++ Text.decimal limit ++ " of " ++ Word.text n ++
        " elements"))
    else none
  | none => none

end SlotRecord

namespace LayoutStore

/-- Sets statuses in order, up to the first key without a record. -/
def setStatuses (s : LayoutStore) : List (RecordKey × Status) → Except Error LayoutStore
  | [] => .ok s
  | (key, status) :: rest =>
    match s.setStatus key status with
    | .ok s => s.setStatuses rest
    | .error e => .error e

/-- Adds the elements of the arrays whose length was read, and tells how many are new. -/
def expandArrays (s : LayoutStore) (limit : Nat) : LayoutStore × Except Error Nat :=
  let additions := s.records.flatMap (·.elements limit)
  match s.setStatuses (s.records.filterMap (·.limited? limit)) with
  | .error e => (s, .error e)
  | .ok s =>
    match s.insertAll additions with
    | (after, none) => (after, .ok (after.size - s.size))
    | (after, some e) => (after, .error e)

end LayoutStore

end StorageAtlas
