import StorageAtlas.Store
import StorageAtlas.Text.Table

/-!
# Layouts as text

A table for each contract, with or without the values that were read, and single records on a
line.
-/

namespace StorageAtlas

open Text (Table)

namespace SlotRecord

/-- What a layout table says of a record. -/
def placeCells (r : SlotRecord) : List String :=
  [r.path.text, r.type.spelling, Word.text r.location.slot,
    Text.decimal r.location.offset.toNat, Text.decimal r.size, r.declaredIn]

/-- What a value table says of a record. -/
def valueCells (r : SlotRecord) : List String :=
  r.placeCells ++ [(r.value.map (·.text)).getD "", r.status.text]

/-- A record on one line; a status is told only where the record is not resolved. -/
def line (r : SlotRecord) : String :=
  r.key.text ++ " (" ++ r.type.spelling ++ ") slot: " ++ Word.text r.location.slot ++ " (" ++
    Word.hexText r.location.slot ++ ") offset: " ++ Text.decimal r.location.offset.toNat ++
    " size: " ++ Text.decimal r.size ++
    (match r.value with | some v => " value: " ++ v.text | none => "") ++
    (if r.status.isResolved then "" else " [" ++ r.status.text ++ "]")

end SlotRecord

namespace LayoutStore

/-- The headings of a layout table. -/
def placeHeadings : List String := ["Name", "Type", "Slot", "Offset", "Size", "Declared in"]

/-- A table for each contract under its name. -/
def sections (s : LayoutStore) (headings : List String) (cells : SlotRecord → List String) :
    String :=
  String.intercalate "\n\n" <| s.contracts.map fun contract =>
    contract ++ "\n" ++ (Table.mk headings ((s.forContract contract).map cells)).render

/-- Where the records lie. -/
def layoutTable (s : LayoutStore) : String := s.sections placeHeadings SlotRecord.placeCells

/-- Where the records lie, their values and how far they got. -/
def valueTable (s : LayoutStore) : String :=
  s.sections (placeHeadings ++ ["Value", "Status"]) SlotRecord.valueCells

end LayoutStore

end StorageAtlas
