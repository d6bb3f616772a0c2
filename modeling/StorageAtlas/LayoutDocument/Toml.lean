import StorageAtlas.LayoutDocument
import StorageAtlas.Toml.Text

/-!
# The persisted form of a layout in TOML

The commitment, then a table for each record under its contract and path.
-/

namespace StorageAtlas

namespace LayoutEntry

/-- The lines of an entry. -/
def tomlLines (e : LayoutEntry) : List String :=
  let optional (name : String) (s : Option String) : List String :=
    match s with
    | some s => [Toml.assignment name (Toml.stringText s)]
    | none => []
  [Toml.assignment "slot" (Toml.stringText e.slot),
    Toml.assignment "offset" (Text.decimal e.offset),
    Toml.assignment "type_string" (Toml.stringText e.typeSpelling),
    Toml.assignment "size" (Text.decimal e.size),
    Toml.assignment "declared_in" (Toml.stringText e.declaredIn)] ++
    optional "value" e.value ++ optional "raw" e.raw ++
    [Toml.assignment "status" (Toml.stringText e.status)]

end LayoutEntry

namespace LayoutDocument

/-- The tables of a contract. -/
def contractTables (contract : String × SortedMap LayoutEntry) : List (List String) :=
  contract.2.map fun e => Toml.heading ["contracts", contract.1, e.1] :: e.2.tomlLines

/-- The document as text. -/
def toToml (d : LayoutDocument) : String :=
  let tables := if d.contracts.isEmpty then [[Toml.heading ["contracts"]]]
    else d.contracts.flatMap contractTables
  let first := [Toml.assignment "layout_commitment" (Toml.stringText d.commitment)]
  String.intercalate "\n" ((first :: tables).map fun lines => String.join (lines.map (· ++ "\n")))

end LayoutDocument

end StorageAtlas
