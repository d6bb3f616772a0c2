import StorageAtlas.Model

/-!
# Where variables lie

The storage variables of a contract, those of its bases first, are placed one after another from
slot zero on. A variable that a later one of the same name hides is called by the name of its
contract and its own.
-/

namespace StorageAtlas

/-- A storage variable at its place. -/
structure Placement where
  /-- The name under which it is reported. -/
  name : String
  /-- The contract that declares it. -/
  declarer : String
  /-- Its type, spelled out where it lies in place. -/
  type : Ty
  location : Location

/-- The name of a variable that the `later` ones follow. -/
def StateVariable.reportedName (v : StateVariable) (later : List StateVariable) : String :=
  if later.any (·.name == v.name) then v.contract ++ "." ++ v.name else v.name

/-- Places variables in order, from the cursor on. -/
def placeVariables (structs : StructTable) (c : Cursor) :
    List StateVariable → Except Error (List Placement)
  | [] => .ok []
  | v :: rest =>
    match materialize structs v.type with
    | .error e => .error e
    | .ok t =>
      match placeVariables structs (c.place t.footprint).2 rest with
      | .error e => .error e
      | .ok ps => .ok (⟨v.reportedName rest, v.contract, t, (c.place t.footprint).1⟩ :: ps)

/-- The storage variables of a contract at their places. -/
def Model.placements (m : Model) (contract : String) : Except Error (List Placement) :=
  match m.storageVariables contract with
  | .error e => .error e
  | .ok vs => placeVariables m.structs {} vs

end StorageAtlas
