import StorageAtlas.Json.Parser
import StorageAtlas.Json.Shape
import StorageAtlas.Model
import StorageAtlas.Model.Declarations
import StorageAtlas.Ty.Json

/-!
# Model documents

A model is written as an object with `contracts`, and if needed `structs`, `enums` and
`value_types`; types are given as source text. Structs are read first, by name, then the variables
of the contracts in order; the first fault ends the reading.
-/

namespace StorageAtlas

open Json

/-- A variable of a document. -/
structure VariableText where
  name : String
  type : String
  constant : Bool
  immutable : Bool
deriving DecidableEq

/-- A contract of a document. -/
structure ContractText where
  name : String
  bases : List String
  declared : List VariableText
deriving DecidableEq

/-- A document whose types are not read yet. -/
structure ModelText where
  contracts : List ContractText
  /-- Structs sorted by name, each name once. -/
  structs : List (String × List (String × String))
  enums : List String
  /-- Value types by name, each name once. -/
  valueTypes : List (String × String)
deriving DecidableEq

/-- A member name and the text of its type. -/
def memberTextOfJson? (j : Json) : Option (String × String) := do
  match ← fields? ["name", "type"] j with
  | [some name, some t] => return (← asString? name, ← asString? t)
  | _ => none

def VariableText.ofJson? (j : Json) : Option VariableText := do
  match ← fields? ["name", "type", "constant", "immutable"] j with
  | [some name, some t, constant, immutable] =>
    return ⟨← asString? name, ← asString? t, ← orDefault asBool? false constant,
      ← orDefault asBool? false immutable⟩
  | _ => none

def ContractText.ofJson? (j : Json) : Option ContractText := do
  match ← fields? ["name", "bases", "variables"] j with
  | [some name, bases, declared] =>
    return ⟨← asString? name, ← orDefault (asList? asString?) [] bases,
      ← orDefault (asList? VariableText.ofJson?) [] declared⟩
  | _ => none

def ModelText.ofJson? (j : Json) : Option ModelText := do
  match ← fields? ["contracts", "structs", "enums", "value_types"] j with
  | [some contracts, structs, enums, valueTypes] =>
    return ⟨← asList? ContractText.ofJson? contracts,
      SortedMap.ofEntries (← orDefault (asMap? (asList? memberTextOfJson?)) [] structs),
      ← orDefault (asList? asString?) [] enums,
      SortedMap.ofEntries (← orDefault (asMap? asString?) [] valueTypes)⟩
  | _ => none

namespace ModelText

/-- The named types that a document declares. -/
def declarations (m : ModelText) : Declarations where
  structs := m.structs.map fun s => (s.1, s.2.map fun f => (f.1, TypeExpr.ofText f.2.toList))
  enums := m.enums
  valueTypes := m.valueTypes.map fun v => (v.1, TypeExpr.ofText v.2.toList)
  contracts := m.contracts.map (·.name)

/-- The definitions of the structs of the given names. -/
def readStructs (d : Declarations) : List String → Except ModelFault StructTable
  | [] => .ok []
  | name :: rest =>
    match d.readStruct name with
    | .error fault => .error (.struct name fault)
    | .ok (.struct _ members) =>
      match readStructs d rest with
      | .error e => .error e
      | .ok table => .ok ((name, members) :: table)
    | .ok _ => .error (.struct name (.unknownStruct name))

/-- The variables of a contract, from position `index` on. -/
def readVariables (d : Declarations) (contract : String) (index : Nat) :
    List VariableText → Except ModelFault (List StateVariable)
  | [] => .ok []
  | v :: rest =>
    match d.readType v.type with
    | .error fault => .error (.declaration contract v.name fault)
    | .ok t =>
      match readVariables d contract (index + 1) rest with
      | .error e => .error e
      | .ok vs => .ok (⟨v.name, contract, index, t, v.constant, v.immutable⟩ :: vs)

def readContracts (d : Declarations) : List ContractText → Except ModelFault (List Contract)
  | [] => .ok []
  | c :: rest =>
    match readVariables d c.name 0 c.declared with
    | .error e => .error e
    | .ok vs =>
      match readContracts d rest with
      | .error e => .error e
      | .ok cs => .ok (⟨c.name, vs, c.bases⟩ :: cs)

/-- The model that a document describes. -/
def read (m : ModelText) : Except ModelFault Model :=
  let d := m.declarations
  match readStructs d (m.structs.map (·.1)) with
  | .error e => .error e
  | .ok structs =>
    match readContracts d m.contracts with
    | .error e => .error e
    | .ok contracts => .ok ⟨contracts, structs⟩

end ModelText

namespace Model

/-- Reads a model from the value of its document. -/
def ofJson (j : Json) : Except Error Model :=
  match ModelText.ofJson? j with
  | none => .error .malformedDocument
  | some text =>
    match text.read with
    | .ok m => .ok m
    | .error fault => .error (.invalidModel fault)

/-- Reads a model from the text of its document. -/
def parse (text : String) : Except Error Model :=
  match Json.parse text with
  | none => .error .malformedDocument
  | some j => ofJson j

end Model

/-! ## Contracts as JSON -/

def StateVariable.toJson (v : StateVariable) : Json :=
  .object [("name", .string v.name), ("contract", .string v.contract), ("index", .nat v.index),
    ("type", v.type.toJson), ("constant", .bool v.constant), ("immutable", .bool v.immutable)]

def StateVariable.ofJson? (o : Origin) (j : Json) : Option StateVariable := do
  match ← fields? ["name", "contract", "index", "type", "constant", "immutable"] j with
  | [some name, some contract, some index, some t, constant, immutable] =>
    return ⟨← asString? name, ← asString? contract, ← asNat64? index, ← Ty.ofJson? o t,
      ← orDefault asBool? false constant, ← orDefault asBool? false immutable⟩
  | _ => none

def Contract.toJson (c : Contract) : Json :=
  .object [("name", .string c.name), ("variables", .array (c.declared.map (·.toJson))),
    ("bases", .array (c.bases.map .string))]

def Contract.ofJson? (o : Origin) (j : Json) : Option Contract := do
  match ← fields? ["name", "variables", "bases"] j with
  | [some name, some declared, bases] =>
    return ⟨← asString? name, ← asList? (StateVariable.ofJson? o) declared,
      ← orDefault (asList? asString?) [] bases⟩
  | _ => none

end StorageAtlas
