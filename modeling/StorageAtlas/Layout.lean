import StorageAtlas.Layout.Listing
import StorageAtlas.Layout.Placement
import StorageAtlas.Path.Parser
import StorageAtlas.Store

/-!
# Layouts

`Resolver.fullLayout` lists everything that some contracts declare; `Resolver.path`,
`Resolver.query` and `Resolver.target` list one value that is reached through keys, indices and
member names.
-/

namespace StorageAtlas

namespace LayoutStore

/-- Adds the records of a listing, up to the first that is refused. -/
def insertListing (s : LayoutStore) (l : Listing) : Except Error LayoutStore :=
  match s.insertAll l.records with
  | (_, some e) => .error e
  | (s, none) =>
    match l.failure with
    | some e => .error e
    | none => .ok s

end LayoutStore

/-- A part of a variable that the caller asks for by its keys. -/
structure Target where
  base : String
  key : Option String := none
  /-- A key into the value under `key`. -/
  deepKey : Option String := none
  field : Option String := none
deriving DecidableEq

namespace Target

def keySteps (key : Option String) : Except PathFault (List AccessStep) :=
  match key with
  | none => .ok []
  | some k =>
    match AccessStep.ofBracket k.toList with
    | .ok step => .ok [step]
    | .error fault => .error fault

/-- The path that leads to the target. -/
def path (t : Target) : Except PathFault VariablePath :=
  if t.key.isNone ∧ t.deepKey.isSome then .error .deepKeyAlone
  else match keySteps t.key with
    | .error fault => .error fault
    | .ok first =>
      match keySteps t.deepKey with
      | .error fault => .error fault
      | .ok second =>
        .ok ⟨t.base, first ++ second ++ (t.field.map AccessStep.field).toList⟩

end Target

/-- A model, and the limits under which it is resolved. -/
structure Resolver where
  model : Model
  config : ResolverConfig := {}

namespace Resolver

/-- The records of a value. -/
def listing (r : Resolver) (contract declaredIn : String) (n : Node) : Listing :=
  Listing.of r.model.structs r.config contract declaredIn n

/-- Adds the records of variables in order. -/
def addPlacements (r : Resolver) (contract : String) (s : LayoutStore) :
    List Placement → Except Error LayoutStore
  | [] => .ok s
  | p :: rest =>
    match s.insertListing (r.listing contract p.declarer ⟨⟨p.name, []⟩, p.location, p.type⟩) with
    | .error e => .error e
    | .ok s => r.addPlacements contract s rest

/-- Adds the records of contracts in order. -/
def addContracts (r : Resolver) (s : LayoutStore) : List String → Except Error LayoutStore
  | [] => .ok s
  | contract :: rest =>
    match r.model.placements contract with
    | .error e => .error e
    | .ok ps =>
      match r.addPlacements contract s ps with
      | .error e => .error e
      | .ok s => r.addContracts s rest

/-- Everything that the contracts declare. -/
def fullLayout (r : Resolver) (contracts : List String) : Except Error LayoutStore :=
  match r.addContracts {} contracts with
  | .error e => .error e
  | .ok s =>
    match s.validate with
    | .error e => .error e
    | .ok () => .ok s

/-- The record where a path is cut because it has too many steps. -/
def cutRecord (r : Resolver) (contract : String) (p : Placement) (asked : VariablePath)
    (d : Derived) : SlotRecord :=
  (Node.mk ⟨p.name, d.steps⟩ d.location d.type).record contract p.declarer
    (.incomplete (Error.depthExceeded asked.depth r.config.maxDepth).message)

/-- The value at a path. A path with too many steps leads to where it is cut. -/
def path (r : Resolver) (contract : String) (asked : VariablePath) : Except Error LayoutStore :=
  match r.model.placements contract with
  | .error e => .error e
  | .ok ps =>
    match ps.find? (·.name == asked.base) with
    | none => .error (.variableNotFound contract asked.base)
    | some p =>
      match derive p.location p.type asked.steps r.config.maxDepth r.model.structs with
      | .error e => .error e
      | .ok d =>
        if isTruncated asked.steps r.config.maxDepth then
          .ok ⟨[r.cutRecord contract p asked d]⟩
        else LayoutStore.insertListing {}
          (r.listing contract p.declarer ⟨⟨p.name, d.steps⟩, d.location, d.type⟩)

/-- The value that a query such as `positions[3].owner` names. -/
def query (r : Resolver) (contract text : String) : Except Error LayoutStore :=
  match VariablePath.parse text with
  | .error fault => .error (.invalidPath fault)
  | .ok asked => r.path contract asked

/-- The value of a target. -/
def target (r : Resolver) (contract : String) (t : Target) : Except Error LayoutStore :=
  match t.path with
  | .error fault => .error (.invalidPath fault)
  | .ok asked => r.path contract asked

end Resolver

end StorageAtlas
