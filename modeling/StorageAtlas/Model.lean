import StorageAtlas.Derivation

/-!
# Contract models

Contracts with their state variables and their bases, most basic first, and the table of struct
definitions. `Model.storageVariables` is the order in which a contract's variables are laid out:
those of its bases, then its own, without constants and immutables.
-/

namespace StorageAtlas

/-- A state variable as declared. -/
structure StateVariable where
  name : String
  /-- The contract that declares it. -/
  contract : String
  /-- Its position among the declarations of that contract. -/
  index : Nat
  type : Ty
  constant : Bool := false
  immutable : Bool := false
deriving DecidableEq

/-- Constants and immutables live in code, not in storage. -/
def StateVariable.occupiesStorage (v : StateVariable) : Bool := !v.constant && !v.immutable

/-- A contract with its own variables, and its bases without itself. -/
structure Contract where
  name : String
  declared : List StateVariable := []
  bases : List String := []
deriving DecidableEq

namespace Contract

/-- Declares one more variable. -/
def withVariable (c : Contract) (name : String) (t : Ty) : Contract :=
  { c with declared := c.declared ++ [⟨name, c.name, c.declared.length, t, false, false⟩] }

/-- The variables that take room in storage. -/
def storageVariables (c : Contract) : List StateVariable :=
  c.declared.filter (·.occupiesStorage)

end Contract

/-- The contracts to resolve layouts of. -/
structure Model where
  contracts : List Contract := []
  structs : StructTable := []
deriving DecidableEq

namespace Model

def names (m : Model) : List String := m.contracts.map (·.name)

/-- The first contract of the given name. -/
def contract (m : Model) (name : String) : Except Error Contract :=
  match m.contracts.find? (·.name == name) with
  | some c => .ok c
  | none => .error (.contractNotFound name)

/-- The storage variables of the given bases in order, leaving out `self`. -/
def baseVariables (m : Model) (self : String) : List String → Except Error (List StateVariable)
  | [] => .ok []
  | base :: rest =>
    if base = self then m.baseVariables self rest
    else match m.contract base with
      | .error e => .error e
      | .ok c =>
        match m.baseVariables self rest with
        | .error e => .error e
        | .ok vs => .ok (c.storageVariables ++ vs)

/-- The storage variables of a contract in layout order. -/
def storageVariables (m : Model) (name : String) : Except Error (List StateVariable) :=
  match m.contract name with
  | .error e => .error e
  | .ok c =>
    match m.baseVariables name c.bases with
    | .error e => .error e
    | .ok vs => .ok (vs ++ c.storageVariables)

end Model

end StorageAtlas
