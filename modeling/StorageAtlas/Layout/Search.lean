import StorageAtlas.Layout

/-!
# One value in several contracts

A value is looked for in every contract of a list. Contracts without the variable are passed over,
unless none of them has it.
-/

namespace StorageAtlas

/-- How a value is asked for. -/
inductive Sought
  | query (text : String)
  | target (t : Target)
deriving DecidableEq

namespace Resolver

/-- The value that is sought, in one contract. -/
def soughtIn (r : Resolver) (contract : String) : Sought → Except Error LayoutStore
  | .query text => r.query contract text
  | .target t => r.target contract t

/-- Looks on in further contracts. `missing` is the last failure for want of the variable. -/
def searchOn (r : Resolver) (sought : Sought) (found : LayoutStore) (missing : Option Error) :
    List String → Except Error LayoutStore
  | [] =>
    match missing with
    | some e => if found.isEmpty then .error e else .ok found
    | none => .ok found
  | contract :: rest =>
    match r.soughtIn contract sought with
    | .error (.variableNotFound c v) =>
      r.searchOn sought found (some (.variableNotFound c v)) rest
    | .error e => .error e
    | .ok s =>
      match found.merge s with
      | (_, some e) => .error e
      | (found, none) => r.searchOn sought found missing rest

/-- The value that is sought, in all contracts that have it. -/
def search (r : Resolver) (sought : Sought) (contracts : List String) : Except Error LayoutStore :=
  r.searchOn sought {} none contracts

end Resolver

end StorageAtlas
