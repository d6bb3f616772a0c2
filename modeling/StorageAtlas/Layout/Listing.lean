import StorageAtlas.Config
import StorageAtlas.Derivation
import StorageAtlas.Record

/-!
# The records of a value

A value has a record of its own, and, if it is a struct or static array, one for each of its parts
behind it, in the order of declaration. Parts are left out below a depth, and where the elements
of static arrays would exceed a budget that all of a value shares; the record then says so.

A listing is a recursion over the parts. `Resolver.Emits` adds the same records one by one, by a
loop over a stack.
-/

namespace StorageAtlas

/-- A value inside a contract: what it is called, where it lies and what it is. -/
structure Node where
  path : VariablePath
  location : Location
  type : Ty

/-- The records of a value, in order. -/
structure Listing where
  records : List SlotRecord
  /-- Why the listing ends early. -/
  failure : Option Error := none
  /-- Elements of static arrays that may still be spelled out. -/
  budget : Nat

mutual
/-- How many elements a value is spelled out into, up to the largest number of 64 bits. -/
def Ty.elementCount : Ty → Nat
  | .fixedArray element length =>
    min (length.toNat * min (element.elementCount + 1) (UInt64.size - 1)) (UInt64.size - 1)
  | .struct _ members => memberElementCount members
  | .userDefined _ _ underlying => underlying.elementCount
  | _ => 0

def memberElementCount : List Member → Nat
  | [] => 0
  | (_, t) :: rest => min (t.elementCount + memberElementCount rest) (UInt64.size - 1)
end

namespace Node

/-- The members of a struct that lies at the node. -/
def members (n : Node) (ms : List Member) : List Node :=
  (placeMembers ms).map fun m =>
    ⟨n.path.child (.field m.name), m.location.within n.location.slot, m.type⟩

/-- The elements of a static array that lies at the node. -/
def elements (n : Node) (element : Ty) (length : Nat) : List Node :=
  (List.range length).map fun i =>
    ⟨n.path.child (.index (Word.ofNat i)),
      elementLocation n.location.slot element (Word.ofNat i), element⟩

/-- What a node is spelled out into. -/
structure Parts where
  status : Status := .resolved
  nodes : List Node := []
  budget : Nat

/-- Told of an array with more elements than may be spelled out. -/
def overBudget (elements limit budget : Nat) : Status :=
  .incomplete (Text.decimal elements ++ " elements exceed the expansion limit of " ++
    Text.decimal limit ++ " (" ++ Text.decimal budget ++ " left)")

/-- The parts of a node whose type is spelled out. -/
def parts (n : Node) (limit budget : Nat) : Parts :=
  match n.type.stored with
  | .function _ => { status := .unresolved (Error.unresolvedType (.code n.type)).message, budget }
  | .struct _ ms => { nodes := n.members ms, budget }
  | .fixedArray element length =>
    let count := n.type.elementCount
    if budget < count then { status := overBudget count limit budget, budget }
    else { nodes := n.elements element length.toNat, budget := budget - length.toNat }
  | _ => { budget }

/-- The record of a node. -/
def record (n : Node) (contract declaredIn : String) (status : Status) : SlotRecord where
  contract
  path := n.path
  declaredIn
  location := n.location
  size := n.type.footprint.size
  type := n.type
  status

end Node

namespace Listing

/-- The listings of several values, one behind the other, up to the first that fails. -/
def ofNodes (list : Nat → Node → Listing) (budget : Nat) : List Node → Listing
  | [] => { records := [], budget }
  | n :: rest =>
    match list budget n with
    | ⟨records, some e, budget⟩ => ⟨records, some e, budget⟩
    | ⟨records, none, budget⟩ =>
      let behind := ofNodes list budget rest
      { behind with records := records ++ behind.records }

/-- A record and the parts behind it. -/
def behind (r : SlotRecord) (l : Listing) : Listing := { l with records := r :: l.records }

/-- Lists a node that has `room` steps left below it. -/
def ofNode (structs : StructTable) (config : ResolverConfig) (contract declaredIn : String) :
    Nat → Nat → Node → Listing
  | room, budget, n =>
    match materialize structs n.type with
    | .error e => ⟨[], some e, budget⟩
    | .ok t =>
      let n := { n with type := t }
      let parts := n.parts config.maxArrayElements budget
      match room with
      | 0 =>
        let status := if parts.nodes.isEmpty then parts.status
          else .incomplete (Error.depthExceeded (n.path.depth + 1) config.maxDepth).message
        ⟨[n.record contract declaredIn status], none, parts.budget⟩
      | room + 1 =>
        behind (n.record contract declaredIn parts.status)
          (ofNodes (ofNode structs config contract declaredIn room) parts.budget parts.nodes)

/-- The records of a value. -/
def of (structs : StructTable) (config : ResolverConfig) (contract declaredIn : String)
    (n : Node) : Listing :=
  ofNode structs config contract declaredIn (config.maxDepth - n.path.depth)
    config.maxArrayElements n

end Listing

end StorageAtlas
