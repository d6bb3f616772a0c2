import StorageAtlas.Footprint
import StorageAtlas.Key

/-!
# From a variable to a value inside it

Steps are taken one after the other: a mapping key is hashed together with the slot of its
mapping, the elements of a dynamic array follow the hash of its slot, those of a static array its
slot itself, and members lie where the layout of their struct puts them. Structs that are only
named are spelled out from the table of definitions as a path comes to them (`materialize`).
-/

namespace StorageAtlas

/-- The slot of the value stored under a key of the mapping at `slot`. -/
def mappingSlot (key : Bytes) (slot : Word) : Word := Hash.keccakWord (key ++ Word.toBytes slot)

/-- The first data slot of a dynamic array or a long byte string declared at `slot`. -/
def dataSlot (slot : Word) : Word := Hash.keccakWord (Word.toBytes slot)

/-! ## Spelling out named structs -/

mutual
/-- Spells out the named structs that lie in place in a type, one level deep. -/
def Ty.expandInPlace (structs : StructTable) : Ty → Except UnresolvedCause Ty
  | .structRef name =>
    match structs.lookup name with
    | some members => .ok (.struct name members)
    | none => .error (.undefinedStruct name)
  | .fixedArray element length =>
    match element.expandInPlace structs with
    | .ok e => .ok (.fixedArray e length)
    | .error cause => .error cause
  | .struct name members =>
    match expandMembers structs members with
    | .ok ms => .ok (.struct name ms)
    | .error cause => .error cause
  | t => .ok t

def expandMembers (structs : StructTable) : List Member → Except UnresolvedCause (List Member)
  | [] => .ok []
  | (name, t) :: rest =>
    match t.expandInPlace structs with
    | .error cause => .error cause
    | .ok u =>
      match expandMembers structs rest with
      | .error cause => .error cause
      | .ok us => .ok ((name, u) :: us)
end

/-- Spells out what lies in place in a type, or in the elements of a dynamic array, so that they
can be located and decoded. -/
def materialize (structs : StructTable) : Ty → Except Error Ty
  | .dynamicArray element =>
    match element.expandInPlace structs with
    | .ok e => .ok (.dynamicArray e)
    | .error cause => .error (.unresolvedType cause)
  | t =>
    match t.expandInPlace structs with
    | .ok u => .ok u
    | .error cause => .error (.unresolvedType cause)

/-! ## Taking steps -/

/-- The array index that a bracket step stands for. -/
def stepIndex (step : AccessStep) : Except Error Word :=
  match step with
  | .index i => .ok i
  | .key literal =>
    match readUint literal.toList with
    | .ok n => .ok (Word.ofNat n)
    | .error _ => .error (.invalidPath (.notANumber literal))
  | .field name => .error (.invalidPath (.notANumber name))

/-- Where one step leads, the type there, and the step with an array index as a number. -/
def applyStep (here : Location) (t : Ty) (step : AccessStep) :
    Except Error (Location × Ty × AccessStep) :=
  match t.stored, step with
  | .mapping key value, .key literal =>
    match encodeKey key literal with
    | .ok bs => .ok (⟨mappingSlot bs here.slot, 0⟩, value, step)
    | .error fault => .error (.invalidKey fault)
  | .mapping key value, .index i =>
    match encodeKey key (Word.text i) with
    | .ok bs => .ok (⟨mappingSlot bs here.slot, 0⟩, value, step)
    | .error fault => .error (.invalidKey fault)
  | .dynamicArray element, .index _ | .dynamicArray element, .key _ =>
    match stepIndex step with
    | .ok i => .ok (elementLocation (dataSlot here.slot) element i, element, .index i)
    | .error e => .error e
  | .fixedArray element length, .index _ | .fixedArray element length, .key _ =>
    match stepIndex step with
    | .ok i =>
      if i.toNat < length.toNat then
        .ok (elementLocation here.slot element i, element, .index i)
      else .error (.invalidPath (.outOfBounds i t))
    | .error e => .error e
  | .struct name members, .field field =>
    match findPlaced? members field with
    | some m => .ok (m.location.within here.slot, m.type, step)
    | none => .error (.invalidPath (.noMember name field))
  | _, _ => .error (.invalidPath (.notApplicable step t))

/-- Where a path has led. -/
structure Derived where
  location : Location
  type : Ty
  /-- The steps taken, array indices as numbers and mapping keys as given. -/
  steps : List AccessStep

/-- Takes all steps from a place whose type is spelled out. -/
def walk (structs : StructTable) (here : Location) (t : Ty) :
    List AccessStep → Except Error Derived
  | [] => .ok ⟨here, t, []⟩
  | step :: rest =>
    match applyStep here t step with
    | .error e => .error e
    | .ok (next, u, taken) =>
      match materialize structs u with
      | .error e => .error e
      | .ok u =>
        match walk structs next u rest with
        | .error e => .error e
        | .ok d => .ok { d with steps := taken :: d.steps }

/-- Takes at most `limit` steps from a variable of type `t` at `base`. -/
def derive (base : Location) (t : Ty) (steps : List AccessStep) (limit : Nat)
    (structs : StructTable) : Except Error Derived :=
  match materialize structs t with
  | .error e => .error e
  | .ok t => walk structs base t (steps.take limit)

/-- Whether a path is cut by the limit. -/
def isTruncated (steps : List AccessStep) (limit : Nat) : Bool := limit < steps.length

end StorageAtlas
