import StorageAtlas.Model.TypeExpr

/-!
# What names stand for

A bare name is a declared struct, else an enum, else a value type, else a contract. A struct met
again inside itself becomes a reference to its name if a mapping or dynamic array lies between, and
is refused if not: it would have no size.

Looking up a name may lead to further names. `Declarations.nesting` bounds how many of them can be
open inside one another without one coming back to itself: between two structs at most every value
type once, and every struct once. A name that is deeper than that never ends.
-/

namespace StorageAtlas

/-- The named types of a model, in the order in which they are looked up. -/
structure Declarations where
  structs : List (String × List (String × TypeExpr))
  enums : List String
  valueTypes : List (String × TypeExpr)
  contracts : List String

/-- The structs around a type: those outside of the nearest mapping or dynamic array, and those
that it lies in place in. -/
structure Surroundings where
  outside : List String := []
  inPlace : List String := []

namespace Surroundings

/-- Inside a mapping or dynamic array. -/
def behindContainer (s : Surroundings) : Surroundings := ⟨s.inPlace ++ s.outside, []⟩

/-- Among the members of a struct. -/
def within (s : Surroundings) (name : String) : Surroundings :=
  { s with inPlace := name :: s.inPlace }

end Surroundings

/-- A name to be looked up. -/
inductive NameUse
  /-- The name of a struct and of nothing else. -/
  | struct (name : String)
  | bare (name : String)

def NameUse.name : NameUse → String
  | struct name | bare name => name

/-- The type that a text stands for, given what names stand for. -/
def TypeExpr.resolveWith (lookUp : Surroundings → NameUse → Except TypeFault Ty)
    (around : Surroundings) : TypeExpr → Except TypeFault Ty
  | .bad fault => .error fault
  | .builtin t => .ok t
  | .dynamicArray element =>
    match element.resolveWith lookUp around.behindContainer with
    | .ok e => .ok (.dynamicArray e)
    | .error fault => .error fault
  | .fixedArray element length =>
    match element.resolveWith lookUp around with
    | .ok e => .ok (.fixedArray e length)
    | .error fault => .error fault
  | .mapping key value =>
    match key.resolveWith lookUp around.behindContainer with
    | .error fault => .error fault
    | .ok k =>
      match value.resolveWith lookUp around.behindContainer with
      | .error fault => .error fault
      | .ok v => .ok (.mapping k v)
  | .structName n => lookUp around (.struct n)
  | .enumName n => .ok (.enumeration n)
  | .contractName n => .ok (.contract n)
  | .name n => lookUp around (.bare n)

/-- The members of a struct, given what names stand for. -/
def resolveMembers (lookUp : Surroundings → NameUse → Except TypeFault Ty)
    (around : Surroundings) : List (String × TypeExpr) → Except TypeFault (List Member)
  | [] => .ok []
  | (name, e) :: rest =>
    match e.resolveWith lookUp around with
    | .error fault => .error fault
    | .ok t =>
      match resolveMembers lookUp around rest with
      | .error fault => .error fault
      | .ok ts => .ok ((name, t) :: ts)

namespace Declarations

/-- The struct of a given name, spelled out unless it is already open. -/
def openStruct (d : Declarations) (lookUp : Surroundings → NameUse → Except TypeFault Ty)
    (around : Surroundings) (name : String) : Except TypeFault Ty :=
  match d.structs.lookup name with
  | none => .error (.unknownStruct name)
  | some fields =>
    if name ∈ around.outside then .ok (.structRef name)
    else if name ∈ around.inPlace then .error (.containsItself name)
    else match resolveMembers lookUp (around.within name) fields with
      | .error fault => .error fault
      | .ok [] => .error (.noMembers name)
      | .ok members => .ok (.struct name members)

/-- The type a name stands for, with at most `depth` names open inside one another. -/
def lookUp (d : Declarations) : Nat → Surroundings → NameUse → Except TypeFault Ty
  | 0, _, use => .error (.endless use.name)
  | depth + 1, around, .struct name => d.openStruct (d.lookUp depth) around name
  | depth + 1, around, .bare name =>
    if (d.structs.lookup name).isSome then d.openStruct (d.lookUp depth) around name
    else if name ∈ d.enums then .ok (.enumeration name)
    else match d.valueTypes.lookup name with
      | some e =>
        match e.resolveWith (d.lookUp depth) around with
        | .error fault => .error fault
        | .ok underlying =>
          if underlying.isValueType then .ok (.userDefined name .valueType underlying)
          else .error (.wrapsNonValue name underlying)
      | none =>
        if name ∈ d.contracts then .ok (.contract name) else .error (.unknownType name)

/-- How many names can be open inside one another. -/
def nesting (d : Declarations) : Nat := (d.structs.length + 1) * (d.valueTypes.length + 1)

/-- The type that the text of a variable's type stands for. -/
def readType (d : Declarations) (text : String) : Except TypeFault Ty :=
  (TypeExpr.ofText text.toList).resolveWith (d.lookUp d.nesting) {}

/-- The definition of a declared struct. -/
def readStruct (d : Declarations) (name : String) : Except TypeFault Ty :=
  d.lookUp d.nesting {} (.struct name)

end Declarations

end StorageAtlas
