import StorageAtlas.Json.Shape
import StorageAtlas.Ty

/-!
# Types as JSON

A type is an object with its `shape` and the fields of that shape; an elementary type adds its
`kind` and `width`. What stands inside a type is read after it was set aside.
-/

namespace StorageAtlas

open Json

def Elementary.kindFields : Elementary → List (String × Json)
  | uint bits => [("kind", .string "uint"), ("width", .nat bits.toNat)]
  | int bits => [("kind", .string "int"), ("width", .nat bits.toNat)]
  | address => [("kind", .string "address")]
  | bool => [("kind", .string "bool")]
  | fixedBytes width => [("kind", .string "fixed_bytes"), ("width", .nat width.toNat)]

def UserKind.name : UserKind → String
  | contract => "contract"
  | enum => "enum"
  | valueType => "value_type"

mutual
def Ty.toJson : Ty → Json
  | .elementary e => .object (("shape", .string "elementary") :: e.kindFields)
  | .fixedArray element length =>
    .object [("shape", .string "fixed_array"), ("element", element.toJson),
      ("length", .nat length.toNat)]
  | .dynamicArray element =>
    .object [("shape", .string "dynamic_array"), ("element", element.toJson)]
  | .mapping key value =>
    .object [("shape", .string "mapping"), ("key", key.toJson), ("value", value.toJson)]
  | .struct name members =>
    .object [("shape", .string "struct"), ("name", .string name),
      ("fields", .array (membersToJson members))]
  | .bytes => .object [("shape", .string "bytes")]
  | .string => .object [("shape", .string "string")]
  | .userDefined name kind underlying =>
    .object [("shape", .string "user_defined"), ("name", .string name),
      ("kind", .string kind.name), ("underlying", underlying.toJson)]
  | .function external =>
    .object [("shape", .string "function"), ("external", .bool external)]
  | .structRef name => .object [("shape", .string "struct_ref"), ("name", .string name)]

def membersToJson : List Member → List Json
  | [] => []
  | (name, t) :: rest => .object [("name", .string name), ("type", t.toJson)] :: membersToJson rest
end

/-- The names of the shapes, in order. -/
def shapeNames : List String :=
  ["elementary", "fixed_array", "dynamic_array", "mapping", "struct", "bytes", "string",
    "user_defined", "function", "struct_ref"]

/-- The names of the kinds of elementary types, in order. -/
def Elementary.kindNames : List String := ["uint", "int", "address", "bool", "fixed_bytes"]

/-- Reads an elementary type, which stands inside a type. -/
def Elementary.ofJson? (j : Json) : Option Elementary :=
  match adjacent? .setAside "kind" "width" kindNames j with
  | some ⟨"uint", some w, _⟩ => (asNat? UInt16.size w).map fun n => uint (UInt16.ofNat n)
  | some ⟨"int", some w, _⟩ => (asNat? UInt16.size w).map fun n => int (UInt16.ofNat n)
  | some ⟨"address", w, _⟩ => if isAbsent w then some address else none
  | some ⟨"bool", w, _⟩ => if isAbsent w then some bool else none
  | some ⟨"fixed_bytes", some w, _⟩ =>
    (asNat? UInt8.size w).map fun n => fixedBytes (UInt8.ofNat n)
  | _ => none

/-- Reads the kind of a user-defined type, which stands inside a type. -/
def UserKind.ofJson? (j : Json) : Option UserKind :=
  match variant? .setAside j with
  | some "contract" => some contract
  | some "enum" => some enum
  | some "value_type" => some valueType
  | _ => none

/-- Reads a type nested less than `room` deep. -/
def Ty.ofJsonWithin? (o : Origin) : Nat → Json → Option Ty
  | 0, _ => none
  | room + 1, j => do
    let (tag, body) ← takeTag? o "shape" j
    match ← tagName? o shapeNames tag with
    | "elementary" => return .elementary (← Elementary.ofJson? body)
    | "fixed_array" =>
      match ← fields? ["element", "length"] body with
      | [some element, some length] =>
        return .fixedArray (← ofJsonWithin? .setAside room element)
          (UInt64.ofNat (← asNat64? length))
      | _ => none
    | "dynamic_array" =>
      match ← fields? ["element"] body with
      | [some element] => return .dynamicArray (← ofJsonWithin? .setAside room element)
      | _ => none
    | "mapping" =>
      match ← fields? ["key", "value"] body with
      | [some key, some value] =>
        return .mapping (← ofJsonWithin? .setAside room key) (← ofJsonWithin? .setAside room value)
      | _ => none
    | "struct" =>
      match ← fields? ["name", "fields"] body with
      | [some name, some fields] =>
        return .struct (← asString? name) (← asList? (memberOfJson? room) fields)
      | _ => none
    | "bytes" => if body matches .array (_ :: _) then none else some .bytes
    | "string" => if body matches .array (_ :: _) then none else some .string
    | "user_defined" =>
      match ← fields? ["name", "kind", "underlying"] body with
      | [some name, some kind, some underlying] =>
        return .userDefined (← asString? name) (← UserKind.ofJson? kind)
          (← ofJsonWithin? .setAside room underlying)
      | _ => none
    | "function" =>
      match ← fields? ["external"] body with
      | [some external] => return .function (← asBool? external)
      | _ => none
    | "struct_ref" =>
      match ← fields? ["name"] body with
      | [some name] => return .structRef (← asString? name)
      | _ => none
    | _ => none
where
  memberOfJson? (room : Nat) (j : Json) : Option Member := do
    match ← fields? ["name", "type"] j with
    | [some name, some t] => return (← asString? name, ← ofJsonWithin? .setAside room t)
    | _ => none

/-- Reads a type. -/
def Ty.ofJson? (o : Origin) (j : Json) : Option Ty := Ty.ofJsonWithin? o (j.depth + 1) j

/-- Reads a named member. -/
def memberOfJson? (o : Origin) (j : Json) : Option Member := do
  match ← fields? ["name", "type"] j with
  | [some name, some t] => return (← asString? name, ← Ty.ofJson? o t)
  | _ => none

/-- Reads a struct definition. -/
def structOfJson? (o : Origin) (j : Json) : Option (String × List Member) := do
  match ← fields? ["name", "fields"] j with
  | [some name, some fields] => return (← asString? name, ← asList? (memberOfJson? o) fields)
  | _ => none

def structToJson (name : String) (members : List Member) : Json :=
  .object [("name", .string name), ("fields", .array (membersToJson members))]

end StorageAtlas
