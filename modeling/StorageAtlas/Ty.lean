import StorageAtlas.SortedMap
import StorageAtlas.Text.Integer

/-!
# Storage types

The shapes a state variable can have. A struct carries its members in declaration order; where a
struct contains itself behind a mapping or a dynamic array, the inner use is a `structRef` that
only names it. `Ty.spelling` is the source text of a type.
-/

namespace StorageAtlas

/-- Types whose values fit in one word. -/
inductive Elementary
  /-- An unsigned integer of so many bits. -/
  | uint (bits : UInt16)
  /-- A signed integer of so many bits. -/
  | int (bits : UInt16)
  | address
  | bool
  /-- A string of so many bytes. -/
  | fixedBytes (width : UInt8)
deriving DecidableEq, Repr

namespace Elementary

/-- Bytes a value takes: whole bytes, at least one, at most a word. -/
def byteWidth : Elementary → Nat
  | uint bits | int bits => max 1 (min 32 ((bits.toNat + 7) / 8))
  | address => 20
  | bool => 1
  | fixedBytes width => max 1 (min 32 width.toNat)

/-- The source text of an elementary type. -/
def spelling : Elementary → String
  | uint bits => "uint" ++ Text.decimal bits.toNat
  | int bits => "int" ++ Text.decimal bits.toNat
  | address => "address"
  | bool => "bool"
  | fixedBytes width => "bytes" ++ Text.decimal width.toNat

theorem byteWidth_pos (e : Elementary) : 0 < e.byteWidth := by
  cases e <;> simp only [byteWidth] <;> omega

theorem byteWidth_le (e : Elementary) : e.byteWidth ≤ 32 := by
  cases e <;> simp only [byteWidth] <;> omega

end Elementary

/-- What a name of a user-defined type stands for. -/
inductive UserKind
  /-- A contract or interface, stored as its address. -/
  | contract
  /-- An enumeration, stored as a small unsigned integer. -/
  | enum
  /-- A name for another value type. -/
  | valueType
deriving DecidableEq, Repr

/-- The type of a stored value. -/
inductive Ty
  | elementary (e : Elementary)
  | fixedArray (element : Ty) (length : UInt64)
  | dynamicArray (element : Ty)
  | mapping (key value : Ty)
  | struct (name : String) (members : List (String × Ty))
  | bytes
  | string
  | userDefined (name : String) (kind : UserKind) (underlying : Ty)
  /-- A reference to code; it takes room in storage, and is not decoded. -/
  | function (external : Bool)
  /-- A struct that is only named, where spelling it out would not end. -/
  | structRef (name : String)

/-- A named part of a struct. -/
abbrev Member := String × Ty

/-- Struct definitions by name. -/
abbrev StructTable := SortedMap (List Member)

namespace Ty

abbrev uint (bits : UInt16) : Ty := elementary (.uint bits)

abbrev int (bits : UInt16) : Ty := elementary (.int bits)

abbrev address : Ty := elementary .address

abbrev bool : Ty := elementary .bool

abbrev fixedBytes (width : UInt8) : Ty := elementary (.fixedBytes width)

/-- A reference to a contract, stored as an address. -/
abbrev contract (name : String) : Ty := userDefined name .contract address

/-- An enumeration; it has at most 256 members and so is stored in one byte. -/
abbrev enumeration (name : String) : Ty := userDefined name .enum (uint 8)

/-! ## Equality -/

mutual
def beq : Ty → Ty → Bool
  | elementary a, elementary b => a == b
  | fixedArray a n, fixedArray b m => beq a b && n == m
  | dynamicArray a, dynamicArray b => beq a b
  | mapping a b, mapping c d => beq a c && beq b d
  | struct a ms, struct b ns => a == b && beqMembers ms ns
  | bytes, bytes => true
  | string, string => true
  | userDefined a k s, userDefined b l t => a == b && k == l && beq s t
  | function a, function b => a == b
  | structRef a, structRef b => a == b
  | _, _ => false

def beqMembers : List Member → List Member → Bool
  | [], [] => true
  | (a, s) :: ms, (b, t) :: ns => a == b && beq s t && beqMembers ms ns
  | _, _ => false
end

mutual
theorem beq_iff : ∀ s t : Ty, beq s t = true ↔ s = t
  | elementary _, t => by cases t <;> simp [beq]
  | fixedArray a _, t => by cases t <;> simp [beq, beq_iff a]
  | dynamicArray a, t => by cases t <;> simp [beq, beq_iff a]
  | mapping a b, t => by cases t <;> simp [beq, beq_iff a, beq_iff b]
  | struct _ ms, t => by cases t <;> simp [beq, beqMembers_iff ms]
  | bytes, t => by cases t <;> simp [beq]
  | string, t => by cases t <;> simp [beq]
  | userDefined _ _ s, t => by cases t <;> simp [beq, beq_iff s, and_assoc]
  | function _, t => by cases t <;> simp [beq]
  | structRef _, t => by cases t <;> simp [beq]

theorem beqMembers_iff : ∀ ms ns : List Member, beqMembers ms ns = true ↔ ms = ns
  | [], ns => by cases ns <;> simp [beqMembers]
  | (_, s) :: ms, ns => by
    cases ns with
    | nil => simp [beqMembers]
    | cons n ns => cases n; simp [beqMembers, beq_iff s, beqMembers_iff ms]
end

instance : DecidableEq Ty := fun s t => decidable_of_iff _ (beq_iff s t)

/-! ## Kinds of types -/

/-- The type that is really stored: user-defined names are seen through. -/
def stored : Ty → Ty
  | userDefined _ _ underlying => stored underlying
  | t => t

/-- Value types share slots with their neighbours. -/
def isValueType (t : Ty) : Bool :=
  match t.stored with
  | elementary _ | function _ => true
  | _ => false

/-- Dynamic types keep their contents at hashed slots. -/
def isDynamic (t : Ty) : Bool :=
  match t.stored with
  | dynamicArray _ | mapping _ _ | bytes | string => true
  | _ => false

/-- Types made of parts that lie in place. -/
def isComposite (t : Ty) : Bool :=
  match t.stored with
  | struct _ _ | fixedArray _ _ => true
  | _ => false

/-- The source text of a type. -/
def spelling : Ty → String
  | elementary e => e.spelling
  | fixedArray element length => element.spelling ++ "[" ++ Text.decimal length.toNat ++ "]"
  | dynamicArray element => element.spelling ++ "[]"
  | mapping key value => "mapping(" ++ key.spelling ++ " => " ++ value.spelling ++ ")"
  | struct name _ | structRef name => "struct " ++ name
  | bytes => "bytes"
  | string => "string"
  | userDefined name kind _ =>
    match kind with
    | .contract => "contract " ++ name
    | .enum => "enum " ++ name
    | .valueType => name
  | function external => if external then "function external" else "function internal"

/-- Where a member of the given name first stands, and its type. -/
def findMember? (members : List Member) (name : String) : Option (Nat × Ty) :=
  (members.findIdx? (·.1 == name)).bind fun i => (members[i]?).map fun m => (i, m.2)

end Ty

end StorageAtlas
