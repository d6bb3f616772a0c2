import StorageAtlas.Address
import StorageAtlas.Json.Shape

/-!
# Decoded values

What was read for a record. Members of a struct or static array that cannot be decoded in place
(mappings, long byte strings) have no value of their own. `Value.text` is the display text,
`Value.toJson` the form in which values are kept.
-/

namespace StorageAtlas

/-- What the bytes of a value stand for, by its type. -/
inductive Value
  | uint (n : Word)
  /-- A signed number, as its two's complement. -/
  | int (n : Word)
  | address (a : Address)
  | bool (b : Bool)
  /-- A byte string of the length its type fixes. -/
  | fixedBytes (bs : Bytes)
  | bytes (bs : Bytes)
  | string (s : String)
  /-- The number of elements of a dynamic array. -/
  | length (n : Word)
  /-- Named parts in declaration order. -/
  | composite (members : List (String × Option Value))

namespace Value

/-! ## Equality -/

mutual
def beq : Value → Value → Bool
  | uint a, uint b => a == b
  | int a, int b => a == b
  | address a, address b => a == b
  | bool a, bool b => a == b
  | fixedBytes a, fixedBytes b => a == b
  | bytes a, bytes b => a == b
  | string a, string b => a == b
  | length a, length b => a == b
  | composite as, composite bs => beqMembers as bs
  | _, _ => false

def beqMembers : List (String × Option Value) → List (String × Option Value) → Bool
  | [], [] => true
  | (m, some v) :: vs, (n, some w) :: ws => m == n && beq v w && beqMembers vs ws
  | (m, none) :: vs, (n, none) :: ws => m == n && beqMembers vs ws
  | _, _ => false
end

mutual
theorem beq_iff : ∀ v w : Value, beq v w = true ↔ v = w
  | uint _, w => by cases w <;> simp [beq]
  | int _, w => by cases w <;> simp [beq]
  | address _, w => by cases w <;> simp [beq]
  | bool _, w => by cases w <;> simp [beq]
  | fixedBytes _, w => by cases w <;> simp [beq]
  | bytes _, w => by cases w <;> simp [beq]
  | string _, w => by cases w <;> simp [beq]
  | length _, w => by cases w <;> simp [beq]
  | composite as, w => by cases w <;> simp [beq, beqMembers_iff as]

theorem beqMembers_iff :
    ∀ vs ws : List (String × Option Value), beqMembers vs ws = true ↔ vs = ws
  | [], ws => by cases ws <;> simp [beqMembers]
  | (_, some v) :: vs, ws => by
    rcases ws with _ | ⟨⟨_, _ | w⟩, ws⟩ <;> simp [beqMembers, beq_iff v, beqMembers_iff vs]
  | (_, none) :: vs, ws => by
    rcases ws with _ | ⟨⟨_, _ | w⟩, ws⟩ <;> simp [beqMembers, beqMembers_iff vs]
end

instance : DecidableEq Value := fun v w => decidable_of_iff _ (beq_iff v w)

/-! ## Text -/

mutual
/-- The display text. -/
def text : Value → String
  | uint n => Word.text n
  | int n => Word.signedText n
  | address a => Address.text a
  | bool b => if b then "true" else "false"
  | fixedBytes bs | bytes bs => Text.hex bs
  | string s => s
  | length n => "length " ++ Word.text n
  | composite members => "\x7b " ++ membersText members ++ " \x7d"

def membersText : List (String × Option Value) → String
  | [] => ""
  | [m] => memberText m
  | m :: rest => memberText m ++ ", " ++ membersText rest

def memberText : String × Option Value → String
  | (name, some v) => name ++ ": " ++ v.text
  | (name, none) => name ++ ": <not inline>"
end

/-! ## JSON -/

/-- A byte string as an array of numbers. -/
def bytesToJson (bs : Bytes) : Json := .array (bs.map fun b => .nat b.toNat)

mutual
/-- The form in which a value is kept, told by its kind. -/
def toJson : Value → Json
  | uint n => .object [("kind", .string "uint"), ("value", Json.ofWord n)]
  | int n => .object [("kind", .string "int"), ("value", .string (Word.signedText n))]
  | address a => .object [("kind", .string "address"), ("value", .string (Address.hexText a))]
  | bool b => .object [("kind", .string "bool"), ("value", .bool b)]
  | fixedBytes bs => .object [("kind", .string "fixed_bytes"), ("value", bytesToJson bs)]
  | bytes bs => .object [("kind", .string "bytes"), ("value", bytesToJson bs)]
  | string s => .object [("kind", .string "string"), ("value", .string s)]
  | length n => .object [("kind", .string "length"), ("value", Json.ofWord n)]
  | composite members =>
    .object [("kind", .string "composite"), ("value", .array (membersToJson members))]

def membersToJson : List (String × Option Value) → List Json
  | [] => []
  | (name, some v) :: rest => .array [.string name, v.toJson] :: membersToJson rest
  | (name, none) :: rest => .array [.string name, .null] :: membersToJson rest
end

open Json

def asByte? (j : Json) : Option UInt8 := (asNat? 256 j).map UInt8.ofNat

/-- Reads a signed number: a 64-bit one, or a literal with any mark behind an optional sign. -/
def asSigned? : Json → Option Word
  | .integer n => some (BitVec.ofInt 256 n)
  | .string s =>
    let (negative, magnitude) : Bool × List Char := match s.toList with
      | '-' :: cs => (true, cs)
      | '+' :: cs => (false, cs)
      | cs => (false, cs)
    match Text.readMarkedLiteral magnitude with
    | .ok n =>
      if negative then
        if n ≤ Text.numeralLimit / 2 then some (BitVec.ofInt 256 (-(n : Int))) else none
      else if n < Text.numeralLimit / 2 then some (Word.ofNat n)
      else none
    | .error _ => none
  | _ => none

/-- Whether a value behind the last byte of an address goes unnoticed. Of an array in its text one
value more is begun, and goes unnoticed if it is no byte and is read to its end all the same. -/
def isUnnoticed (o : Origin) (j : Json) : Bool :=
  (asByte? j).isNone && (o != .text || match j with
    | .array _ | .object _ | .flawed .halfPair | .flawed .tooDeep => false
    | _ => true)

/-- Reads an address: its digits, or its bytes as numbers. -/
def asAddress? (o : Origin) : Json → Option Address
  | .string s => (Address.read s.toList).toOption
  | .array items =>
    let bytes := items.take 20
    let rest := items.drop 20
    if bytes.length = 20 && (rest.isEmpty || rest.length = 1 && rest.all (isUnnoticed o)) then
      (bytes.mapM asByte?).map Address.ofBytes
    else none
  | _ => none

/-- The names of the kinds of values, in order. -/
def kindNames : List String :=
  ["uint", "int", "address", "bool", "fixed_bytes", "bytes", "string", "length", "composite"]

/-- Reads a value nested less than `room` deep. -/
def ofJsonWithin? : Nat → Origin → Json → Option Value
  | 0, _, _ => none
  | room + 1, o, j =>
    match adjacent? o "kind" "value" kindNames j with
    | some ⟨kind, some j, o⟩ =>
      match kind with
      | "uint" => (asWord? j).map uint
      | "int" => (asSigned? j).map int
      | "address" => (asAddress? o j).map address
      | "bool" => (asBool? j).map bool
      | "fixed_bytes" => (asList? asByte? j).map fixedBytes
      | "bytes" => (asList? asByte? j).map bytes
      | "string" => (asString? j).map string
      | "length" => (asWord? j).map length
      | "composite" => (asList? (memberOfJson? room o) j).map composite
      | _ => none
    | _ => none
where
  memberOfJson? (room : Nat) (o : Origin) : Json → Option (String × Option Value)
    | .array [.string name, .null] => some (name, none)
    | .array [.string name, j] => (ofJsonWithin? room o j).map fun v => (name, some v)
    | _ => none

/-- Reads a value. -/
def ofJson? (o : Origin) (j : Json) : Option Value := ofJsonWithin? (j.depth + 1) o j

end Value

end StorageAtlas
