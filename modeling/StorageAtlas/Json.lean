import StorageAtlas.SortedMap
import StorageAtlas.Text.Integer

/-!
# JSON values

Objects keep the order and the repetitions of their keys. A number is an integer of at most 64
bits, or some other number that is kept as it was written. `Json.compact` prints without blanks,
`Json.pretty` with one entry a line, indented by two.

A text may hold values that are formed as they should be and still cannot be had, as a number beyond
the doubles. They are kept as flaws: a reader that has no use for them passes over them
(`Json.isPassable`), and a reader that wants all of a value wants it without (`Json.isSound`).
-/

namespace StorageAtlas

/-- Why there is no value. -/
inductive Json.Flaw
  /-- A number beyond the doubles. -/
  | tooLarge
  /-- A string, or a key of an object, with one half of a surrogate pair. -/
  | halfPair
  /-- Too many arrays and objects around it. -/
  | tooDeep
  /-- Nothing stands between the last comma of an array and its end. -/
  | missing
deriving DecidableEq, Repr

/-- A JSON value, its entries in the order of the text. -/
inductive Json
  | null
  | bool (b : Bool)
  | integer (n : Int)
  /-- A number with a fraction, an exponent or more than 64 bits. -/
  | real (written : String)
  | string (s : String)
  | array (items : List Json)
  | object (entries : List (String × Json))
  | flawed (flaw : Json.Flaw)

namespace Json

instance : Inhabited Json := ⟨null⟩

abbrev nat (n : Nat) : Json := integer n

/-- The value or `null`. -/
def option (f : α → Json) : Option α → Json
  | none => null
  | some a => f a

abbrev optionalString (s : Option String) : Json := option string s

/-- The first entry with the given key. -/
def field? (j : Json) (key : String) : Option Json :=
  match j with
  | object entries => entries.lookup key
  | _ => none

mutual
/-- How deep arrays and objects are nested. -/
def depth : Json → Nat
  | array items => depthItems items + 1
  | object entries => depthEntries entries + 1
  | _ => 0

def depthItems : List Json → Nat
  | [] => 0
  | j :: rest => max j.depth (depthItems rest)

def depthEntries : List (String × Json) → Nat
  | [] => 0
  | (_, j) :: rest => max j.depth (depthEntries rest)
end

mutual
/-- Whether all parts of a value can be had. -/
def isSound : Json → Bool
  | array items => areSoundItems items
  | object entries => areSoundEntries entries
  | flawed _ => false
  | _ => true

def areSoundItems : List Json → Bool
  | [] => true
  | j :: rest => j.isSound && areSoundItems rest

def areSoundEntries : List (String × Json) → Bool
  | [] => true
  | (_, j) :: rest => j.isSound && areSoundEntries rest
end

mutual
/-- Whether a value without use can be passed over: no array in it ends with a comma. -/
def isPassable : Json → Bool
  | array items => arePassableItems items
  | object entries => arePassableEntries entries
  | flawed flaw => flaw != .missing
  | _ => true

def arePassableItems : List Json → Bool
  | [] => true
  | j :: rest => j.isPassable && arePassableItems rest

def arePassableEntries : List (String × Json) → Bool
  | [] => true
  | (_, j) :: rest => j.isPassable && arePassableEntries rest
end

/-- The flaw of a value as a whole. -/
def spoiled (flaw : Flaw) (j : Json) : Json := flawed (if j.isPassable then flaw else .missing)

mutual
/-- The same value with the keys of every object sorted; the last entry of a key counts. -/
def sorted : Json → Json
  | array items => array (sortedItems items)
  | object entries => object (SortedMap.ofEntries (sortedEntries entries))
  | j => j

def sortedItems : List Json → List Json
  | [] => []
  | j :: rest => j.sorted :: sortedItems rest

def sortedEntries : List (String × Json) → List (String × Json)
  | [] => []
  | (key, j) :: rest => (key, j.sorted) :: sortedEntries rest
end

/-! ## Printing -/

/-- A character inside a string literal. -/
def escaped (c : Char) : String :=
  if c = '"' then "\\\""
  else if c = '\\' then "\\\\"
  else if c = '\n' then "\\n"
  else if c = '\r' then "\\r"
  else if c = '\t' then "\\t"
  else if c.toNat = 8 then "\\b"
  else if c.toNat = 12 then "\\f"
  else if c.toNat < 32 then
    "\\u00" ++ (if c.toNat < 16 then "0" else "") ++ Text.hexadecimal c.toNat
  else String.singleton c

/-- A string literal. -/
def literal (s : String) : String :=
  s.toList.foldl (fun acc c => acc ++ escaped c) "\"" ++ "\""

mutual
/-- The text without blanks. A flaw is printed as `null`. -/
def compact : Json → String
  | null | flawed _ => "null"
  | bool b => if b then "true" else "false"
  | integer n => toString n
  | real written => written
  | string s => literal s
  | array items => "[" ++ compactItems items ++ "]"
  | object entries => "\x7b" ++ compactEntries entries ++ "\x7d"

def compactItems : List Json → String
  | [] => ""
  | [j] => j.compact
  | j :: rest => j.compact ++ "," ++ compactItems rest

def compactEntries : List (String × Json) → String
  | [] => ""
  | [(key, j)] => literal key ++ ":" ++ j.compact
  | (key, j) :: rest => literal key ++ ":" ++ j.compact ++ "," ++ compactEntries rest
end

/-- A fresh line, indented. -/
def freshLine (indent : Nat) : String := "\n" ++ String.ofList (List.replicate (2 * indent) ' ')

mutual
/-- The text with one entry a line, inside `indent` levels. -/
def prettyAt (indent : Nat) : Json → String
  | array [] => "[]"
  | array items => "[" ++ prettyItems (indent + 1) items ++ freshLine indent ++ "]"
  | object [] => "\x7b\x7d"
  | object entries => "\x7b" ++ prettyEntries (indent + 1) entries ++ freshLine indent ++ "\x7d"
  | null | flawed _ => "null"
  | bool b => if b then "true" else "false"
  | integer n => toString n
  | real written => written
  | string s => literal s

def prettyItems (indent : Nat) : List Json → String
  | [] => ""
  | [j] => freshLine indent ++ prettyAt indent j
  | j :: rest => freshLine indent ++ prettyAt indent j ++ "," ++ prettyItems indent rest

def prettyEntries (indent : Nat) : List (String × Json) → String
  | [] => ""
  | [(key, j)] => freshLine indent ++ literal key ++ ": " ++ prettyAt indent j
  | (key, j) :: rest =>
    freshLine indent ++ literal key ++ ": " ++ prettyAt indent j ++ "," ++ prettyEntries indent rest
end

/-- The text with one entry a line. -/
def pretty (j : Json) : String := prettyAt 0 j

end Json

end StorageAtlas
