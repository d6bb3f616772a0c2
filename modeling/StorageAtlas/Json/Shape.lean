import StorageAtlas.Json
import StorageAtlas.Word

/-!
# Shapes of JSON values

Readers for the parts that values of the library are made of. A record is an object or an array of
its fields in order; an object may hold other keys, which are passed over, and none of the record's
twice. A choice is told by a tag, which stands among the fields of the alternative (`takeTag?`) or
beside one entry that holds them (`adjacent?`). What follows before the tag is known is set aside,
and is then read with more tolerance (`Origin`).
-/

namespace StorageAtlas.Json

/-- Where the value that a reader gets comes from. -/
inductive Origin
  /-- It is taken apart while its text is read. -/
  | text
  /-- It was read as a whole before. -/
  | tree
  /-- It was read before as a part of something, until its tag was known. -/
  | setAside
deriving DecidableEq, Repr

def asString? : Json → Option String
  | string s => some s
  | _ => none

def asBool? : Json → Option Bool
  | bool b => some b
  | _ => none

/-- A whole number below `limit`. -/
def asNat? (limit : Nat) : Json → Option Nat
  | integer n => if 0 ≤ n ∧ n < limit then some n.toNat else none
  | _ => none

/-- A whole number of 64 bits. -/
abbrev asNat64? : Json → Option Nat := asNat? UInt64.size

/-- An array of values of one shape. -/
def asList? (f : Json → Option α) : Json → Option (List α)
  | array items => items.mapM f
  | _ => none

/-- A value or `null`. -/
def asOption? (f : Json → Option α) : Json → Option (Option α)
  | null => some none
  | j => (f j).map some

/-- The value of a field that may be left out. -/
def orDefault (f : Json → Option α) (value : α) : Option Json → Option α
  | none => some value
  | some j => f j

/-- The values of an object under one key, in order. -/
def valuesOf (entries : List (String × Json)) (key : String) : List Json :=
  (entries.filter (·.1 == key)).map (·.2)

/-- The value of the only entry with the key; `none` when there are several. -/
def atMostOnce? (entries : List (String × Json)) (key : String) : Option (Option Json) :=
  match valuesOf entries key with
  | [] => some none
  | [j] => some (some j)
  | _ => none

/-- Whether the entries that are not under one of the keys can be passed over. -/
def othersPassable (keys : List String) (entries : List (String × Json)) : Bool :=
  arePassableEntries (entries.filter fun e => !keys.contains e.1)

/-- The fields of a record, those left out as `none`; an array may leave out the last ones. -/
def fields? (names : List String) : Json → Option (List (Option Json))
  | object entries =>
    if othersPassable names entries then names.mapM (atMostOnce? entries) else none
  | array items =>
    if items.length ≤ names.length then
      some (items.map some ++ List.replicate (names.length - items.length) none)
    else none
  | _ => none

/-- The fields of a record without defaults: an array has to hold all of them, while an object may
leave out those that can be `null`. -/
def undefaulted? (names : List String) : Json → Option (List (Option Json))
  | array items => if items.length = names.length then some (items.map some) else none
  | j => fields? names j

/-- The tag among the fields of a record, and the other fields, which are all set aside. -/
def takeTag? (o : Origin) (tag : String) (j : Json) : Option (Json × Json) :=
  let taken := match j with
    | object entries =>
      match valuesOf entries tag with
      | [j] => some (j, object (entries.filter (·.1 != tag)))
      | _ => none
    | array (j :: rest) => some (j, array rest)
    | _ => none
  taken.filter fun t => o = .setAside || t.2.isSound

/-- The name of an alternative, alone or as the key of nothing. -/
def variant? (o : Origin) : Json → Option String
  | string s => some s
  | object [(s, null)] => some s
  | object [(s, object [])] => if o = .setAside then some s else none
  | _ => none

/-- The name of one of the alternatives, or its position if it was set aside. -/
def tagName? (o : Origin) (names : List String) : Json → Option String
  | string s => some s
  | integer n => if o = .setAside ∧ 0 ≤ n then names[n.toNat]? else none
  | _ => none

/-- An alternative of a choice. -/
structure Alternative where
  name : String
  content : Option Json
  /-- Where the content comes from. -/
  origin : Origin

/-- The alternative that is given under two keys, or as an array of two items. Contents that stand
before the tag are set aside. -/
def adjacent? (o : Origin) (tag content : String) (names : List String) :
    Json → Option Alternative
  | object entries =>
    if othersPassable [tag, content] entries then
      match valuesOf entries tag, atMostOnce? entries content with
      | [j], some none => (variant? o j).map fun s => ⟨s, none, o⟩
      | [j], some (some c) =>
        let isFirst := (entries.find? fun e => e.1 == tag || e.1 == content).any (·.1 == content)
        if o = .text ∧ isFirst then
          if c.isSound then (variant? o j).map fun s => ⟨s, some c, .setAside⟩ else none
        else (variant? o j).map fun s => ⟨s, some c, o⟩
      | _, _ => none
    else none
  | array [j, c] => (tagName? o names j).map fun s => ⟨s, some c, o⟩
  | _ => none

/-- The contents of an alternative that has none. -/
def isAbsent : Option Json → Bool
  | none | some null => true
  | _ => false

/-- An object as a map; where a key is given twice the last value counts. -/
def asMap? (f : Json → Option α) : Json → Option (List (String × α))
  | object entries => entries.mapM fun e => (f e.2).map fun a => (e.1, a)
  | _ => none

/-! ## Words -/

/-- A word as the shortest marked number. -/
def ofWord (w : Word) : Json := string (Word.hexText w)

/-- A number of 64 bits or an integer literal with any mark. -/
def asWord? : Json → Option Word
  | string s =>
    match Text.readMarkedLiteral s.toList with
    | .ok n => some (Word.ofNat n)
    | .error _ => none
  | j => (asNat64? j).map Word.ofNat

end StorageAtlas.Json
