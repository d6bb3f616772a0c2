import StorageAtlas.Json

/-!
# TOML values

A document is a table. A table remembers how it came to be: tables that a heading or a dotted key
brings along may be added to, and tables that are written out in full may not.
-/

namespace StorageAtlas

/-- How a table came to be. -/
inductive TableOrigin
  /-- On the way to another heading. -/
  | implied
  /-- On the way of a dotted key. -/
  | dotted
  /-- By a heading of its own. -/
  | headed
  /-- Between braces, which end it. -/
  | closed
deriving DecidableEq, Repr

/-- A TOML value. -/
inductive Toml
  | string (s : String)
  | integer (n : Int)
  | float (written : String)
  | boolean (b : Bool)
  | datetime (written : String)
  | array (items : List Toml)
  | table (origin : TableOrigin) (entries : List (String × Toml))
  /-- Tables under a repeated heading. -/
  | tables (items : List Toml)

namespace Toml

/-- The entries of a table, each key once. -/
abbrev Entries := List (String × Toml)

/-- Puts another value under a key that is there. -/
def replace (key : String) (value : Toml) (entries : Entries) : Entries :=
  entries.map fun e => if e.1 = key then (key, value) else e

/-- Gives a dotted key its value; it must not have one. -/
def assign (value : Toml) : List String → Entries → Option Entries
  | [], _ => none
  | [key], entries =>
    match entries.lookup key with
    | none => some (entries ++ [(key, value)])
    | some _ => none
  | key :: rest, entries =>
    match entries.lookup key with
    | none => (assign value rest []).map fun sub => entries ++ [(key, table .dotted sub)]
    | some (table origin sub) =>
      if origin = .implied ∨ origin = .dotted then
        (assign value rest sub).map fun sub => replace key (table origin sub) entries
      else none
    | some _ => none

/-- Changes the table that a heading leads to. Of repeated headings the last one counts. -/
def within (change : Entries → Option Entries) : List String → Entries → Option Entries
  | [], entries => change entries
  | key :: rest, entries =>
    match entries.lookup key with
    | none => (within change rest []).map fun sub => entries ++ [(key, table .implied sub)]
    | some (table .closed _) => none
    | some (table origin sub) =>
      (within change rest sub).map fun sub => replace key (table origin sub) entries
    | some (tables items) =>
      match items.getLast? with
      | some (table origin sub) =>
        (within change rest sub).map fun sub =>
          replace key (tables (items.dropLast ++ [table origin sub])) entries
      | _ => none
    | some _ => none

/-- Opens the table of a heading whose last part is `key`. -/
def openTable (key : String) (entries : Entries) : Option Entries :=
  match entries.lookup key with
  | none => some (entries ++ [(key, table .headed [])])
  | some (table .implied sub) => some (replace key (table .headed sub) entries)
  | some _ => none

/-- Opens one more table under a repeated heading whose last part is `key`. -/
def openRepeated (key : String) (entries : Entries) : Option Entries :=
  match entries.lookup key with
  | none => some (entries ++ [(key, tables [table .headed []])])
  | some (tables items) => some (replace key (tables (items ++ [table .headed []])) entries)
  | some _ => none

mutual
/-- The same value in the other format. Numbers that are not whole stay as they are written, and
points in time become objects of one entry. -/
def toJson : Toml → Json
  | string s => .string s
  | integer n => .integer n
  | float written => .real written
  | boolean b => .bool b
  | datetime written => .object [("datetime", .string written)]
  | array items => .array (itemsToJson items)
  | table _ entries => .object (entriesToJson entries)
  | tables items => .array (itemsToJson items)

def itemsToJson : List Toml → List Json
  | [] => []
  | t :: rest => t.toJson :: itemsToJson rest

def entriesToJson : List (String × Toml) → List (String × Json)
  | [] => []
  | (key, t) :: rest => (key, t.toJson) :: entriesToJson rest
end

end Toml

end StorageAtlas
