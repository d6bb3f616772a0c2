import StorageAtlas.Text.Integer

/-!
# Strings and keys in TOML

A string is written in the first form that needs no escape: between double quotes, between single
quotes, or over several lines between three of either; a string that has to be escaped is written
between double quotes, three of them if it has line breaks. A key is written bare where it can be,
and never over several lines.
-/

namespace StorageAtlas.Toml

/-- What about a string decides on its form. -/
structure Traits where
  /-- It has control characters other than tabs and line breaks. -/
  control : Bool
  backslash : Bool
  newline : Bool
  /-- Most double quotes in a row. -/
  doubleQuotes : Nat
  /-- Most single quotes in a row. -/
  singleQuotes : Nat

/-- The most repetitions of a character in a row; `run` of them stand before the text. -/
def longestRun (q : Char) (run : Nat) : List Char → Nat
  | [] => run
  | c :: cs => if c = q then longestRun q (run + 1) cs else max run (longestRun q 0 cs)

def isControl (c : Char) : Bool := c.toNat < 32 || c.toNat == 127

def Traits.of (cs : List Char) : Traits where
  control := cs.any fun c => isControl c && c != '\t' && c != '\n'
  backslash := cs.contains '\\'
  newline := cs.contains '\n'
  doubleQuotes := longestRun '"' 0 cs
  singleQuotes := longestRun '\'' 0 cs

/-- A control character as its code in four digits. -/
def codeEscape (c : Char) : String :=
  let ds := Text.hexadecimal c.toNat
  "\\u" ++ String.ofList (List.replicate (4 - ds.length) '0') ++ ds.map Char.toUpper

/-- The characters between double quotes. `quotes` of the double quotes before the text stand
unescaped; up to `most` of them may stand in a row. -/
def escape (multiline : Bool) (most quotes : Nat) : List Char → String
  | [] => ""
  | c :: cs =>
    if c = '"' then
      if quotes < most then "\"" ++ escape multiline most (quotes + 1) cs
      else "\\\"" ++ escape multiline most 0 cs
    else
      let written : String :=
        if c = '\\' then "\\\\"
        else if c = '\n' then (if multiline then "\n" else "\\n")
        else if c = '\t' then "\\t"
        else if c = '\r' then "\\r"
        else if c.toNat = 8 then "\\b"
        else if c.toNat = 12 then "\\f"
        else if isControl c then codeEscape c
        else String.singleton c
      written ++ escape multiline most 0 cs

def basic (cs : List Char) : String := "\"" ++ escape false 0 0 cs ++ "\""

def literal (cs : List Char) : String := "'" ++ String.ofList cs ++ "'"

/-- Three quotes, with the line break that is not part of the string. -/
def openTriple (t : Traits) (quotes : String) : String :=
  if t.newline then quotes ++ "\n" else quotes

def basicLines (t : Traits) (cs : List Char) : String :=
  openTriple t "\"\"\"" ++ escape true 2 0 cs ++ "\"\"\""

def literalLines (t : Traits) (cs : List Char) : String :=
  openTriple t "'''" ++ String.ofList cs ++ "'''"

/-- A string as a value. -/
def stringText (s : String) : String :=
  let cs := s.toList
  let t := Traits.of cs
  if !t.control && !t.backslash && t.doubleQuotes == 0 && !t.newline then basic cs
  else if !t.control && t.singleQuotes == 0 && !t.newline then literal cs
  else if !t.control && !t.backslash && t.doubleQuotes ≤ 2 then basicLines t cs
  else if !t.control && t.singleQuotes ≤ 2 then literalLines t cs
  else if t.newline then basicLines t cs
  else basic cs

/-- Characters of a bare key. -/
def isBare (c : Char) : Bool := c.isAlphanum || c == '-' || c == '_'

/-- One part of a key. -/
def keyText (s : String) : String :=
  let cs := s.toList
  let t := Traits.of cs
  let control := t.control || t.newline
  if !cs.isEmpty && cs.all isBare then s
  else if !control && !t.backslash && t.doubleQuotes == 0 then basic cs
  else if !control && t.singleQuotes == 0 then literal cs
  else basic cs

/-- The heading of a table. -/
def heading (path : List String) : String :=
  "[" ++ String.intercalate "." (path.map keyText) ++ "]"

/-- A line that gives a key its value. -/
def assignment (key value : String) : String := keyText key ++ " = " ++ value

end StorageAtlas.Toml
