import StorageAtlas.Toml.Scalar

/-!
# Reading TOML

A document is read line by line: headings and assignments change the table read so far. Values
between brackets or braces may go over several lines, and a comma may follow the last of them.
-/

namespace StorageAtlas.Toml

/-! ## Blanks and comments -/

def isBlank (c : Char) : Bool := c == ' ' || c == '\t'

def skipBlanks (cs : List Char) : List Char := cs.dropWhile isBlank

/-- Control characters that no comment or string may hold. -/
def isForbidden (c : Char) : Bool := (c.toNat < 32 && c != '\t') || c.toNat == 127

/-- What follows the end of a line, a comment before it included. -/
def nextLine? (cs : List Char) : Option (List Char) :=
  match skipBlanks cs with
  | [] => some []
  | '\n' :: rest => some rest
  | '\r' :: '\n' :: rest => some rest
  | '#' :: rest =>
    match (rest.dropWhile (!isForbidden ·)) with
    | [] => some []
    | '\n' :: rest => some rest
    | '\r' :: '\n' :: rest => some rest
    | _ => none
  | _ => none

/-- Skips blanks, comments and ends of lines; `fuel` bounds the number of lines. -/
def skipLines : Nat → List Char → List Char
  | 0, cs => cs
  | fuel + 1, cs =>
    match skipBlanks cs with
    | [] => []
    | c :: rest =>
      match nextLine? (c :: rest) with
      | some rest => skipLines fuel rest
      | none => c :: rest

/-! ## Strings -/

/-- The character with the code that some digits tell. -/
def codeChar? (digits : List Char) : Option Char :=
  if digits.all fun c => (Text.digitOf? 16 c).isSome then
    let n := digitsValue 16 digits
    if n < 0xd800 ∨ (0xdfff < n ∧ n < 0x110000) then some (Char.ofNat n) else none
  else none

/-- The character behind a backslash, and what follows it. -/
def readEscape (cs : List Char) : Option (Char × List Char) :=
  match cs with
  | 'b' :: rest => some (Char.ofNat 8, rest)
  | 'e' :: rest => some (Char.ofNat 27, rest)
  | 't' :: rest => some ('\t', rest)
  | 'n' :: rest => some ('\n', rest)
  | 'f' :: rest => some (Char.ofNat 12, rest)
  | 'r' :: rest => some ('\r', rest)
  | '"' :: rest => some ('"', rest)
  | '\\' :: rest => some ('\\', rest)
  | 'x' :: rest =>
    if rest.length < 2 then none else (codeChar? (rest.take 2)).map fun c => (c, rest.drop 2)
  | 'u' :: rest =>
    if rest.length < 4 then none else (codeChar? (rest.take 4)).map fun c => (c, rest.drop 4)
  | 'U' :: rest =>
    if rest.length < 8 then none else (codeChar? (rest.take 8)).map fun c => (c, rest.drop 8)
  | _ => none

/-- Reads up to a double quote; `done` holds what was read, last first. -/
def readBasic : Nat → List Char → List Char → Option (String × List Char)
  | 0, _, _ => none
  | fuel + 1, done, cs =>
    match cs with
    | '"' :: rest => some (String.ofList done.reverse, rest)
    | '\\' :: rest =>
      match readEscape rest with
      | some (c, rest) => readBasic fuel (c :: done) rest
      | none => none
    | c :: rest => if isForbidden c then none else readBasic fuel (c :: done) rest
    | [] => none

/-- Reads up to a single quote. -/
def readLiteral (done : List Char) : List Char → Option (String × List Char)
  | '\'' :: rest => some (String.ofList done.reverse, rest)
  | c :: rest => if isForbidden c then none else readLiteral (c :: done) rest
  | [] => none

/-- What follows a backslash that ends its line: the next character that is not blank. -/
def afterLineEnd? (cs : List Char) : Option (List Char) :=
  let isGap (c : Char) : Bool := isBlank c || c == '\n' || c == '\r'
  match skipBlanks cs with
  | '\n' :: rest | '\r' :: '\n' :: rest => some (rest.dropWhile isGap)
  | _ => none

/-- Reads up to three double quotes; up to two more before them belong to the string. -/
def readBasicLines : Nat → List Char → List Char → Option (String × List Char)
  | 0, _, _ => none
  | fuel + 1, done, cs =>
    match cs with
    | '"' :: '"' :: '"' :: '"' :: '"' :: rest =>
      some (String.ofList ('"' :: '"' :: done).reverse, rest)
    | '"' :: '"' :: '"' :: '"' :: rest => some (String.ofList ('"' :: done).reverse, rest)
    | '"' :: '"' :: '"' :: rest => some (String.ofList done.reverse, rest)
    | '\\' :: rest =>
      match afterLineEnd? rest with
      | some rest => readBasicLines fuel done rest
      | none =>
        match readEscape rest with
        | some (c, rest) => readBasicLines fuel (c :: done) rest
        | none => none
    | '\n' :: rest | '\r' :: '\n' :: rest => readBasicLines fuel ('\n' :: done) rest
    | c :: rest => if isForbidden c then none else readBasicLines fuel (c :: done) rest
    | [] => none

/-- Reads up to three single quotes; up to two more before them belong to the string. -/
def readLiteralLines (done : List Char) : List Char → Option (String × List Char)
  | '\'' :: '\'' :: '\'' :: '\'' :: '\'' :: rest =>
    some (String.ofList ('\'' :: '\'' :: done).reverse, rest)
  | '\'' :: '\'' :: '\'' :: '\'' :: rest => some (String.ofList ('\'' :: done).reverse, rest)
  | '\'' :: '\'' :: '\'' :: rest => some (String.ofList done.reverse, rest)
  | '\n' :: rest | '\r' :: '\n' :: rest => readLiteralLines ('\n' :: done) rest
  | c :: rest => if isForbidden c then none else readLiteralLines (c :: done) rest
  | [] => none

/-- The text behind the line break that may follow three quotes. -/
def dropFirstBreak : List Char → List Char
  | '\n' :: rest | '\r' :: '\n' :: rest => rest
  | cs => cs

/-! ## Keys -/

def isBareKey (c : Char) : Bool := c.isAlphanum || c == '-' || c == '_'

/-- Reads one part of a key. -/
def readKeyPart (cs : List Char) : Option (String × List Char) :=
  match cs with
  | '"' :: rest => readBasic (rest.length + 1) [] rest
  | '\'' :: rest => readLiteral [] rest
  | cs =>
    match cs.takeWhile isBareKey with
    | [] => none
    | part => some (String.ofList part, cs.dropWhile isBareKey)

/-- Reads the parts of a key, at most `room` of them, and the blanks behind them. -/
def readKeyParts : Nat → List Char → Option (List String × List Char)
  | 0, _ => none
  | room + 1, cs =>
    match readKeyPart (skipBlanks cs) with
    | none => none
    | some (part, rest) =>
      match skipBlanks rest with
      | '.' :: rest => (readKeyParts room rest).map fun k => (part :: k.1, k.2)
      | rest => some ([part], rest)

/-- How many parts a key may have, and how many brackets and braces may be open. -/
def depthLimit : Nat := 80

def readKey (cs : List Char) : Option (List String × List Char) := readKeyParts depthLimit cs

/-! ## Values -/

def endsScalar (c : Char) : Bool :=
  c == ' ' || c == '\t' || c == '\n' || c == '\r' || c == ',' || c == ']' || c == '\x7d' || c == '#'

/-- Reads a value without quotes. A blank may stand between a date and a time of day. -/
def readScalar (cs : List Char) : Option (Toml × List Char) :=
  let first := cs.takeWhile (!endsScalar ·)
  let rest := cs.dropWhile (!endsScalar ·)
  let (written, rest) : List Char × List Char := match afterDate? first, rest with
    | some [], ' ' :: c :: more =>
      if c.isDigit then
        (first ++ ' ' :: (c :: more).takeWhile (!endsScalar ·),
          (c :: more).dropWhile (!endsScalar ·))
      else (first, rest)
    | _, _ => (first, rest)
  (scalar? written).map fun t => (t, rest)

mutual
/-- Reads a value. `fuel` bounds the steps by the length of the text, `room` the nesting. -/
def readValue : Nat → Nat → List Char → Option (Toml × List Char)
  | 0, _, _ => none
  | fuel + 1, room, cs =>
    match cs with
    | '"' :: '"' :: '"' :: rest =>
      (readBasicLines (rest.length + 1) [] (dropFirstBreak rest)).map fun s => (string s.1, s.2)
    | '\'' :: '\'' :: '\'' :: rest =>
      (readLiteralLines [] (dropFirstBreak rest)).map fun s => (string s.1, s.2)
    | '"' :: rest => (readBasic (rest.length + 1) [] rest).map fun s => (string s.1, s.2)
    | '\'' :: rest => (readLiteral [] rest).map fun s => (string s.1, s.2)
    | '[' :: rest =>
      match room with
      | 0 => none
      | room + 1 => readItems fuel room [] rest
    | '\x7b' :: rest =>
      match room with
      | 0 => none
      | room + 1 => readEntries fuel room [] rest
    | cs => readScalar cs

/-- Reads the items of an array; `done` holds those before, last first. -/
def readItems : Nat → Nat → List Toml → List Char → Option (Toml × List Char)
  | 0, _, _, _ => none
  | fuel + 1, room, done, cs =>
    match skipLines (fuel + 1) cs with
    | ']' :: rest => some (array done.reverse, rest)
    | cs =>
      match readValue fuel room cs with
      | none => none
      | some (t, rest) =>
        match skipLines (fuel + 1) rest with
        | ',' :: rest => readItems fuel room (t :: done) rest
        | ']' :: rest => some (array (t :: done).reverse, rest)
        | _ => none

/-- Reads the entries of a table between braces; `done` holds those before. -/
def readEntries : Nat → Nat → Entries → List Char → Option (Toml × List Char)
  | 0, _, _, _ => none
  | fuel + 1, room, done, cs =>
    match skipLines (fuel + 1) cs with
    | '\x7d' :: rest => some (table .closed done, rest)
    | cs =>
      match readKey cs with
      | none => none
      | some (key, rest) =>
        match skipLines (fuel + 1) rest with
        | '=' :: rest =>
          match readValue fuel room (skipLines (fuel + 1) rest) with
          | none => none
          | some (t, rest) =>
            match assign t key done with
            | none => none
            | some done =>
              match skipLines (fuel + 1) rest with
              | ',' :: rest => readEntries fuel room done rest
              | '\x7d' :: rest => some (table .closed done, rest)
              | _ => none
        | _ => none
end

/-! ## Documents -/

/-- The path of a heading, and what follows the brackets that end it. -/
def readHeading (closing cs : List Char) : Option (List String × List Char) :=
  match readKey cs with
  | some (path, rest) => (closing.isPrefixOf? rest).map fun rest => (path, rest)
  | none => none

/-- What was read so far: all entries, and the path of the table that assignments go to. -/
structure Document where
  entries : Entries := []
  path : List String := []

namespace Document

/-- Opens the table of a heading. -/
def head (d : Document) (isRepeated : Bool) (path : List String) : Option Document :=
  match path.getLast? with
  | none => none
  | some key =>
    let change := if isRepeated then openRepeated key else openTable key
    (within change path.dropLast d.entries).map fun entries => ⟨entries, path⟩

def assign (d : Document) (key : List String) (value : Toml) : Option Document :=
  (within (Toml.assign value key) d.path d.entries).map fun entries => { d with entries }

end Document

/-- Reads one expression, up to the end of its line. -/
def readExpression (d : Document) (cs : List Char) : Option (Document × List Char) :=
  match cs with
  | '[' :: '[' :: rest =>
    match readHeading "]]".toList rest with
    | some (path, rest) => (d.head true path).map fun d => (d, rest)
    | none => none
  | '[' :: rest =>
    match readHeading "]".toList rest with
    | some (path, rest) => (d.head false path).map fun d => (d, rest)
    | none => none
  | cs =>
    match readKey cs with
    | some (key, '=' :: rest) =>
      match readValue (rest.length + 1) depthLimit (skipBlanks rest) with
      | some (t, rest) => (d.assign key t).map fun d => (d, rest)
      | none => none
    | _ => none

/-- Reads expressions, one a line; `fuel` bounds their number. -/
def readExpressions : Nat → Document → List Char → Option Document
  | 0, _, _ => none
  | fuel + 1, d, cs =>
    match skipLines (fuel + 1) cs with
    | [] => some d
    | cs =>
      match readExpression d cs with
      | none => none
      | some (d, rest) =>
        match nextLine? rest with
        | some rest => readExpressions fuel d rest
        | none => none

/-- Reads a document; a byte order mark in front does not count. -/
def parse (text : String) : Option Entries :=
  let cs := match text.toList with
    | '\ufeff' :: rest => rest
    | cs => cs
  (readExpressions (cs.length + 1) {} cs).map (·.entries)

end StorageAtlas.Toml
