import StorageAtlas.CommandLine.Run

/-!
# Files at hand

A folder of texts in which a run can take place: paths lead from the folder through its
subfolders, output is kept, and no node is within reach.
-/

namespace StorageAtlas.CommandLine

/-- Files by the names on the way to them. -/
structure Folder where
  files : List (List String × String) := []

namespace Folder

/-- Whether names lead to a folder: to this one, or on the way to a file. -/
def isFolder (f : Folder) (names : List String) : Bool :=
  names.isEmpty || f.files.any fun e => names.isPrefixOf e.1 && names != e.1

/-- Follows the names of a path; `here` are those passed so far. -/
def follow (f : Folder) (here : List String) : List String → Except FileFault (List String)
  | [] => .ok here
  | name :: rest =>
    if 255 < (Text.utf8 name.toList).length then .error .nameTooLong
    else if !f.isFolder here then
      if (f.files.lookup here).isSome then .error .notADirectory else .error .notFound
    else if name = "" ∨ name = "." then f.follow here rest
    else if name = ".." then
      match here with
      | [] => .error .notFound
      | _ => f.follow here.dropLast rest
    else f.follow (here ++ [name]) rest

/-- Where a path leads. Nothing but this folder can be reached. -/
def locate (f : Folder) (path : String) : Except FileFault (List String) :=
  if path.toList.any (·.toNat == 0) then .error .nulCharacter
  else match path.splitOn "/" with
  | "" :: _ => .error .notFound
  | names => f.follow [] names

def read (f : Folder) (path : String) : Except FileFault String :=
  match f.locate path with
  | .error fault => .error fault
  | .ok names =>
    match f.files.lookup names with
    | some text => .ok text
    | none => if f.isFolder names then .error .isADirectory else .error .notFound

def find (f : Folder) (path : String) : Bool :=
  match f.locate path with
  | .error _ => false
  | .ok names => (f.files.lookup names).isSome || f.isFolder names

/-- Writes a file whose folder is there. A path that ends in a slash is that of a folder. -/
def write (f : Folder) (path text : String) : Except FileFault Folder :=
  match f.locate (String.ofList (path.toList.reverse.dropWhile (· == '/')).reverse) with
  | .error fault => .error fault
  | .ok names =>
    if path.endsWith "/" || f.isFolder names then .error .isADirectory
    else if (f.files.lookup names).isSome then
      .ok ⟨f.files.map fun e => if e.1 = names then (names, text) else e⟩
    else .ok ⟨f.files ++ [(names, text)]⟩

end Folder

/-- A folder, and what was printed. -/
structure Desk where
  folder : Folder
  printed : List String := []

namespace Desk

/-- Answers one request. -/
def answer (d : Desk) : (r : Request) → r.Answer × Desk
  | .find path => (d.folder.find path, d)
  | .read path => (d.folder.read path, d)
  | .write path text =>
    match d.folder.write path text with
    | .ok folder => (.ok (), { d with folder })
    | .error fault => (.error fault, d)
  | .print line => ((), { d with printed := d.printed ++ [line] })
  | .exchange _ => (.unreachable, d)

def answerer : Answerer Request Request.Answer Desk where
  answer d r := d.answer r
  pause d _ := d

end Desk

end StorageAtlas.CommandLine
