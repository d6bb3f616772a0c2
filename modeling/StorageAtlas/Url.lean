import StorageAtlas.Url.Host

/-!
# URLs

The parts of a URL as they are shown: a scheme in lower case, who asks, the host and the port,
unless it is the one of the scheme, and the path, query and fragment with the characters encoded
that may not stand there. `Url.text` puts them together.
-/

namespace StorageAtlas

/-- The path of a URL. -/
inductive Url.Path
  /-- Names that each stand behind a slash. -/
  | names (names : List String)
  /-- A text without parts, which no host can stand before. -/
  | plain (text : String)
deriving DecidableEq, Repr

/-- The parts of a URL. -/
structure Url where
  scheme : String
  user : String := ""
  password : Option String := none
  host : Option Url.Host := none
  port : Option Nat := none
  path : Url.Path
  query : Option String := none
  fragment : Option String := none
deriving DecidableEq, Repr

namespace Url

def Path.text : Path → String
  | names ns => String.join (ns.map ("/" ++ ·))
  | plain text => text

/-- Who asks, before the host. -/
def credentials (u : Url) : String :=
  match u.password with
  | some p => u.user ++ ":" ++ p ++ "@"
  | none => if u.user.isEmpty then "" else u.user ++ "@"

/-- What stands between the scheme and the path. -/
def authority (u : Url) : String :=
  match u.host with
  | none => ""
  | some host =>
    let port := match u.port with
      | some n => ":" ++ Text.decimal n
      | none => ""
    "//" ++ u.credentials ++ host.text ++ port

/-- Keeps a path that starts with two slashes from being taken for a host. -/
def guard (u : Url) : String :=
  match u.host, u.path with
  | none, .names ("" :: _ :: _) => "/."
  | _, _ => ""

/-- A part behind its mark, if it is there. -/
def marked (mark : String) : Option String → String
  | some part => mark ++ part
  | none => ""

def text (u : Url) : String :=
  u.scheme ++ ":" ++ u.authority ++ u.guard ++ u.path.text ++ marked "?" u.query ++
    marked "#" u.fragment

end Url

end StorageAtlas
