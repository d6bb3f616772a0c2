import StorageAtlas.Word

/-!
# Access paths

A path names one logical value: a state variable and the steps taken into it. An index is a
number; a key is the literal as it stood between brackets, which the container it lands on reads
as an index or as a mapping key.
-/

namespace StorageAtlas

/-- One step into a container. -/
inductive AccessStep
  | index (i : Word)
  | key (literal : String)
  | field (name : String)
deriving DecidableEq, Repr

namespace AccessStep

def text : AccessStep → String
  | index i => "[" ++ Word.text i ++ "]"
  | key literal => "[" ++ literal ++ "]"
  | field name => "." ++ name

end AccessStep

/-- A base variable and the steps applied to it, first to last. -/
structure VariablePath where
  base : String
  steps : List AccessStep := []
deriving DecidableEq, Repr

namespace VariablePath

/-- The path one step further. -/
def child (p : VariablePath) (s : AccessStep) : VariablePath := { p with steps := p.steps ++ [s] }

def depth (p : VariablePath) : Nat := p.steps.length

/-- The path cut down to its first `most` steps. -/
def truncated (p : VariablePath) (most : Nat) : VariablePath :=
  { p with steps := p.steps.take most }

/-- The path as it is written in a query. -/
def text (p : VariablePath) : String := p.steps.foldl (fun acc s => acc ++ s.text) p.base

end VariablePath

/-- Names that may start a path or follow a dot. -/
def isIdentifier (cs : List Char) : Bool :=
  let start (c : Char) : Bool := c.isAlpha || c == '_' || c == '$'
  match cs with
  | [] => false
  | c :: rest => start c && rest.all fun c => start c || c.isDigit

end StorageAtlas
