import StorageAtlas.Error
import StorageAtlas.Text.Character

/-!
# Reading a path

A query is an identifier followed by `[literal]` and `.field` steps. A literal is kept as written,
without the white space around it and without a pair of double quotes that encloses it.
-/

namespace StorageAtlas

/-- The text between a pair of double quotes, or the text itself. -/
def unquoted (cs : List Char) : List Char :=
  match cs with
  | '"' :: rest => if rest.getLast? = some '"' then rest.dropLast else cs
  | _ => cs

/-- The step that the text between two brackets stands for. -/
def AccessStep.ofBracket (inside : List Char) : Except PathFault AccessStep :=
  match Text.trim inside with
  | [] => .error .emptyBrackets
  | literal => .ok (.key (String.ofList (unquoted literal)))

namespace VariablePath

def startsStep (c : Char) : Bool := c == '[' || c == '.'

/-- Reads the steps behind the base name of `query`. -/
def parseSteps (query : String) : List Char → Except PathFault (List AccessStep)
  | [] => .ok []
  | '[' :: after =>
    match _h : after.dropWhile (· != ']') with
    | [] => .error (.unclosedBracket query)
    | _ :: rest => do
      let step ← AccessStep.ofBracket (after.takeWhile (· != ']'))
      let steps ← parseSteps query rest
      .ok (step :: steps)
  | '.' :: after =>
    let name := Text.trim (after.takeWhile (!startsStep ·))
    if isIdentifier name then do
      let steps ← parseSteps query (after.dropWhile (!startsStep ·))
      .ok (.field (String.ofList name) :: steps)
    else .error (.invalidField query)
  | c :: rest => .error (.unexpectedInput (String.ofList (c :: rest)) query)
termination_by cs => cs.length
decreasing_by
  · have h := (List.dropWhile_sublist (l := after) (· != ']')).length_le
    simp_all only [List.length_cons]
    omega
  · have h := (List.dropWhile_sublist (l := after) (!startsStep ·)).length_le
    simp only [List.length_cons]
    omega

/-- Reads a path such as `positions[3].owner`. -/
def parse (query : String) : Except PathFault VariablePath :=
  let cs := Text.trim query.toList
  let query := String.ofList cs
  let base := Text.trim (cs.takeWhile (!startsStep ·))
  if isIdentifier base then do
    let steps ← parseSteps query (cs.dropWhile (!startsStep ·))
    .ok ⟨String.ofList base, steps⟩
  else .error (.invalidName query)

end VariablePath

end StorageAtlas
