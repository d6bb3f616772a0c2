import StorageAtlas.Chain
import StorageAtlas.Error
import StorageAtlas.Json.Parser

/-!
# Messages to and from a node

Calls get consecutive ids, and are sent alone or as a batch. A batch may be answered in any order:
its responses are sorted by id, and have to be those of its calls, each once. A word is the number
that its digits denote, however many of them are written.
-/

namespace StorageAtlas.Node

open Json Text

/-- A method with its parameters. -/
structure Call where
  method : String
  params : List Json

/-- The current head. -/
def headCall : Call := ⟨"eth_blockNumber", []⟩

/-- The word at a slot. -/
def wordCall (block : BlockTag) (address : Address) (slot : Word) : Call :=
  ⟨"eth_getStorageAt",
    [.string (Address.hexText address), .string (Word.hexText slot), .string block.parameter]⟩

/-- A call as it is sent. -/
def Call.toJson (id : Nat) (c : Call) : Json :=
  .object [("jsonrpc", .string "2.0"), ("method", .string c.method), ("params", .array c.params),
    ("id", .nat id)]

/-- What a node says to one call. -/
structure Response where
  id : Option Nat
  result : Option Json
  error : Option (Int × String)

def asCode? : Json → Option Int
  | .integer n => if Int64.minValue.toInt ≤ n ∧ n ≤ Int64.maxValue.toInt then some n else none
  | _ => none

def refusalOfJson? (j : Json) : Option (Int × String) := do
  match ← fields? ["code", "message"] j with
  | [some code, some message] => return (← asCode? code, ← asString? message)
  | _ => none

/-- A result, which may have any shape. -/
def whole? (j : Json) : Option Json := if j.isSound then some j else none

/-- Reads a response; one that is given as an array has all three fields. -/
def Response.ofJson? (j : Json) : Option Response := do
  match ← undefaulted? ["id", "result", "error"] j with
  | [id, result, error] =>
    return ⟨← orDefault (asOption? asNat64?) none id, ← orDefault (asOption? whole?) none result,
      ← orDefault (asOption? refusalOfJson?) none error⟩
  | _ => none

/-- The result that a response carries. -/
def Response.outcome (r : Response) : Except NodeFault Json :=
  match r.error, r.result with
  | some (code, message), _ => .error (.refused code message)
  | none, some result => .ok result
  | none, none => .error .neitherResultNorError

/-- The result of a call that was sent alone. -/
def readSingle (url body : String) : Except NodeFault Json :=
  match (Json.parse body).bind Response.ofJson? with
  | none => .error (.undecodable url)
  | some r => r.outcome

/-- The results of responses whose ids have to count up from `id`. -/
def outcomesFrom (id : Nat) : List Response → Except NodeFault (List Json)
  | [] => .ok []
  | r :: rest =>
    if r.id = some id then
      match r.outcome with
      | .error fault => .error fault
      | .ok result =>
        match outcomesFrom (id + 1) rest with
        | .error fault => .error fault
        | .ok results => .ok (result :: results)
    else .error (.unexpectedId r.id)

/-- The id by which a response is sorted; those without one come last. -/
def Response.sortKey (r : Response) : Nat := r.id.getD (UInt64.size - 1)

/-- The results of a batch of `count` calls with ids from `first` on, in the order of the calls. -/
def batchOutcomes (first count : Nat) (responses : List Response) : Except NodeFault (List Json) :=
  if responses.length = count then
    outcomesFrom first (responses.mergeSort fun a b => a.sortKey ≤ b.sortKey)
  else .error (.wrongBatchSize count responses.length)

def readBatch (url : String) (first count : Nat) (body : String) :
    Except NodeFault (List Json) :=
  match (Json.parse body).bind (asList? Response.ofJson?) with
  | none => .error (.undecodable url)
  | some responses => batchOutcomes first count responses

/-- The text behind any number of marks. -/
def dropHexMarks : List Char → List Char
  | '0' :: 'x' :: cs => dropHexMarks cs
  | cs => cs

/-- The block number that a result tells. -/
def readBlockNumber (result : Json) : Except NodeFault Nat :=
  match result with
  | .string s =>
    match readInteger 16 UInt64.size (dropHexMarks s.toList) with
    | .ok n => .ok n
    | .error fault => .error (.invalidBlock s fault)
  | other => .error (.blockNotString other.sorted.compact)

/-- The digits of a word, an even number of them. -/
def wordDigits (s : String) : List Char :=
  let digits := dropHexMark s.toList
  if (utf8 digits).length % 2 = 1 then '0' :: digits else digits

/-- The word that a result tells. -/
def readWord (result : Json) : Except NodeFault Word :=
  match result with
  | .string s =>
    match readHex (wordDigits s) with
    | .error fault => .error (.wordNotHex s fault)
    | .ok bs => if bs.length ≤ 32 then .ok (Word.ofBytes bs) else .error (.wordTooLong s)
  | other => .error (.wordNotString other.sorted.compact)

/-- The words that results tell, up to the first that tells none. -/
def readWords : List Json → Except NodeFault (List Word)
  | [] => .ok []
  | j :: rest =>
    match readWord j with
    | .error fault => .error fault
    | .ok w =>
      match readWords rest with
      | .error fault => .error fault
      | .ok ws => .ok (w :: ws)

end StorageAtlas.Node
