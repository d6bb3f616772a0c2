import StorageAtlas.Text.Character
import StorageAtlas.Value

/-!
# Where values are read

The block the reads are pinned to, and the addresses. Behind a proxy the layout is that of the
target while the words are those of another address.
-/

namespace StorageAtlas

open Json Text

/-- The state that is read. -/
inductive BlockTag
  | latest
  | number (n : UInt64)
deriving DecidableEq, Repr

namespace BlockTag

/-- The display text. -/
def text : BlockTag → String
  | latest => "latest"
  | number n => decimal n.toNat

/-- The block as a node takes it. -/
def parameter : BlockTag → String
  | latest => "latest"
  | number n => "0x" ++ hexadecimal n.toNat

/-- Why a text is no block. -/
structure Fault where
  text : String
  cause : IntegerFault
deriving DecidableEq, Repr

/-- What is told of a text that is no block. -/
def Fault.message (f : Fault) : String := "Invalid block '" ++ f.text ++ "': " ++ f.cause.message

/-- Reads a block: `latest` in any case, or a number, in base sixteen behind `0x`. -/
def parse (s : String) : Except Fault BlockTag :=
  let cs := trim s.toList
  let number : Except IntegerFault Nat :=
    match cs with
    | '0' :: 'x' :: ds => readInteger 16 UInt64.size ds
    | ds => readInteger 10 UInt64.size ds
  if cs.map Char.toLower = "latest".toList then .ok latest
  else match number with
    | .ok n => .ok (.number (UInt64.ofNat n))
    | .error cause => .error ⟨String.ofList cs, cause⟩

def toJson : BlockTag → Json
  | latest => .string "latest"
  | number n => .object [("number", .nat n.toNat)]

def ofJson? (o : Origin) (j : Json) : Option BlockTag :=
  match j with
  | .object [("number", n)] => (asNat64? n).map fun n => number (UInt64.ofNat n)
  | _ => if variant? o j = some "latest" then some latest else none

end BlockTag

/-- What is read, where its words are, and at which block. -/
structure ChainContext where
  /-- The contract whose layout is read. -/
  address : Address
  /-- The address that holds the words, where it is another one. -/
  storageAddress : Option Address := none
  rpcUrl : Option String := none
  block : BlockTag := .latest
deriving DecidableEq

namespace ChainContext

/-- The address whose words are read. -/
def storageTarget (c : ChainContext) : Address := c.storageAddress.getD c.address

/-- Whether the words are those of another contract. -/
def isProxy (c : ChainContext) : Bool := c.storageAddress.any (· != c.address)

def toJson (c : ChainContext) : Json :=
  .object [("address", .string (Address.hexText c.address)),
    ("storage_address", option (fun a => .string (Address.hexText a)) c.storageAddress),
    ("rpc_url", optionalString c.rpcUrl), ("block", c.block.toJson)]

def ofJson? (o : Origin) (j : Json) : Option ChainContext := do
  match ← fields? ["address", "storage_address", "rpc_url", "block"] j with
  | [some address, storage, url, block] =>
    return ⟨← Value.asAddress? o address, ← orDefault (asOption? (Value.asAddress? o)) none storage,
      ← orDefault (asOption? asString?) none url, ← orDefault (BlockTag.ofJson? o) .latest block⟩
  | _ => none

end ChainContext

end StorageAtlas
