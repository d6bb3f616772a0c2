import StorageAtlas.Config
import StorageAtlas.Json.Shape
import StorageAtlas.Toml.Parser

/-!
# Settings files

An endpoint, and the limits for resolving and reading, each of which has a default. Keys that are
not known do not count, and neither does what follows the last of the limits where they are given
as an array; but everywhere else a number that cannot be held is a fault.
-/

namespace StorageAtlas.CommandLine

open Json

/-- What a settings file says; what it leaves out has its default. -/
structure Settings where
  rpcUrl : Option String := none
  resolver : ResolverConfig := {}
  reader : ReaderConfig := {}
deriving DecidableEq

namespace Settings

def ofJson? (j : Json) : Option Settings := do
  match ← fields? ["rpc_url", "resolver", "reader"] j with
  | [url, resolver, reader] =>
    return ⟨← orDefault (asOption? asString?) none url,
      ← orDefault ResolverConfig.ofJson? {} resolver, ← orDefault ReaderConfig.ofJson? {} reader⟩
  | _ => none

/-- The items of an array that are looked at when it is read as the limits under a key. -/
def lookedAt (key : String) (t : Toml) : Toml :=
  match t with
  | .array items =>
    if key = "resolver" then .array (items.take ResolverConfig.fieldNames.length)
    else if key = "reader" then .array (items.take ReaderConfig.fieldNames.length)
    else t
  | _ => t

/-- Reads the text of a settings file. -/
def parse (text : String) : Option Settings :=
  match Toml.parse text with
  | none => none
  | some entries =>
    let entries := entries.map fun e => (e.1, lookedAt e.1 e.2)
    if Toml.areHeldEntries entries then ofJson? (.object (Toml.entriesToJson entries)) else none

end Settings

end StorageAtlas.CommandLine
