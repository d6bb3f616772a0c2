import StorageAtlas.Address
import StorageAtlas.Config
import StorageAtlas.Dialogue
import StorageAtlas.Error

/-!
# Reading words

A read asks for the words at some slots of one address, all at once. It is made again while it
fails or takes too long, and has to give as many words as were asked for. Before it is made again
there is a pause that doubles each time up to a longest one (`withRetries`).
-/

namespace StorageAtlas

/-- Makes an attempt, and up to `retries` further ones, the first of them after a pause of
`backoff` milliseconds. -/
def withRetries {Q : Type} {A : Q → Type} {α : Type} (longest : Nat)
    (attempt : Dialogue Q A (Except Error α)) :
    (retries backoff : Nat) → Dialogue Q A (Except Error α)
  | 0, _ => attempt
  | retries + 1, backoff =>
    attempt.bind fun
      | .ok a => .done (.ok a)
      | .error e =>
        if e.isTransient then
          .pause backoff (withRetries longest attempt retries (min (backoff * 2) longest))
        else .done (.error e)

/-- One attempt to read words. -/
structure ReadRequest where
  address : Address
  slots : List Word
  /-- How long the attempt may take. -/
  limitMs : Nat
deriving DecidableEq

/-- What an attempt gives; nothing where it took too long. -/
abbrev ReadReply := Option (Except Error (List Word))

/-- A computation that reads words. -/
abbrev Reading (α : Type) := Dialogue ReadRequest (fun _ => ReadReply) α

namespace Reading

/-- One attempt; too long a one has failed. -/
def attempt (config : ReaderConfig) (address : Address) (slots : List Word) :
    Reading (Except Error (List Word)) :=
  .ask ⟨address, slots, config.timeoutMs⟩ fun
    | some result => .done result
    | none => .done (.error (.transport (.readTimeout config.timeoutMs)))

/-- Refuses words of another number than was asked for. -/
def counted (slots : List Word) : Except Error (List Word) → Except Error (List Word)
  | .error e => .error e
  | .ok words =>
    if words.length = slots.length then .ok words
    else .error (.transport (.wrongCount slots.length words.length))

/-- Reads the words at the given slots. -/
def words (config : ReaderConfig) (address : Address) (slots : List Word) :
    Reading (Except Error (List Word)) :=
  (withRetries config.backoffLimitMs (attempt config address slots) config.retries
    config.initialBackoffMs).map (counted slots)

end Reading

end StorageAtlas
