import StorageAtlas.Fetch
import StorageAtlas.Node.Message
import StorageAtlas.Url.Parser

/-!
# Reading from a node

Words are read at one block, many of them in batches. An exchange sends calls together; who carries
it out gives the calls consecutive ids that no other calls have. A fetch looks up the head first if
no block is given, so that all its words are of one state.

Where the node is to be found is shown in messages (`endpointOf`). Requests go to a host by one of
two schemes, and who asks is told to the host and not shown.
-/

namespace StorageAtlas.Node

/-! ## Endpoints -/

section Endpoints

open Url

/-- A URL without its credentials. They are left where they cannot be told, as the name or a lone
password is no well-formed text. -/
def withoutCredentials (u : Url) : Url :=
  let isText (s : String) : Bool := (percentDecodeText? s.toList).isSome
  if isText u.user && (!u.user.isEmpty || u.password.any isText) then
    { u with user := "", password := none }
  else u

/-- Whether a request can be addressed to a URL: its host is made of characters that an address may
have, and it is not too long. -/
def isAddressable (u : Url) : Bool :=
  let hostText := (u.host.map Host.text).getD ""
  !(hostText.toList.any fun c => "\"`\x7b\x7d".toList.contains c) && u.text.utf8ByteSize ≤ 65534

/-- The endpoint that a text names, as it is shown. -/
def endpointOf (text : String) : Except NodeFault String :=
  match Url.parse text with
  | none => .error (.unusable none)
  | some u =>
    let u := withoutCredentials u
    if u.host.isSome && (u.scheme = "http" || u.scheme = "https") && isAddressable u then
      .ok u.text
    else .error (.unusable (some u.text))

end Endpoints

/-! ## Exchanges -/

/-- Calls that are sent together. -/
structure Exchange where
  calls : List Call
  /-- Whether they are sent as a list. -/
  isBatch : Bool
  /-- How long the answer may take. -/
  limitMs : Nat

/-- The message of an exchange whose first call has the id `first`. -/
def Exchange.body (e : Exchange) (first : Nat) : Json :=
  let calls := e.calls.zipIdx.map fun c => c.1.toJson (first + c.2)
  match e.isBatch, calls with
  | false, [call] => call
  | _, calls => .array calls

/-- What comes of an exchange. -/
inductive Reply
  /-- Nothing within the limit. -/
  | tooLate
  | unreachable
  /-- The id of the first call, how long the answer took, and its text. -/
  | answered (first elapsedMs : Nat) (body : String)

/-- A computation that talks to a node. -/
abbrev Talk (α : Type) := Dialogue Exchange (fun _ => Reply) α

/-- Calls in one batch at most. -/
def batchSize : Nat := 100

/-- Parts of a list, each of the size of a batch but the last. -/
def batches {α : Type} (xs : List α) : List (List α) :=
  if _h : xs = [] then [] else xs.take batchSize :: batches (xs.drop batchSize)
termination_by xs.length
decreasing_by
  have := List.length_pos_iff.2 _h
  simp only [List.length_drop, batchSize]
  omega

/-- A node, and the block at which it is read. -/
structure Reader where
  /-- The endpoint as it is shown, or why it is none. -/
  endpoint : Except NodeFault String
  block : BlockTag := .latest

namespace Reader

/-- The reader of the node at a URL. -/
def ofUrl (url : String) (block : BlockTag) : Reader := ⟨endpointOf url, block⟩

/-- What is got within a time limit; nothing if it takes longer. -/
abbrev Timed (α : Type) := Option (Except Error α)

/-- What a node said is not usable. -/
def timed {α : Type} : Except NodeFault α → Timed α
  | .ok a => some (.ok a)
  | .error fault => some (.error (.transport (.node fault)))

/-- Goes on with the answer to an exchange, given the endpoint, the id of its first call, how long
it took and its text. -/
def exchange {α : Type} (r : Reader) (e : Exchange)
    (next : String → Nat → Nat → String → Talk (Timed α)) : Talk (Timed α) :=
  match r.endpoint with
  | .error fault => .done (timed (.error fault))
  | .ok url => .ask e fun
    | .tooLate => .done none
    | .unreachable => .done (timed (.error (.unreachable url)))
    | .answered first elapsed body => next url first elapsed body

/-- Has a call answered by what `read` makes of its result. -/
def call {α : Type} (r : Reader) (c : Call) (limitMs : Nat)
    (read : Json → Except NodeFault α) : Talk (Timed α) :=
  r.exchange ⟨[c], false, limitMs⟩ fun url _ _ body =>
    .done <| match readSingle url body with
      | .error fault => timed (.error fault)
      | .ok result => timed (read result)

/-- The number of the head. -/
def blockNumber (r : Reader) (limitMs : Nat) : Talk (Timed Nat) :=
  r.call headCall limitMs readBlockNumber

/-- The word at one slot. -/
def word (r : Reader) (address : Address) (slot : Word) (limitMs : Nat) : Talk (Timed Word) :=
  r.call (wordCall r.block address slot) limitMs readWord

/-- The words of batches, in the time that is left. -/
def wordsOf (r : Reader) (address : Address) (limitMs : Nat) :
    List (List Word) → Talk (Timed (List Word))
  | [] => .done (some (.ok []))
  | slots :: rest =>
    r.exchange ⟨slots.map (wordCall r.block address), true, limitMs⟩
      fun url first elapsed body =>
        match readBatch url first slots.length body with
        | .error fault => .done (timed (.error fault))
        | .ok results =>
          match readWords results with
          | .error fault => .done (timed (.error fault))
          | .ok words => (r.wordsOf address (limitMs - elapsed) rest).map fun
            | some (.ok more) => some (.ok (words ++ more))
            | other => other

/-- The words at slots, all within one time limit. A single word is asked for alone. -/
def words (r : Reader) (request : ReadRequest) : Talk ReadReply :=
  match request.slots with
  | [slot] => (r.word request.address slot request.limitMs).map fun
    | some (.ok w) => some (.ok [w])
    | some (.error e) => some (.error e)
    | none => none
  | slots => r.wordsOf request.address request.limitMs (batches slots)

/-- Puts the number of the head in place of the latest block. -/
def pin (r : Reader) (config : ReaderConfig) : Talk (Except Error Reader) :=
  match r.block with
  | .number _ => .done (.ok r)
  | .latest =>
    let attempt : Talk (Except Error Nat) := (r.blockNumber config.timeoutMs).map fun
      | some result => result
      | none => .error (.transport (.blockTimeout config.timeoutMs))
    (withRetries config.backoffLimitMs attempt config.retries config.initialBackoffMs).map fun
      | .error e => .error e
      | .ok n => .ok { r with block := .number (UInt64.ofNat n) }

end Reader

/-- Fetches the values of a layout from the node that the context names. How the jobs of a round
are run is left open. -/
def fetchWith (run : {α : Type} → Rounds α → Reading α) (config : ReaderConfig)
    (context : ChainContext) (s : LayoutStore) : Talk Fetch.Result :=
  if context.storageAddress.isSome && s.isEmpty then .done (s, .error .proxyWithoutLayout)
  else match context.rpcUrl with
    | none => .done (s, .error .missingEndpoint)
    | some url =>
      ((Reader.ofUrl url context.block).pin config).bind fun
        | .error e => .done (s, .error e)
        | .ok r => (run (Fetch.values config { context with block := r.block } s)).through r.words

/-- Fetches with one job after the other. -/
def fetch (config : ReaderConfig) (context : ChainContext) (s : LayoutStore) :
    Talk Fetch.Result := fetchWith Fetch.oneByOne config context s

end StorageAtlas.Node
