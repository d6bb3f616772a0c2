import StorageAtlas.Node.Reader

/-!
# What goes to a node

All calls to a node get their ids from one counter of 64 bits, whichever exchange they belong to: an
exchange takes as many ids as it has calls when it is sent, and a later attempt takes new ones. A
`Wire` is that counter, with everything that was sent and heard so far.
-/

namespace StorageAtlas.Node

/-- The calls of an exchange with the ids that they get, the first of them given. -/
def Exchange.requests (e : Exchange) (first : UInt64) : List (UInt64 × Call) :=
  e.calls.zipIdx.map fun c => (first + UInt64.ofNat c.2, c.1)

/-- A reply to the exchange whose first call has the given id. -/
def Reply.to (first : UInt64) : Reply → Reply
  | .answered _ elapsed body => .answered first.toNat elapsed body
  | reply => reply

/-- What happens between a reader and its node. -/
inductive Event
  /-- An exchange is sent, with the id of its first call. -/
  | sent (first : UInt64) (e : Exchange)
  /-- What comes of an exchange that was sent. -/
  | heard (first : UInt64) (e : Exchange) (reply : Reply)

namespace Event

/-- The exchange that an event belongs to. -/
def exchange : Event → Exchange
  | sent _ e | heard _ e _ => e

/-- The requests that go out with an event. -/
def requests : Event → List (UInt64 × Call)
  | sent first e => e.requests first
  | heard .. => []

end Event

/-- The counter of ids, and what went over the wire so far. -/
structure Wire where
  /-- The id of the next call. -/
  nextId : UInt64 := 1
  log : List Event := []

namespace Wire

/-- Sends an exchange. -/
def send (w : Wire) (e : Exchange) : Wire :=
  ⟨w.nextId + UInt64.ofNat e.calls.length, w.log ++ [.sent w.nextId e]⟩

/-- Takes down what came of an exchange. -/
def hear (w : Wire) (first : UInt64) (e : Exchange) (reply : Reply) : Wire :=
  { w with log := w.log ++ [.heard first e reply] }

/-- All requests that were sent, in order. -/
def requests (w : Wire) : List (UInt64 × Call) := w.log.flatMap Event.requests

/-- Has exchanges replied to by a node, of which the wire knows all that it was asked before. -/
def answerer (node : Wire → Exchange → Reply) : Answerer Exchange (fun _ => Reply) Wire where
  answer w e :=
    let reply := (node w e).to w.nextId
    (reply, (w.send e).hear w.nextId e reply)
  pause w _ := w

end Wire

end StorageAtlas.Node
