import StorageAtlas.Fetch.Reading

/-!
# Words at hand

A snapshot holds the words of storage that are not zero. A rehearsal answers reads from a snapshot,
and delays and fails them as it is told, on a clock that only pauses move.
-/

namespace StorageAtlas

/-- Words by address and slot; all others are zero. -/
structure Snapshot where
  words : List ((Address × Word) × Word) := []

namespace Snapshot

/-- Sets a word, in place of the one that was set before. -/
def set (s : Snapshot) (address : Address) (slot word : Word) : Snapshot :=
  if s.words.any (·.1 == (address, slot)) then
    ⟨s.words.map fun w => if w.1 == (address, slot) then (w.1, word) else w⟩
  else ⟨s.words ++ [((address, slot), word)]⟩

def word (s : Snapshot) (address : Address) (slot : Word) : Word :=
  (s.words.lookup (address, slot)).getD 0

/-- How many words were set. -/
def size (s : Snapshot) : Nat := s.words.length

/-- Answers every read at once. -/
def answerer : Answerer ReadRequest (fun _ => ReadReply) Snapshot where
  answer s q := (some (.ok (q.slots.map (s.word q.address))), s)
  pause s _ := s

end Snapshot

/-- Something that befalls the next `times` reads of a slot. -/
structure Mishap (α : Type) where
  slot : Word
  times : Nat
  what : α

/-- Takes the first mishap that is left for a slot. -/
def takeMishap {α : Type} (slot : Word) : List (Mishap α) → Option α × List (Mishap α)
  | [] => (none, [])
  | m :: rest =>
    if m.slot = slot ∧ 0 < m.times then (some m.what, { m with times := m.times - 1 } :: rest)
    else
      let (found, rest) := takeMishap slot rest
      (found, m :: rest)

/-- A snapshot with what befalls its reads, and what was asked of it. -/
structure Rehearsal where
  snapshot : Snapshot
  /-- Milliseconds that the reading of a slot takes. -/
  delays : List (Mishap Nat) := []
  faults : List (Mishap Error) := []
  /-- Words given at most for one read. -/
  most : Option Nat := none
  /-- Milliseconds passed. -/
  clock : Nat := 0
  /-- The slots of each read, first to last. -/
  log : List (List Word) := []

namespace Rehearsal

/-- Reads slots one after the other until `deadline`. -/
def readUntil (r : Rehearsal) (deadline : Nat) (address : Address) :
    List Word → ReadReply × Rehearsal
  | [] => (some (.ok []), r)
  | slot :: rest =>
    let (delay, delays) := takeMishap slot r.delays
    let clock := r.clock + delay.getD 0
    if deadline < clock then (none, { r with delays, clock := deadline })
    else
      let (fault, faults) := takeMishap slot r.faults
      let r := { r with delays, clock, faults }
      match fault with
      | some e => (some (.error e), r)
      | none =>
        match r.readUntil deadline address rest with
        | (some (.ok words), after) => (some (.ok (r.snapshot.word address slot :: words)), after)
        | other => other

/-- Answers a read as told. -/
def answer (r : Rehearsal) (q : ReadRequest) : ReadReply × Rehearsal :=
  let r := { r with log := r.log ++ [q.slots] }
  match r.readUntil (r.clock + q.limitMs) q.address q.slots, r.most with
  | (some (.ok words), r), some most => (some (.ok (words.take most)), r)
  | other, _ => other

def answerer : Answerer ReadRequest (fun _ => ReadReply) Rehearsal where
  answer := answer
  pause r ms := { r with clock := r.clock + ms }

end Rehearsal

end StorageAtlas
