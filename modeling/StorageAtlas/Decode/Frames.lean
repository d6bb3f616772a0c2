import StorageAtlas.Decode
import StorageAtlas.Loop

/-!
# Decoding by frames

A composite is decoded by a loop over frames, not by the recursion that `decodeInPlace` is. A frame
enters a type at a slot, or leaves a composite, whose entries are then the last values decoded.
Slots are counted in 64 bits, from the first word on, and stop at the largest number.
-/

namespace StorageAtlas

/-- What is still to be done. -/
inductive Frame
  | enter (t : Ty) (slot offset : Nat)
  /-- Makes the last values the entries of a composite, under the names of its parts. -/
  | leave (names : List String)

/-- The parts that lie in place in a struct or static array, with their places. -/
def partsInPlace? (t : Ty) : Option (List PlacedMember) :=
  match t.stored with
  | .struct _ ms => some (placeMembers ms)
  | .fixedArray element length =>
    some ((List.range length.toNat).map fun i =>
      ⟨"[" ++ Text.decimal i ++ "]", element, elementLocation 0 element (Word.ofNat i)⟩)
  | _ => none

/-- The slot that lies `relative` slots behind another one, in 64 bits. -/
def slotBehind (slot : Nat) (relative : Word) : Nat :=
  min (slot + Word.clamp64 relative) (UInt64.size - 1)

/-- Enters a part of a composite at a slot. -/
def Frame.ofPart (slot : Nat) (p : PlacedMember) : Frame :=
  .enter p.type (slotBehind slot p.location.slot) p.location.offset.toNat

/-- What the loop carries along. -/
structure Decoding where
  frames : List Frame
  /-- The values decoded and not yet part of another one, in order. -/
  values : List (Option Value) := []

namespace Decoding

/-- Does what the topmost frame says. -/
def turn (words : List Word) (s : Decoding) : Option (Except Error Decoding) :=
  match s.frames with
  | [] => none
  | .enter t slot offset :: rest =>
    match partsInPlace? t with
    | some parts =>
      let leave := Frame.leave (parts.map (·.name))
      some (.ok ⟨pushAll (parts.map (Frame.ofPart slot)) (leave :: rest), s.values⟩)
    | none =>
      match decodePart t words slot offset with
      | .error e => some (.error e)
      | .ok v => some (.ok ⟨rest, s.values ++ [v]⟩)
  | .leave names :: rest =>
    let split := s.values.length - names.length
    let entries := names.zip (s.values.drop split)
    some (.ok ⟨rest, s.values.take split ++ [some (.composite entries)]⟩)

/-- The value that is left in the end. -/
def result (t : Ty) (s : Decoding) : Except Error Value :=
  match s.values.getLast?.join with
  | some v => .ok v
  | none => .error (.unresolvedType (.noMembers t))

end Decoding

/-- What decoding a struct or static array from its words comes to. -/
def DecodesTo (t : Ty) (words : List Word) (result : Except Error Value) : Prop :=
  ∃ ended, Ends (Decoding.turn words) ⟨[.enter t 0 0], []⟩ ended ∧ ended.bind (·.result t) = result

end StorageAtlas
