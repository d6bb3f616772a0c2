import StorageAtlas.Layout
import StorageAtlas.Loop

/-!
# Adding the records of a value

The records of a value are added by a loop, not by the recursion that a `Listing` is: values that
are still to be recorded lie on a stack, each makes way for its parts when its own record has been
added, and the store and what is left of the budget are carried along. A record that is refused
ends the loop at once.
-/

namespace StorageAtlas

/-- What the loop carries along. -/
structure Emission where
  /-- The values still to be recorded, the next one on top. -/
  work : List Node
  /-- Elements of static arrays that may still be spelled out. -/
  budget : Nat
  store : LayoutStore

namespace Emission

/-- Takes the topmost value, adds its record, and puts its parts on the stack unless they lie too
deep. -/
def turn (structs : StructTable) (config : ResolverConfig) (contract declaredIn : String)
    (s : Emission) : Option (Except Error Emission) :=
  match s.work with
  | [] => none
  | n :: rest =>
    match materialize structs n.type with
    | .error e => some (.error e)
    | .ok t =>
      let n := { n with type := t }
      let parts := n.parts config.maxArrayElements s.budget
      let isCut := !parts.nodes.isEmpty && config.maxDepth ≤ n.path.depth
      let status := if isCut then
          .incomplete (Error.depthExceeded (n.path.depth + 1) config.maxDepth).message
        else parts.status
      match s.store.insert (n.record contract declaredIn status) with
      | .error e => some (.error e)
      | .ok (store, _) =>
        some (.ok ⟨pushAll (if isCut then [] else parts.nodes) rest, parts.budget, store⟩)

end Emission

/-- What adding the records of a value to a store comes to. -/
def Resolver.Emits (r : Resolver) (contract declaredIn : String) (store : LayoutStore) (n : Node)
    (result : Except Error LayoutStore) : Prop :=
  ∃ ended, Ends (Emission.turn r.model.structs r.config contract declaredIn)
    ⟨[n], r.config.maxArrayElements, store⟩ ended ∧ ended.map (·.store) = result

end StorageAtlas
