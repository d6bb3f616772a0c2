import StorageAtlas.Chain
import StorageAtlas.Fetch.Expansion
import StorageAtlas.Fetch.Plan

/-!
# Fetching values

A round plans the reads for the records that wait, has them made, and applies what became of each
record to the store. Where arrays are spelled out a second round reads their elements. A fetch does
not say how the jobs of a round are run: it asks for their outcomes, which may come in any order.
`Fetch.oneByOne` runs them one after the other.
-/

namespace StorageAtlas

/-- Counts of what became of records. -/
structure FetchSummary where
  /-- Records a read was made for. -/
  requested : Nat := 0
  resolved : Nat := 0
  incomplete : Nat := 0
  unresolved : Nat := 0
  failed : Nat := 0
  wordsRead : Nat := 0
deriving DecidableEq, Repr

namespace FetchSummary

def add (a b : FetchSummary) : FetchSummary :=
  ⟨a.requested + b.requested, a.resolved + b.resolved, a.incomplete + b.incomplete,
    a.unresolved + b.unresolved, a.failed + b.failed, a.wordsRead + b.wordsRead⟩

/-- Counts one more record. -/
def count (a : FetchSummary) : Outcome → FetchSummary
  | .decoded _ _ words => { a with resolved := a.resolved + 1, wordsRead := a.wordsRead + words }
  | .incomplete _ _ words =>
    { a with incomplete := a.incomplete + 1, wordsRead := a.wordsRead + words }
  | .unresolved _ => { a with unresolved := a.unresolved + 1 }
  | .failed _ => { a with failed := a.failed + 1 }

end FetchSummary

/-- The jobs of a round, to be run side by side; what they give is told as they end. -/
abbrev Round := List (Reading (List Settled))

/-- A computation that has rounds of jobs run. -/
abbrev Rounds (α : Type) := Dialogue Round (fun _ => List (List Settled)) α

namespace LayoutStore

/-- Applies what became of one record. -/
def settle (s : LayoutStore) (key : RecordKey) : Outcome → Except Error LayoutStore
  | .decoded raw value _ => s.attachValue key raw value
  | .incomplete raw reason _ =>
    match s.attachValue key raw none with
    | .ok s => s.setStatus key (.incomplete reason)
    | .error e => .error e
  | .unresolved reason => s.setStatus key (.unresolved reason)
  | .failed reason => s.markFailed key reason

/-- Applies outcomes in order and counts them, up to the first key without a record. -/
def settleAll (s : LayoutStore) (summary : FetchSummary) :
    List Settled → LayoutStore × Except Error FetchSummary
  | [] => (s, .ok summary)
  | (key, o) :: rest =>
    match s.settle key o with
    | .ok s => s.settleAll (summary.count o) rest
    | .error e => (s, .error e)

end LayoutStore

namespace Fetch

/-- The store after a fetch, and the counts or what ended it. -/
abbrev Result := LayoutStore × Except Error FetchSummary

/-- Reads every record that waits. -/
def round (config : ReaderConfig) (address : Address) (s : LayoutStore) : Rounds Result :=
  let plan := ReadPlan.of config s
  match s.setStatuses plan.oversized with
  | .error e => .done (s, .error e)
  | .ok s => .ask (plan.jobs.map fun j => j.run config address) fun settled =>
    .done (s.settleAll
      { requested := plan.requested, incomplete := plan.oversized.length } settled.flatten)

/-- Adds the elements of arrays and reads them, if there are new ones. -/
def elements (config : ReaderConfig) (address : Address) (s : LayoutStore)
    (summary : FetchSummary) : Rounds Result :=
  match s.expandArrays config.maxExpandedElements with
  | (s, .error e) => .done (s, .error e)
  | (s, .ok 0) => .done (s, .ok summary)
  | (s, .ok _) => (round config address s).map fun
    | (s, .ok more) => (s, .ok (summary.add more))
    | (s, .error e) => (s, .error e)

/-- Reads the values of a layout, and of the elements of its arrays where they are wanted. -/
def values (config : ReaderConfig) (context : ChainContext) (s : LayoutStore) : Rounds Result :=
  if context.storageAddress.isSome && s.isEmpty then .done (s, .error .proxyWithoutLayout)
  else (round config context.storageTarget s).bind fun
    | (s, .error e) => .done (s, .error e)
    | (s, .ok summary) =>
      if config.expandDynamicArrays then elements config context.storageTarget s summary
      else .done (s, .ok summary)

/-- Runs the jobs of each round one after the other. -/
def oneByOne {α : Type} (fetch : Rounds α) : Reading α := fetch.through Dialogue.inOrder

end Fetch

end StorageAtlas
