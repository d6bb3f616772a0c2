import StorageAtlas.Fetch.Job
import StorageAtlas.Store

/-!
# Which reads to make

Every record that waits for a value is read, except those with more slots than the limit allows. A
struct or static array is read once: a record within its slots, whose path goes on from its own, is
settled with the same words.
-/

namespace StorageAtlas

/-- Whether a record waits for a value. Mappings have none of their own. -/
def SlotRecord.isReadable (r : SlotRecord) : Bool :=
  r.status.isResolved && r.raw.isNone && !(r.type.stored matches .mapping _ _)

/-- How many slots are read for a record. -/
def SlotRecord.slotsToRead (r : SlotRecord) : Nat := Word.clamp64 r.type.footprint.slotCount

/-- The most slots read for one record. -/
def ReaderConfig.slotLimit (c : ReaderConfig) : Nat := max (c.maxDynamicBytes / 32) 1

def SlotRecord.pending (r : SlotRecord) : Pending :=
  ⟨r.key, r.location, r.type, r.slotsToRead⟩

/-- The keys of the values that a record lies in by its path, outermost first. -/
def SlotRecord.ancestors (r : SlotRecord) : List RecordKey :=
  (List.range r.path.depth).map fun depth => ⟨r.contract, (r.path.truncated depth).text⟩

/-- Told of a record with more slots than are read. -/
def oversized (slots limit : Nat) : Status :=
  .incomplete (Text.decimal slots ++ " slots exceed the read limit of " ++ Text.decimal limit)

/-- The reads of one round. -/
structure ReadPlan where
  /-- Records that are too large to be read. -/
  oversized : List (RecordKey × Status)
  /-- How many records are to be settled. -/
  requested : Nat
  jobs : List Job

namespace ReadPlan

/-- The position of the outermost composite record that holds the words of a record. -/
def owner? (composites : List (RecordKey × Nat × Pending)) (r : SlotRecord) : Option Nat :=
  let p := r.pending
  r.ancestors.findSome? fun key =>
    ((composites.lookup key).filter fun c => c.2.contains p).map (·.1)

/-- Which records are handed to their owner. An owner that was handed on itself takes no more. -/
def handedOver (owners : List (Option Nat)) : Array Bool :=
  owners.foldl (fun taken owner =>
    taken.push (match owner with
      | none => false
      | some o => !(taken.getD o false))) #[]

/-- The reads for the records that wait and are small enough. -/
def jobsFor (records : List SlotRecord) : List Job :=
  let pending := (records.map (·.pending)).zipIdx
  let composites := (pending.filter fun p => p.1.type.isComposite).map fun p => (p.1.key, p.2, p.1)
  let owners := records.map (owner? composites)
  let taken := handedOver owners
  let covered := (pending.zip owners).filter fun p => taken.getD p.1.2 false
  (pending.filter fun p => !(taken.getD p.2 false)).map fun p =>
    ⟨p.1, (covered.filter fun c => c.2 == some p.2).map (·.1.1)⟩

/-- The reads of one round over a store. -/
def of (config : ReaderConfig) (s : LayoutStore) : ReadPlan :=
  let limit := config.slotLimit
  let waiting := s.records.filter (·.isReadable)
  let (small, large) := waiting.partition fun r => r.slotsToRead ≤ limit
  ⟨large.map fun r => (r.key, StorageAtlas.oversized r.slotsToRead limit), small.length,
    jobsFor small⟩

end ReadPlan

end StorageAtlas
