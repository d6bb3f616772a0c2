import Mathlib.Data.List.Basic
import StorageAtlas.Proofs.Agreement
import StorageAtlas.Store

/-!
# A store with an index

The same store with the position of each record in a hash table, so that no key is searched for.
Every operation answers with the store it leaves behind, also where it fails. `indexed` says that
the table and the records are in step, and since it is part of the type, no operation can leave
them out of step; that the answers are those of the plain store is proved operation by operation.
-/

namespace StorageAtlas

deriving instance Hashable for RecordKey

/-- Under distinct keys, a key finds exactly the record that has it. -/
theorem LayoutStore.find?_eq_some_iff {s : LayoutStore} (hs : (s.records.map (·.key)).Nodup)
    {key : RecordKey} {r : SlotRecord} : s.find? key = some r ↔ r ∈ s.records ∧ r.key = key := by
  constructor
  · intro h
    exact ⟨List.mem_of_find?_eq_some h, by simpa using List.find?_some h⟩
  · rintro ⟨hr, rfl⟩
    exact find?_of_nodup hs hr

/-- Records in the order in which they were added, and where each is found under its key. -/
structure IndexedStore where
  records : List SlotRecord
  index : Std.HashMap RecordKey Nat
  /-- The table has exactly the positions of the records under their keys. -/
  indexed : ∀ (key : RecordKey) (i : Nat),
    index[key]? = some i ↔ ∃ r : SlotRecord, records[i]? = some r ∧ r.key = key

namespace IndexedStore

def empty : IndexedStore := ⟨[], {}, by simp⟩

variable {s : IndexedStore} {key : RecordKey}

/-- The store without its table. -/
def plain (s : IndexedStore) : LayoutStore := ⟨s.records⟩

/-- A position of the table is one of a record. -/
theorem lt_length {i : Nat} (h : s.index[key]? = some i) : i < s.records.length := by
  obtain ⟨r, hr, -⟩ := (s.indexed key i).1 h
  exact (List.getElem?_eq_some_iff.1 hr).1

theorem keys_nodup (s : IndexedStore) : (s.records.map (·.key)).Nodup := by
  refine List.pairwise_iff_getElem.2 fun i j hi hj hlt heq => ?_
  simp only [List.getElem_map, List.length_map] at hi hj heq
  have hat (k : Nat) (hk : k < s.records.length) : s.index[s.records[k].key]? = some k :=
    (s.indexed _ k).2 ⟨_, List.getElem?_eq_getElem hk, rfl⟩
  have hsame := (hat i hi).symm.trans (heq ▸ hat j hj)
  exact absurd (Option.some.inj hsame) (Nat.ne_of_lt hlt)

/-! ## Operations -/

/-- The record that the table points to. -/
def recordAt (s : IndexedStore) {i : Nat} (h : s.index[key]? = some i) : SlotRecord :=
  s.records.get ⟨i, lt_length h⟩

def get? (s : IndexedStore) (key : RecordKey) : Option SlotRecord :=
  match h : s.index[key]? with
  | some _ => some (s.recordAt h)
  | none => none

/-- Puts a record with a new key behind the others. -/
def push (s : IndexedStore) (r : SlotRecord) (h : s.index[r.key]? = none) : IndexedStore where
  records := s.records ++ [r]
  index := s.index.insert r.key s.records.length
  indexed key i := by
    rw [Std.HashMap.getElem?_insert]
    rcases Nat.lt_trichotomy i s.records.length with hi | rfl | hi
    · rw [List.getElem?_append_left hi, ← s.indexed]
      by_cases hkey : r.key = key
      · subst hkey
        simp [h, Nat.ne_of_gt hi]
      · simp [hkey]
    · by_cases hkey : r.key = key
      · simp [hkey]
      · have hout : s.index[key]? ≠ some s.records.length := fun hin =>
          Nat.lt_irrefl _ (lt_length hin)
        simp [hkey, hout]
    · have hout : s.index[key]? ≠ some i := fun hin =>
        Nat.lt_asymm hi (lt_length hin)
      have hnone : (s.records ++ [r])[i]? = none :=
        List.getElem?_eq_none (by simpa using Nat.succ_le_of_lt hi)
      by_cases hkey : r.key = key <;> simp [hkey, hout, hnone, Nat.ne_of_lt hi]

/-- Changes the record at a position, but not its key. -/
def change (s : IndexedStore) (i : Nat) (f : SlotRecord → SlotRecord)
    (hf : ∀ r, (f r).key = r.key) : IndexedStore where
  records := s.records.modify i f
  index := s.index
  indexed key j := by
    rw [s.indexed, List.getElem?_modify]
    by_cases hij : i = j
    · simp [hij, hf]
    · simp [hij]

def insert (s : IndexedStore) (r : SlotRecord) : IndexedStore × Except Error Bool :=
  match h : s.index[r.key]? with
  | some _ =>
    let stored := s.recordAt h
    if stored.samePlacement r then (s, .ok false)
    else (s, .error (LayoutStore.otherPlacement stored r))
  | none => (s.push r h, .ok true)

/-- Adds records in order up to the first that is refused. -/
def insertAll (s : IndexedStore) : List SlotRecord → IndexedStore × Option Error
  | [] => (s, none)
  | r :: rest =>
    match s.insert r with
    | (s, .ok _) => s.insertAll rest
    | (s, .error e) => (s, some e)

/-- Changes the record under a key, but not its key. -/
def modify (s : IndexedStore) (key : RecordKey) (f : SlotRecord → SlotRecord)
    (hf : ∀ r, (f r).key = r.key) : IndexedStore × Option Error :=
  match s.index[key]? with
  | some i => (s.change i f hf, none)
  | none => (s, some (.invalidPath (.noRecord key.text)))

def attachValue (s : IndexedStore) (key : RecordKey) (raw : Bytes) (value : Option Value) :
    IndexedStore × Option Error :=
  s.modify key (fun r => { r with raw := some raw, value }) fun _ => rfl

def setStatus (s : IndexedStore) (key : RecordKey) (status : Status) :
    IndexedStore × Option Error :=
  s.modify key (fun r => { r with status }) fun _ => rfl

def markFailed (s : IndexedStore) (key : RecordKey) (reason : String) :
    IndexedStore × Option Error :=
  s.modify key (fun r => { r with raw := none, value := none, status := .readFailed reason })
    fun _ => rfl

/-! ## The same answers -/

theorem mem_index {r : SlotRecord} :
    (r ∈ s.records ∧ r.key = key) ↔ ∃ i, s.index[key]? = some i ∧ s.records[i]? = some r := by
  constructor
  · rintro ⟨hr, rfl⟩
    obtain ⟨i, hi⟩ := List.mem_iff_getElem?.1 hr
    exact ⟨i, (s.indexed _ i).2 ⟨r, hi, rfl⟩, hi⟩
  · rintro ⟨i, hindex, hi⟩
    obtain ⟨q, hq, hkey⟩ := (s.indexed key i).1 hindex
    obtain rfl := Option.some.inj (hi.symm.trans hq)
    exact ⟨List.mem_of_getElem? hi, hkey⟩

/-- **The table finds what a search finds.** -/
theorem get?_eq (s : IndexedStore) (key : RecordKey) : s.get? key = s.plain.find? key := by
  refine Option.ext fun r => ?_
  rw [LayoutStore.find?_eq_some_iff s.keys_nodup, show s.plain.records = s.records from rfl,
    mem_index, get?]
  split
  · next i h =>
    have hat : s.records[i]? = some (s.recordAt h) := List.getElem?_eq_getElem (lt_length h)
    simp [h, hat]
  · next h => simp [h]

theorem find?_of_index_eq_none (h : s.index[key]? = none) : s.plain.find? key = none := by
  rw [← get?_eq, get?]
  split
  · next hsome => exact nomatch h.symm.trans hsome
  · rfl

theorem find?_of_index {i : Nat} (h : s.index[key]? = some i) :
    s.plain.find? key = some (s.recordAt h) := by
  rw [← get?_eq, get?]
  split
  · next j hj =>
    obtain rfl := Option.some.inj (h.symm.trans hj)
    rfl
  · next hnone => exact nomatch h.symm.trans hnone

theorem insert_new {r : SlotRecord} (h : s.index[r.key]? = none) :
    s.insert r = (s.push r h, .ok true) := by
  unfold insert
  split
  · next hsome => exact nomatch h.symm.trans hsome
  · rfl

theorem insert_taken {r : SlotRecord} {i : Nat} (h : s.index[r.key]? = some i) :
    s.insert r = (s, if (s.recordAt h).samePlacement r then .ok false
      else .error (LayoutStore.otherPlacement (s.recordAt h) r)) := by
  unfold insert
  split
  · next j hj =>
    obtain rfl := Option.some.inj (h.symm.trans hj)
    dsimp only
    split <;> rfl
  · next hnone => exact nomatch h.symm.trans hnone

/-- A record that is refused changes nothing. -/
theorem insert_error {r : SlotRecord} {e : Error} (h : (s.insert r).2 = .error e) :
    (s.insert r).1 = s := by
  rcases hindex : s.index[r.key]? with _ | i
  · rw [insert_new hindex] at h
    exact nomatch h
  · rw [insert_taken hindex]

theorem insert_eq (s : IndexedStore) (r : SlotRecord) :
    s.plain.insert r = (s.insert r).2.map fun new => ((s.insert r).1.plain, new) := by
  rcases hindex : s.index[r.key]? with _ | i
  · rw [insert_new hindex, LayoutStore.insert, find?_of_index_eq_none hindex]
    rfl
  · rw [insert_taken hindex, LayoutStore.insert, find?_of_index hindex]
    dsimp only
    split <;> rfl

theorem insertAll_eq (rs : List SlotRecord) (s : IndexedStore) :
    s.plain.insertAll rs = ((s.insertAll rs).1.plain, (s.insertAll rs).2) := by
  induction rs generalizing s with
  | nil => rfl
  | cons r rs ih =>
    rw [LayoutStore.insertAll, insertAll, insert_eq]
    rcases hinsert : s.insert r with ⟨s', e | new⟩
    · obtain rfl : s' = s := by
        have hleft := insert_error (congrArg Prod.snd hinsert)
        rwa [hinsert] at hleft
      rfl
    · exact ih s'

theorem modify_error {f : SlotRecord → SlotRecord} {hf : ∀ r, (f r).key = r.key} {e : Error}
    (h : (s.modify key f hf).2 = some e) : (s.modify key f hf).1 = s := by
  unfold modify at h ⊢
  split at h
  · exact nomatch h
  · rfl

theorem modify_eq (f : SlotRecord → SlotRecord) (hf : ∀ r, (f r).key = r.key) :
    s.plain.modify key f = match s.modify key f hf with
      | (s', none) => .ok s'.plain
      | (_, some e) => .error e := by
  rcases hindex : s.index[key]? with _ | i
  · rw [LayoutStore.modify, LayoutStore.contains, find?_of_index_eq_none hindex, modify, hindex]
    rfl
  · rw [LayoutStore.modify, LayoutStore.contains, find?_of_index hindex, modify, hindex]
    refine congrArg (Except.ok ∘ LayoutStore.mk) (List.ext_getElem? fun j => ?_)
    simp only [plain, change, List.getElem?_map, List.getElem?_modify]
    rcases hj : s.records[j]? with _ | r
    · simp
    · -- The record at `j` has the key exactly if the table says so.
      have hkey : r.key = key ↔ i = j := by
        rw [← Option.some.injEq i j, ← hindex, s.indexed]
        simp [hj]
      simp [hkey]

end IndexedStore

end StorageAtlas
