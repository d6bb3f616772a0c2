/-!
# Maps sorted by name

Lists of entries in the order of their keys, each key once. `insert` puts a value under a key and
replaces the one that was there.
-/

namespace StorageAtlas

/-- Entries in the order of their keys, each key once. -/
abbrev SortedMap (α : Type u) := List (String × α)

namespace SortedMap

/-- Puts a value under a key, in place of the one that was there. -/
def insert (key : String) (value : α) : SortedMap α → SortedMap α
  | [] => [(key, value)]
  | (k, v) :: rest =>
    if key < k then (key, value) :: (k, v) :: rest
    else if key = k then (key, value) :: rest
    else (k, v) :: insert key value rest

/-- The entries in order; where a key is given twice the last value stays. -/
def ofEntries (entries : List (String × α)) : SortedMap α :=
  entries.foldl (fun map e => insert e.1 e.2 map) []

/-- The value under a key is the one put there last. -/
theorem lookup_insert_self (key : String) (value : α) (map : SortedMap α) :
    (insert key value map).lookup key = some value := by
  induction map with
  | nil => simp [insert]
  | cons e rest ih =>
    obtain ⟨k, v⟩ := e
    simp only [insert]
    split
    · exact List.lookup_cons_self
    · split
      · exact List.lookup_cons_self
      · rename_i hne
        have hb : (key == k) = false := by simpa using hne
        simp only [List.lookup_cons, hb, ih]

/-- Other keys keep their values. -/
theorem lookup_insert_of_ne {key other : String} (h : other ≠ key) (value : α)
    (map : SortedMap α) : (insert key value map).lookup other = map.lookup other := by
  have hb : (other == key) = false := by simpa using h
  induction map with
  | nil => simp only [insert, List.lookup_cons, hb]
  | cons e rest ih =>
    obtain ⟨k, v⟩ := e
    simp only [insert]
    split
    · simp only [List.lookup_cons, hb]
    · split
      · rename_i heq
        subst heq
        simp only [List.lookup_cons, hb]
      · simp only [List.lookup_cons, ih]

end SortedMap

end StorageAtlas
