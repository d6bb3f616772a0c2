import Mathlib.Data.List.Induction
import StorageAtlas.SortedMap

/-!
# Sorted maps

What is found in a map is one of its entries, and a key is found where it is among those of the
entries. An insertion keeps the keys in order (`SortedMap.IsSorted.insert`). It adds its entry to
the others, or replaces the one that was under the key (`SortedMap.insert_perm_of_new`,
`SortedMap.insert_perm_of_taken`); so a map that is made of entries with keys of their own has these
entries (`SortedMap.ofEntries_perm`).
-/

namespace StorageAtlas

/-! ## Lookup -/

/-- Changing the values of a map changes what is found in it. -/
theorem SortedMap.lookup_map {α β : Type} (f : α → β) (key : String) (map : SortedMap α) :
    (map.map fun e => (e.1, f e.2)).lookup key = (map.lookup key).map f := by
  induction map with
  | nil => rfl
  | cons e rest ih =>
    rw [List.map_cons, List.lookup_cons, List.lookup_cons, ih]
    cases key == e.1 <;> rfl

theorem SortedMap.mem_of_lookup {α : Type} {key : String} {value : α} {map : SortedMap α}
    (h : map.lookup key = some value) : (key, value) ∈ map := by
  induction map with
  | nil => exact nomatch h
  | cons e rest ih =>
    rw [List.lookup_cons] at h
    split at h
    · next heq =>
      obtain rfl := Option.some.inj h
      rw [beq_iff_eq] at heq
      exact heq ▸ List.mem_cons_self
    · exact List.mem_cons_of_mem _ (ih h)

theorem SortedMap.mem_keys_of_lookup {α : Type} {key : String} {value : α} {map : SortedMap α}
    (h : map.lookup key = some value) : key ∈ map.map Prod.fst :=
  List.mem_map_of_mem (mem_of_lookup h)

theorem lookup_eq_none_iff_keys {α β : Type} [BEq α] [LawfulBEq α] {key : α} {l : List (α × β)} :
    l.lookup key = none ↔ key ∉ l.map Prod.fst := by
  simp only [List.lookup_eq_none_iff, bne_iff_ne, List.mem_map, not_exists, not_and, ne_eq]
  exact ⟨fun h e he heq => h e he heq.symm, fun h e he heq => h e he heq.symm⟩

theorem isSome_lookup_iff_keys {α β : Type} [BEq α] [LawfulBEq α] {key : α} {l : List (α × β)} :
    (l.lookup key).isSome ↔ key ∈ l.map Prod.fst := by
  rw [← Option.ne_none_iff_isSome, ne_eq, lookup_eq_none_iff_keys, Classical.not_not]

/-! ## Order and entries -/

namespace SortedMap

variable {α : Type} {key : String} {value old : α} {map : SortedMap α}

/-- The keys stand in order, each once. -/
def IsSorted (map : SortedMap α) : Prop := map.Pairwise fun a b => a.1 < b.1

theorem mem_insert {e : String × α} (h : e ∈ insert key value map) :
    e = (key, value) ∨ e ∈ map := by
  induction map with
  | nil => exact .inl (List.mem_singleton.1 h)
  | cons first rest ih =>
    obtain ⟨k, v⟩ := first
    unfold insert at h
    split at h
    · exact List.mem_cons.1 h
    · split at h
      · exact (List.mem_cons.1 h).imp_right (List.mem_cons_of_mem _)
      · rcases List.mem_cons.1 h with rfl | h
        · exact .inr List.mem_cons_self
        · exact (ih h).imp_right (List.mem_cons_of_mem _)

theorem IsSorted.insert (h : map.IsSorted) : (insert key value map).IsSorted := by
  induction map with
  | nil => exact List.pairwise_singleton _ _
  | cons first rest ih =>
    obtain ⟨k, v⟩ := first
    obtain ⟨hfirst, hrest⟩ := List.pairwise_cons.1 h
    unfold SortedMap.insert
    split
    · next hlt =>
      refine List.pairwise_cons.2 ⟨List.forall_mem_cons.2 ⟨hlt, fun e he => ?_⟩, h⟩
      exact String.lt_trans hlt (hfirst e he)
    · split
      · next heq =>
        subst heq
        exact List.pairwise_cons.2 ⟨hfirst, hrest⟩
      · next hge hne =>
        have hlt : k < key := Std.lt_of_le_of_ne (Std.not_lt.1 hge) (Ne.symm hne)
        refine List.pairwise_cons.2 ⟨fun e he => ?_, ih hrest⟩
        rcases mem_insert he with rfl | he
        · exact hlt
        · exact hfirst e he

/-- What is put under a new key is added to the entries. -/
theorem insert_perm_of_new (value : α) (h : map.lookup key = none) :
    (insert key value map).Perm ((key, value) :: map) := by
  induction map with
  | nil => exact .refl _
  | cons first rest ih =>
    obtain ⟨k, v⟩ := first
    rw [lookup_eq_none_iff_keys, List.map_cons, List.mem_cons, not_or] at h
    obtain ⟨hne, hrest⟩ := h
    unfold insert
    rw [if_neg hne]
    split
    · exact .refl _
    · exact ((ih (lookup_eq_none_iff_keys.2 hrest)).cons _).trans (.swap ..)

/-- What is put under a key that is taken replaces its entry, and no other. -/
theorem insert_perm_of_taken (value : α) (hmap : map.IsSorted)
    (h : map.lookup key = some old) :
    ∃ rest, map.Perm ((key, old) :: rest) ∧ (insert key value map).Perm ((key, value) :: rest) := by
  induction map with
  | nil => exact nomatch h
  | cons first rest ih =>
    obtain ⟨k, v⟩ := first
    obtain ⟨hfirst, hrest⟩ := List.pairwise_cons.1 hmap
    unfold insert
    by_cases hkey : key = k
    · subst hkey
      obtain rfl : v = old := by simpa using h
      rw [if_neg (String.lt_irrefl _), if_pos rfl]
      exact ⟨rest, .refl _, .refl _⟩
    · have hfound : rest.lookup key = some old := by
        rwa [List.lookup_cons, beq_eq_false_iff_ne.2 hkey] at h
      have hlt : k < key := hfirst _ (mem_of_lookup hfound)
      have hge : ¬key < k := fun hgt => String.lt_irrefl _ (String.lt_trans hlt hgt)
      obtain ⟨behind, hold, hnew⟩ := ih hrest hfound
      rw [if_neg hge, if_neg hkey]
      exact ⟨(k, v) :: behind, (hold.cons _).trans (.swap ..), (hnew.cons _).trans (.swap ..)⟩

/-- **A map has the entries that it was made of**, if these have keys of their own. -/
theorem ofEntries_perm {entries : List (String × α)} (h : (entries.map Prod.fst).Nodup) :
    (ofEntries entries).Perm entries := by
  induction entries using List.reverseRecOn with
  | nil => exact .refl _
  | append_singleton entries e ih =>
    rw [List.map_append, List.map_singleton, List.nodup_append] at h
    obtain ⟨hentries, -, hnew⟩ := h
    have hadded : (ofEntries entries).lookup e.1 = none := by
      refine lookup_eq_none_iff_keys.2 fun hkey => ?_
      exact hnew _ (((ih hentries).map _).mem_iff.1 hkey) _ List.mem_cons_self rfl
    rw [ofEntries, List.foldl_append]
    refine (insert_perm_of_new _ hadded).trans ?_
    exact ((ih hentries).cons e).trans (List.perm_append_singleton _ _).symm

end SortedMap

end StorageAtlas
