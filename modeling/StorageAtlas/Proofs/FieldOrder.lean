import StorageAtlas.Json.Shape
import StorageAtlas.Proofs.SortedMaps

/-!
# The order of fields

A value of JSON may come back with the entries of its objects in another order than they were
written in: a tree that is kept by key has them sorted. `Json.arrange` puts the entries of all
objects in some order, as they were written and sorted being two of them (`arrange_asWritten`,
`arrange_byKey`). The readers of records and of alternatives find what they look for in any order,
as long as no key stands twice (`fields?_perm`, `takeTag?_perm`, `adjacent?_perm`).
-/

namespace StorageAtlas.Json

/-- A way to order the entries of an object, which counts on their keys to be distinct. -/
structure Arrangement where
  order : List (String × Json) → List (String × Json)
  perm : ∀ {entries}, (entries.map Prod.fst).Nodup → (order entries).Perm entries

namespace Arrangement

def asWritten : Arrangement := ⟨id, fun _ => .refl _⟩

/-- By key, as in `Json.sorted`. -/
def byKey : Arrangement := ⟨SortedMap.ofEntries, SortedMap.ofEntries_perm⟩

end Arrangement

mutual
/-- The same value with the entries of every object in order. -/
def arrange (σ : Arrangement) : Json → Json
  | array items => array (arrangeItems σ items)
  | object entries => object (σ.order (arrangeEntries σ entries))
  | j => j

def arrangeItems (σ : Arrangement) : List Json → List Json
  | [] => []
  | j :: rest => j.arrange σ :: arrangeItems σ rest

def arrangeEntries (σ : Arrangement) : List (String × Json) → List (String × Json)
  | [] => []
  | (key, j) :: rest => (key, j.arrange σ) :: arrangeEntries σ rest
end

mutual
theorem arrange_asWritten : ∀ j : Json, j.arrange .asWritten = j
  | array items => congrArg array (arrangeItems_asWritten items)
  | object entries => congrArg object (arrangeEntries_asWritten entries)
  | null | bool _ | integer _ | real _ | string _ | flawed _ => rfl

theorem arrangeItems_asWritten : ∀ items : List Json, arrangeItems .asWritten items = items
  | [] => rfl
  | j :: rest => congrArg₂ List.cons (arrange_asWritten j) (arrangeItems_asWritten rest)

theorem arrangeEntries_asWritten :
    ∀ entries : List (String × Json), arrangeEntries .asWritten entries = entries
  | [] => rfl
  | (key, j) :: rest =>
    congrArg₂ List.cons (congrArg (Prod.mk key) (arrange_asWritten j))
      (arrangeEntries_asWritten rest)
end

mutual
theorem arrange_byKey : ∀ j : Json, j.arrange .byKey = j.sorted
  | array items => congrArg array (arrangeItems_byKey items)
  | object entries =>
    congrArg (fun entries => object (SortedMap.ofEntries entries)) (arrangeEntries_byKey entries)
  | null | bool _ | integer _ | real _ | string _ | flawed _ => rfl

theorem arrangeItems_byKey : ∀ items : List Json, arrangeItems .byKey items = sortedItems items
  | [] => rfl
  | j :: rest => congrArg₂ List.cons (arrange_byKey j) (arrangeItems_byKey rest)

theorem arrangeEntries_byKey :
    ∀ entries : List (String × Json), arrangeEntries .byKey entries = sortedEntries entries
  | [] => rfl
  | (key, j) :: rest =>
    congrArg₂ List.cons (congrArg (Prod.mk key) (arrange_byKey j)) (arrangeEntries_byKey rest)
end

theorem arrangeItems_eq_map (σ : Arrangement) (items : List Json) :
    arrangeItems σ items = items.map (·.arrange σ) := by
  induction items with
  | nil => rfl
  | cons j rest ih => exact congrArg (List.cons _) ih

variable {items : List Json} {entries arranged rest : List (String × Json)} {j : Json}
  {key : String}

theorem keys_arrangeEntries (σ : Arrangement) (entries : List (String × Json)) :
    (arrangeEntries σ entries).map Prod.fst = entries.map Prod.fst := by
  induction entries with
  | nil => rfl
  | cons e rest ih => exact congrArg (List.cons _) ih

theorem mem_arrangeEntries {σ : Arrangement} {e : String × Json} :
    e ∈ arrangeEntries σ entries ↔ ∃ e' ∈ entries, (e'.1, e'.2.arrange σ) = e := by
  induction entries with
  | nil => simp [arrangeEntries]
  | cons e' rest ih => simp [arrangeEntries, ih, eq_comm]

/-- The entries of an object are arranged, each for itself and all among each other. -/
theorem exists_arrange_object (σ : Arrangement) (hkeys : (entries.map Prod.fst).Nodup) :
    ∃ arranged, (object entries).arrange σ = object arranged ∧
      arranged.Perm (arrangeEntries σ entries) :=
  ⟨_, rfl, σ.perm ((keys_arrangeEntries σ entries).symm ▸ hkeys)⟩

/-! ## Parts -/

theorem isSound_array_iff : (array items).isSound ↔ ∀ j ∈ items, j.isSound := by
  rw [isSound]
  induction items with
  | nil => simp [areSoundItems]
  | cons j rest ih => simp [areSoundItems, ih]

theorem isSound_object_iff : (object entries).isSound ↔ ∀ e ∈ entries, e.2.isSound := by
  rw [isSound]
  induction entries with
  | nil => simp [areSoundEntries]
  | cons e rest ih => simp [areSoundEntries, ih]

theorem depth_lt_array (h : j ∈ items) : j.depth < (array items).depth := by
  rw [depth, Nat.lt_succ_iff]
  induction items with
  | nil => exact nomatch h
  | cons first rest ih =>
    rw [depthItems]
    rcases List.mem_cons.1 h with rfl | h
    · exact Nat.le_max_left ..
    · exact Nat.le_trans (ih h) (Nat.le_max_right ..)

theorem depth_lt_object (h : (key, j) ∈ entries) : j.depth < (object entries).depth := by
  rw [depth, Nat.lt_succ_iff]
  induction entries with
  | nil => exact nomatch h
  | cons first rest ih =>
    rw [depthEntries]
    rcases List.mem_cons.1 h with rfl | h
    · exact Nat.le_max_left ..
    · exact Nat.le_trans (ih h) (Nat.le_max_right ..)

section Arranged

variable (σ : Arrangement) (hkeys : (entries.map Prod.fst).Nodup)

include hkeys

theorem isSound_arrange_object (h : ∀ e ∈ entries, (e.2.arrange σ).isSound) :
    ((object entries).arrange σ).isSound := by
  obtain ⟨arranged, harranged, hp⟩ := exists_arrange_object σ hkeys
  rw [harranged, isSound_object_iff]
  intro e' he'
  obtain ⟨e, he, rfl⟩ := mem_arrangeEntries.1 (hp.mem_iff.1 he')
  exact h e he

theorem depth_lt_arrange_object (h : (key, j) ∈ entries) :
    (j.arrange σ).depth < ((object entries).arrange σ).depth := by
  obtain ⟨arranged, harranged, hp⟩ := exists_arrange_object σ hkeys
  rw [harranged]
  exact depth_lt_object (hp.mem_iff.2 (mem_arrangeEntries.2 ⟨_, h, rfl⟩))

end Arranged

/-! ## Readers -/

theorem asNat?_nat {limit n : Nat} (h : n < limit) : asNat? limit (nat n) = some n := by
  simp [asNat?, h]

/-- What is written one by one is read one by one. -/
theorem mapM_map_eq_some {α β γ : Type} {write : α → β} {read : β → Option γ} {f : α → γ}
    {as : List α} (h : ∀ a ∈ as, read (write a) = some (f a)) :
    (as.map write).mapM read = some (as.map f) := by
  induction as with
  | nil => rfl
  | cons a as ih =>
    obtain ⟨ha, has⟩ := List.forall_mem_cons.1 h
    simp only [List.map_cons, List.mapM_cons, ha, ih has]
    rfl

theorem mapM_map_eq_self {α β : Type} {write : α → β} {read : β → Option α} {as : List α}
    (h : ∀ a ∈ as, read (write a) = some a) : (as.map write).mapM read = some as := by
  rw [mapM_map_eq_some h, List.map_id']

theorem valuesOf_cons (e : String × Json) (key : String) : valuesOf (e :: entries) key =
    if e.1 = key then e.2 :: valuesOf entries key else valuesOf entries key := by
  simp only [valuesOf, List.filter_cons, beq_iff_eq]
  split <;> rfl

/-- A key that is not repeated has one value. -/
theorem valuesOf_of_mem (hkeys : (entries.map Prod.fst).Nodup) (h : (key, j) ∈ entries) :
    valuesOf entries key = [j] := by
  induction entries with
  | nil => exact nomatch h
  | cons e rest ih =>
    obtain ⟨hnew, hrest⟩ := List.nodup_cons.1 hkeys
    rw [valuesOf_cons]
    rcases List.mem_cons.1 h with rfl | h
    · have hnone : rest.filter (·.1 == key) = [] :=
        List.filter_eq_nil_iff.2 fun e he heq => hnew (List.mem_map.2 ⟨e, he, eq_of_beq heq⟩)
      rw [if_pos rfl, valuesOf, hnone]
      rfl
    · rw [if_neg fun heq => hnew (List.mem_map.2 ⟨_, h, heq.symm⟩)]
      exact ih hrest h

/-- Where all keys are known there is nothing to pass over. -/
theorem othersPassable_of_forall {keys : List String} (h : ∀ e ∈ entries, e.1 ∈ keys) :
    othersPassable keys entries := by
  have hnone : entries.filter (fun e => !keys.contains e.1) = [] :=
    List.filter_eq_nil_iff.2 fun e he => by simp [h e he]
  rw [othersPassable, hnone]
  rfl

section Readers

variable (hkeys : (entries.map Prod.fst).Nodup) (hp : arranged.Perm entries)

include hkeys hp

theorem valuesOf_perm (h : (key, j) ∈ entries) : valuesOf arranged key = [j] :=
  valuesOf_of_mem ((hp.map _).nodup_iff.2 hkeys) (hp.mem_iff.2 h)

/-- **The fields of a record are found in any order.** -/
theorem fields?_perm :
    fields? (entries.map Prod.fst) (object arranged) = some (entries.map fun e => some e.2) := by
  have hothers : othersPassable (entries.map Prod.fst) arranged :=
    othersPassable_of_forall fun e he => List.mem_map_of_mem (hp.mem_iff.1 he)
  rw [fields?, if_pos hothers]
  refine mapM_map_eq_some fun e he => ?_
  rw [atMostOnce?, valuesOf_perm hkeys hp he]

end Readers

theorem fields?_arrange {σ : Arrangement} (hkeys : (entries.map Prod.fst).Nodup)
    (hp : arranged.Perm (arrangeEntries σ entries)) :
    fields? (entries.map Prod.fst) (object arranged) =
      some ((arrangeEntries σ entries).map fun e => some e.2) := by
  rw [← keys_arrangeEntries σ] at hkeys ⊢
  exact fields?_perm hkeys hp

/-- **The tag is found among the fields of a record**, which are left in some order. -/
theorem takeTag?_perm {o : Origin} {tag : String} (hkeys : (((tag, j) :: rest).map Prod.fst).Nodup)
    (hp : arranged.Perm ((tag, j) :: rest)) (hsound : ∀ e ∈ rest, e.2.isSound) :
    ∃ others : List (String × Json), others.Perm rest ∧
      takeTag? o tag (object arranged) = some (j, object others) := by
  have hrest : rest.filter (·.1 != tag) = rest := by
    refine List.filter_eq_self.2 fun e he => bne_iff_ne.2 fun heq => ?_
    exact (List.nodup_cons.1 hkeys).1 (List.mem_map.2 ⟨e, he, heq⟩)
  have hothers : (arranged.filter (·.1 != tag)).Perm rest := by
    have hfilter := hp.filter (·.1 != tag)
    rwa [List.filter_cons_of_neg (by simp), hrest] at hfilter
  have hall : (object (arranged.filter (·.1 != tag))).isSound :=
    isSound_object_iff.2 fun e he => hsound e (hothers.mem_iff.1 he)
  refine ⟨_, hothers, ?_⟩
  simp only [takeTag?, valuesOf_perm hkeys hp List.mem_cons_self]
  simp [Option.filter, hall]

section Alternatives

variable {o : Origin} {tag content name : String} {names : List String} {c : Json}

theorem adjacent?_of_tag (hne : tag ≠ content) :
    adjacent? o tag content names (object [(tag, string name)]) = some ⟨name, none, o⟩ := by
  have hothers : othersPassable [tag, content] [(tag, string name)] :=
    othersPassable_of_forall (by simp)
  simp [adjacent?, hothers, atMostOnce?, valuesOf, hne, variant?]

/-- **The name and the contents of an alternative are found in either order.** Where the contents
come from may depend on it. -/
theorem adjacent?_perm (hne : tag ≠ content) (hsound : c.isSound)
    (hp : arranged.Perm [(tag, string name), (content, c)]) :
    ∃ o', adjacent? o tag content names (object arranged) = some ⟨name, some c, o'⟩ := by
  have hkeys : ([(tag, string name), (content, c)].map Prod.fst).Nodup := by simpa using hne
  have hothers : othersPassable [tag, content] arranged :=
    othersPassable_of_forall fun e he => List.mem_map_of_mem (hp.mem_iff.1 he)
  have htag := valuesOf_perm hkeys hp List.mem_cons_self
  have hcontent := valuesOf_perm hkeys hp (List.mem_cons_of_mem _ List.mem_cons_self)
  simp only [adjacent?, hothers, htag, atMostOnce?, hcontent, if_true, hsound, variant?]
  split
  · exact ⟨_, rfl⟩
  · exact ⟨_, rfl⟩

variable (σ : Arrangement)

theorem adjacent?_arrange_tag (hne : tag ≠ content) :
    adjacent? o tag content names ((object [(tag, string name)]).arrange σ) =
      some ⟨name, none, o⟩ := by
  have hkeys : ([(tag, string name)].map Prod.fst).Nodup := by simp
  obtain ⟨arranged, harranged, hp⟩ := exists_arrange_object σ hkeys
  rw [harranged, List.perm_singleton.1 hp]
  exact adjacent?_of_tag hne

theorem adjacent?_arrange (hne : tag ≠ content) (hsound : (c.arrange σ).isSound) :
    ∃ o', adjacent? o tag content names ((object [(tag, string name), (content, c)]).arrange σ) =
      some ⟨name, some (c.arrange σ), o'⟩ := by
  have hkeys : ([(tag, string name), (content, c)].map Prod.fst).Nodup := by simpa using hne
  obtain ⟨arranged, harranged, hp⟩ := exists_arrange_object σ hkeys
  rw [harranged]
  exact adjacent?_perm hne hsound hp

end Alternatives

end StorageAtlas.Json
