import Mathlib.Data.List.Induction
import Mathlib.Data.List.Perm.Basic
import StorageAtlas.Proofs.StoreOrder

/-!
# Plans leave nothing out

Where outer values come first, an owner stands in front of what it owns. When a record is handed to
its owner it is therefore settled whether the owner was handed on itself, and later owners cannot
change it; so every record that waits is in exactly one job, as its reader or covered by it
(`ReadPlan.jobsFor_perm`). Records need not be handed to the outermost value that could take them,
which is why nothing has to be known of how containment goes on from owner to owner.
-/

namespace StorageAtlas

/-- Parts of a list that are told apart by a number make up the whole. -/
theorem flatMap_filter_perm {α : Type} {f : α → Option Nat} {ks : List Nat} :
    ∀ {l : List α}, ks.Nodup → (∀ a ∈ l, ∃ k ∈ ks, f a = some k) →
      (ks.flatMap fun k => l.filter (f · == some k)).Perm l := by
  induction ks with
  | nil =>
    intro l _ h
    cases l with
    | nil => exact .refl _
    | cons a l =>
      obtain ⟨k, hk, -⟩ := h a List.mem_cons_self
      exact nomatch hk
  | cons k ks ih =>
    intro l hks h
    obtain ⟨hk, hks⟩ := List.nodup_cons.1 hks
    have hrest : ∀ a ∈ l.filter (!f · == some k), ∃ k ∈ ks, f a = some k := by
      intro a ha
      obtain ⟨hal, hne⟩ := List.mem_filter.1 ha
      obtain ⟨j, hj, hfa⟩ := h a hal
      rcases List.mem_cons.1 hj with rfl | hj
      · rw [hfa, beq_self_eq_true] at hne
        exact nomatch hne
      · exact ⟨j, hj, hfa⟩
    -- the further parts have nothing of the first one
    have hparts : ks.flatMap (fun j => l.filter (f · == some j)) =
        ks.flatMap fun j => (l.filter (!f · == some k)).filter (f · == some j) := by
      refine List.flatMap_congr fun j hj => ?_
      rw [List.filter_filter]
      refine List.filter_congr fun a _ => ?_
      by_cases hfa : f a = some j
      · have hjk : j ≠ k := fun heq => hk (heq ▸ hj)
        simp [hfa, hjk]
      · simp [hfa]
    rw [List.flatMap_cons, hparts]
    exact ((ih hks hrest).append_left _).trans (List.filter_append_perm _ l)

/-- The parts together with what is in none of them make up the whole. -/
theorem flatMap_filter_append_perm {α : Type} (f : α → Option Nat) {ks : List Nat} (hks : ks.Nodup)
    (l : List α) : ((ks.flatMap fun k => l.filter (f · == some k)) ++
      l.filter (fun a => !ks.any (f a == some ·))).Perm l := by
  have hfound : ∀ a ∈ l.filter (fun a => ks.any (f a == some ·)), ∃ k ∈ ks, f a = some k := by
    intro a ha
    obtain ⟨k, hk, heq⟩ := List.any_eq_true.1 (List.mem_filter.1 ha).2
    exact ⟨k, hk, eq_of_beq heq⟩
  have hparts : (ks.flatMap fun k => l.filter (f · == some k)) = ks.flatMap fun k =>
      (l.filter (fun a => ks.any (f a == some ·))).filter (f · == some k) := by
    refine List.flatMap_congr fun k hk => ?_
    rw [List.filter_filter]
    refine List.filter_congr fun a _ => ?_
    cases hfa : f a == some k with
    | false => rfl
    | true => exact (List.any_eq_true.2 ⟨k, hk, hfa⟩).symm
  rw [hparts]
  exact ((flatMap_filter_perm hks hfound).append_right _).trans (List.filter_append_perm _ l)

namespace ReadPlan

/-! ## Owners -/

/-- What may take the words of others, with its key and position. -/
def composites (records : List SlotRecord) : List (RecordKey × Nat × Pending) :=
  ((records.map (·.pending)).zipIdx.filter fun p => p.1.type.isComposite).map fun p =>
    (p.1.key, p.2, p.1)

def owners (records : List SlotRecord) : List (Option Nat) :=
  records.map (owner? (composites records))

variable {records : List SlotRecord}

theorem mem_composites {key : RecordKey} {i : Nat} {p : Pending} :
    (key, i, p) ∈ composites records ↔
      ∃ q, records[i]? = some q ∧ q.key = key ∧ q.pending = p ∧ q.type.isComposite := by
  simp only [composites, List.mem_map, List.mem_filter, List.mem_zipIdx_iff_getElem?,
    List.getElem?_map, Option.map_eq_some_iff]
  constructor
  · rintro ⟨⟨p, i⟩, ⟨⟨q, hq, rfl⟩, hcomposite⟩, heq⟩
    cases heq
    exact ⟨q, hq, rfl, rfl, hcomposite⟩
  · rintro ⟨q, hq, rfl, rfl, hcomposite⟩
    exact ⟨(q.pending, i), ⟨⟨q, hq, rfl⟩, hcomposite⟩, rfl⟩

/-- An owner is a value that the record lies in, and it takes in the record's slots. -/
theorem owner?_eq_some {r : SlotRecord} {o : Nat} (h : owner? (composites records) r = some o) :
    ∃ q, records[o]? = some q ∧ q.key ∈ r.ancestors ∧ q.pending.contains r.pending := by
  obtain ⟨key, hkey, hfound⟩ := List.exists_of_findSome?_eq_some h
  obtain ⟨⟨i, c⟩, hc, rfl⟩ := Option.map_eq_some_iff.1 hfound
  obtain ⟨hlookup, hcontains⟩ := Option.filter_eq_some_iff.1 hc
  obtain ⟨before, behind, hlist, -⟩ := List.lookup_eq_some_iff.1 hlookup
  have hmem : (key, i, c) ∈ composites records := by
    rw [hlist]
    exact List.mem_append_right _ List.mem_cons_self
  obtain ⟨q, hq, rfl, rfl, -⟩ := mem_composites.1 hmem
  exact ⟨q, hq, hkey, hcontains⟩

/-- An owner stands in front. -/
theorem owner_lt (h : LayoutStore.InOrder ⟨records⟩) {i o : Nat}
    (ho : (owners records)[i]? = some (some o)) : o < i := by
  rw [owners, List.getElem?_map] at ho
  obtain ⟨r, hr, ho⟩ := Option.map_eq_some_iff.1 ho
  obtain ⟨q, hq, hancestor, -⟩ := owner?_eq_some ho
  obtain ⟨hi, rfl⟩ := List.getElem?_eq_some_iff.1 hr
  obtain ⟨ho, rfl⟩ := List.getElem?_eq_some_iff.1 hq
  rcases Nat.lt_trichotomy o i with hlt | rfl | hgt
  · exact hlt
  · exact absurd hancestor (SlotRecord.key_not_mem_ancestors _)
  · exact absurd hancestor (List.pairwise_iff_getElem.1 h.outerFirst i o hi ho hgt)

/-! ## Who is handed over -/

/-- Whether a record is handed to its owner, as far as it is known who is. -/
def isHanded (taken : Array Bool) : Option Nat → Bool
  | none => false
  | some o => !(taken.getD o false)

theorem handedOver_concat (l : List (Option Nat)) (owner : Option Nat) :
    handedOver (l ++ [owner]) = (handedOver l).push (isHanded (handedOver l) owner) := by
  rw [handedOver, List.foldl_append]
  rfl

theorem size_handedOver (l : List (Option Nat)) : (handedOver l).size = l.length := by
  induction l using List.reverseRecOn with
  | nil => rfl
  | append_singleton l owner ih => simp [handedOver_concat, ih]

/-- **Who is handed over**: those with an owner that is not handed over itself. -/
theorem handedOver_iff {l : List (Option Nat)}
    (h : ∀ i o : Nat, l[i]? = some (some o) → o < i) (i : Nat) :
    (handedOver l).getD i false = true ↔
      ∃ o, l[i]? = some (some o) ∧ (handedOver l).getD o false = false := by
  induction l using List.reverseRecOn generalizing i with
  | nil => simp [handedOver]
  | append_singleton l owner ih =>
    have hsize := size_handedOver l
    have hold : ∀ j < l.length,
        (handedOver (l ++ [owner])).getD j false = (handedOver l).getD j false := by
      intro j hj
      rw [handedOver_concat, Array.getD_eq_getD_getElem?, Array.getD_eq_getD_getElem?,
        Array.getElem?_push, if_neg (by omega)]
    rcases Nat.lt_trichotomy i l.length with hlt | rfl | hgt
    · have hget : (l ++ [owner])[i]? = l[i]? := List.getElem?_append_left hlt
      rw [hold i hlt, hget, ih fun j o hj => h j o ?_]
      · refine exists_congr fun o => and_congr_right fun ho => ?_
        rw [hold o (Nat.lt_trans (h i o (hget.trans ho)) hlt)]
      · rw [List.getElem?_append_left (List.getElem?_eq_some_iff.1 hj).1]
        exact hj
    · have hget : (l ++ [owner])[l.length]? = some owner := by simp
      have hlast : (handedOver (l ++ [owner])).getD l.length false =
          isHanded (handedOver l) owner := by
        rw [handedOver_concat, ← hsize, Array.getD_eq_getD_getElem?, Array.getElem?_push_size,
          Option.getD_some]
      rw [hget, hlast]
      cases owner with
      | none => simp [isHanded]
      | some o =>
        have ho : o < l.length := h _ _ hget
        simp only [isHanded, Option.some.injEq, exists_eq_left', Bool.not_eq_true', hold o ho]
    · have hnone : (l ++ [owner])[i]? = none := by
        rw [List.getElem?_eq_none_iff, List.length_append, List.length_singleton]
        omega
      rw [hnone, handedOver_concat, Array.getD_eq_getD_getElem?, Array.getElem?_eq_none]
      · simp
      · rw [Array.size_push]
        omega

/-! ## Jobs -/

/-- The records that are handed over, each with its owner. -/
def handed (records : List SlotRecord) : List ((Pending × Nat) × Option Nat) :=
  ((records.map (·.pending)).zipIdx.zip (owners records)).filter fun p =>
    (handedOver (owners records)).getD p.1.2 false

/-- The records that are read. -/
def readers (records : List SlotRecord) : List (Pending × Nat) :=
  (records.map (·.pending)).zipIdx.filter fun p => !(handedOver (owners records)).getD p.2 false

theorem jobsFor_eq (records : List SlotRecord) : jobsFor records =
    (readers records).map fun p =>
      ⟨p.1, ((handed records).filter (·.2 == some p.2)).map (·.1.1)⟩ :=
  rfl

theorem mem_handed {c : (Pending × Nat) × Option Nat} (hc : c ∈ handed records) :
    (∃ r, records[c.1.2]? = some r ∧ c.1.1 = r.pending) ∧
      (owners records)[c.1.2]? = some c.2 ∧
      (handedOver (owners records)).getD c.1.2 false = true := by
  obtain ⟨hzip, htaken⟩ := List.mem_filter.1 hc
  obtain ⟨⟨p, i⟩, owner⟩ := c
  obtain ⟨j, hj⟩ := List.mem_iff_getElem?.1 hzip
  rw [List.getElem?_zip_eq_some] at hj
  obtain ⟨hpair, howner⟩ := hj
  rw [List.getElem?_zipIdx, List.getElem?_map] at hpair
  obtain ⟨q, hq, hqi⟩ := Option.map_eq_some_iff.1 hpair
  obtain ⟨r, hr, rfl⟩ := Option.map_eq_some_iff.1 hq
  obtain ⟨rfl, rfl⟩ : r.pending = p ∧ j = i := by simpa using hqi
  exact ⟨⟨r, hr, rfl⟩, howner, htaken⟩

/-- The owner of a record that is handed over is read. -/
theorem exists_reader (h : LayoutStore.InOrder ⟨records⟩) {c : (Pending × Nat) × Option Nat}
    (hc : c ∈ handed records) : ∃ k ∈ (readers records).map (·.2), c.2 = some k := by
  obtain ⟨-, howner, htaken⟩ := mem_handed hc
  obtain ⟨o, ho, hfree⟩ := (handedOver_iff (fun _ _ => owner_lt h) _).1 htaken
  have hc2 : c.2 = some o := Option.some.inj (howner.symm.trans ho)
  rw [owners, List.getElem?_map] at ho
  obtain ⟨r, hr, ho⟩ := Option.map_eq_some_iff.1 ho
  obtain ⟨q, hq, -⟩ := owner?_eq_some ho
  refine ⟨o, List.mem_map.2 ⟨(q.pending, o), List.mem_filter.2 ⟨?_, by simp [hfree]⟩, rfl⟩, hc2⟩
  rw [List.mem_zipIdx_iff_getElem?, List.getElem?_map, hq]
  rfl

/-- A job takes its reader and what is handed to it. -/
theorem jobsFor_parts (records : List SlotRecord) :
    ((jobsFor records).flatMap fun j => j.reader :: j.covered).Perm
      ((readers records).map (·.1) ++ (((readers records).flatMap fun p =>
        (handed records).filter (·.2 == some p.2)).map (·.1.1))) := by
  have hsplit := List.flatMap_append_perm (readers records) (fun p => [p.1]) fun p =>
    ((handed records).filter (·.2 == some p.2)).map (·.1.1)
  rw [← List.map_eq_flatMap, ← List.map_flatMap] at hsplit
  rw [jobsFor_eq, List.flatMap_map]
  exact hsplit.symm

/-- Every record is read or handed over. -/
theorem readers_append_handed (records : List SlotRecord) :
    ((readers records).map (·.1) ++ (handed records).map (·.1.1)).Perm
      (records.map (·.pending)) := by
  have hhanded : (handed records).map (·.1) = (records.map (·.pending)).zipIdx.filter fun p =>
      (handedOver (owners records)).getD p.2 false := by
    have hzip : ((records.map (·.pending)).zipIdx.zip (owners records)).map Prod.fst =
        (records.map (·.pending)).zipIdx :=
      List.map_fst_zip (by simp [owners])
    rw [← hzip, List.filter_map]
    rfl
  have hwhole := (List.filter_append_perm (fun p : Pending × Nat =>
    (handedOver (owners records)).getD p.2 false) (records.map (·.pending)).zipIdx).map Prod.fst
  rw [List.map_append, List.zipIdx_map_fst] at hwhole
  have hfirst : (handed records).map (·.1.1) = ((handed records).map (·.1)).map Prod.fst := by
    rw [List.map_map]
    rfl
  refine List.perm_append_comm.trans ?_
  rw [hfirst, hhanded]
  exact hwhole

theorem nodup_readers (records : List SlotRecord) : ((readers records).map (·.2)).Nodup := by
  refine List.Nodup.sublist ((List.filter_sublist (l := _)).map _) ?_
  rw [List.zipIdx_map_snd]
  exact List.nodup_range'

/-- **Every record is in exactly one job**, as its reader or covered by it. -/
theorem jobsFor_perm (h : LayoutStore.InOrder ⟨records⟩) :
    ((jobsFor records).flatMap fun j => j.reader :: j.covered).Perm
      (records.map (·.pending)) := by
  have hcovered : ((readers records).flatMap fun p =>
      (handed records).filter (·.2 == some p.2)).Perm (handed records) := by
    have hparts := flatMap_filter_perm (f := fun c : (Pending × Nat) × Option Nat => c.2)
      (nodup_readers records) fun c hc => exists_reader h hc
    rwa [List.flatMap_map] at hparts
  exact (jobsFor_parts records).trans
    (((hcovered.map _).append_left _).trans (readers_append_handed records))

/-- **No record is in two jobs**, in whatever order they stand. A record in front of its owner may
be in none. -/
theorem exists_jobsFor_append_perm (records : List SlotRecord) :
    ∃ missed, (((jobsFor records).flatMap fun j => j.reader :: j.covered) ++ missed).Perm
      (records.map (·.pending)) := by
  have hcovered := flatMap_filter_append_perm
    (fun c : (Pending × Nat) × Option Nat => c.2) (nodup_readers records) (handed records)
  rw [List.flatMap_map] at hcovered
  have hhanded := hcovered.map (·.1.1)
  rw [List.map_append] at hhanded
  refine ⟨((handed records).filter fun c =>
    !((readers records).map (·.2)).any (c.2 == some ·)).map (·.1.1),
    ((jobsFor_parts records).append_right _).trans ?_⟩
  rw [List.append_assoc]
  exact (hhanded.append_left _).trans (readers_append_handed records)

/-- What a job covers lies in the slots that are read. -/
theorem contains_of_mem_covered {j : Job} (hj : j ∈ jobsFor records) {m : Pending}
    (hm : m ∈ j.covered) : j.reader.contains m := by
  rw [jobsFor_eq] at hj
  obtain ⟨⟨p, i⟩, hp, rfl⟩ := List.mem_map.1 hj
  obtain ⟨c, hc, rfl⟩ := List.mem_map.1 hm
  obtain ⟨hc, howner⟩ := List.mem_filter.1 hc
  obtain ⟨⟨r, hr, hpending⟩, ho, -⟩ := mem_handed hc
  have hget := List.mem_zipIdx_iff_getElem?.1 (List.mem_filter.1 hp).1
  rw [eq_of_beq howner, owners, List.getElem?_map, hr] at ho
  obtain ⟨q, hq, -, hcontains⟩ := owner?_eq_some (Option.some.inj ho)
  rw [List.getElem?_map, hq] at hget
  rw [hpending, ← Option.some.inj hget]
  exact hcontains

end ReadPlan

end StorageAtlas
