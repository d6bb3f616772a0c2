import StorageAtlas.Proofs.SharedReads

/-!
# Whose slots are read for a record

A record is settled with the words of the outermost struct or static array that it lies in, by its
path and by its slots (`ReadPlan.outermost?`); but a value that is itself settled with the words of
another one takes in nothing. `ReadPlan.readerOf` says so by going from a record to the values that
it lies in, whose paths are shorter; the plan says so by going through the records in order and
keeping account of who was handed on. The two agree (`ReadPlan.exists_job`).
-/

namespace StorageAtlas.ReadPlan

/-- The outermost struct or static array among some records that a record lies in, by its path and
by its slots. -/
def outermost? (records : List SlotRecord) (r : SlotRecord) : Option SlotRecord :=
  r.ancestors.findSome? fun key => records.find? fun q =>
    q.key == key && (q.type.isComposite && q.pending.contains r.pending)

variable {records : List SlotRecord} {r o : SlotRecord}

theorem outermost?_eq_some (h : outermost? records r = some o) :
    o ∈ records ∧ o.key ∈ r.ancestors ∧ o.pending.contains r.pending := by
  obtain ⟨key, hkey, hfound⟩ := List.exists_of_findSome?_eq_some h
  have ho := List.find?_some hfound
  simp only [Bool.and_eq_true, beq_iff_eq] at ho
  exact ⟨List.mem_of_find?_eq_some hfound, ho.1 ▸ hkey, ho.2.2⟩

theorem length_text_lt (h : outermost? records r = some o) :
    o.path.text.length < r.path.text.length := by
  obtain ⟨depth, hdepth, hkey⟩ := SlotRecord.mem_ancestors.1 (outermost?_eq_some h).2.1
  rw [show o.path.text = (r.path.truncated depth).text from congrArg RecordKey.path hkey]
  exact VariablePath.length_text_truncated_lt hdepth

/-- Whether the slots of a record are read for the record itself: it lies in no struct or static
array whose slots are. -/
def readsItself (records : List SlotRecord) (r : SlotRecord) : Bool :=
  match _h : outermost? records r with
  | none => true
  | some o => !readsItself records o
termination_by r.path.text.length
decreasing_by exact length_text_lt _h

/-- The record whose slots are read for a record. -/
def readerOf (records : List SlotRecord) (r : SlotRecord) : SlotRecord :=
  match outermost? records r with
  | none => r
  | some o => if readsItself records o then o else r

theorem readsItself_eq_false :
    readsItself records r = false ↔ ∃ o, outermost? records r = some o ∧ readsItself records o := by
  rw [readsItself]
  split
  · next h => simp [h]
  · next o h => simp [h]

theorem readerOf_eq_self (h : readsItself records r) : readerOf records r = r := by
  unfold readerOf
  split
  · rfl
  · next o ho =>
    refine if_neg fun hreads => ?_
    rw [readsItself_eq_false.2 ⟨o, ho, hreads⟩] at h
    exact nomatch h

theorem readerOf_eq (h : outermost? records r = some o) (ho : readsItself records o) :
    readerOf records r = o := by
  simp only [readerOf, h, ho, ↓reduceIte]

/-! ## The plan -/

theorem findSome?_bind {α β γ : Type} {g : α → Option β} {f : β → Option γ}
    (h : ∀ a b, g a = some b → (f b).isSome) (l : List α) :
    l.findSome? (fun a => (g a).bind f) = (l.findSome? g).bind f := by
  induction l with
  | nil => rfl
  | cons a l ih =>
    rw [List.findSome?_cons, List.findSome?_cons]
    cases hg : g a with
    | none => exact ih
    | some b =>
      obtain ⟨c, hc⟩ := Option.isSome_iff_exists.1 (h a b hg)
      simp only [Option.bind_some, hc]

theorem find?_eq_some_iff_of_nodup (hkeys : (records.map (·.key)).Nodup) {key : RecordKey}
    {p : SlotRecord → Bool} {q : SlotRecord} :
    records.find? (fun q => q.key == key && p q) = some q ↔ q ∈ records ∧ q.key = key ∧ p q := by
  constructor
  · intro hfound
    have hq := List.find?_some hfound
    simp only [Bool.and_eq_true, beq_iff_eq] at hq
    exact ⟨List.mem_of_find?_eq_some hfound, hq⟩
  · rintro ⟨hq, rfl, hp⟩
    obtain ⟨q', hfound⟩ : ∃ q', records.find? (fun q' => q'.key == q.key && p q') = some q' :=
      Option.isSome_iff_exists.1 (List.find?_isSome.2 ⟨q, hq, by simp [hp]⟩)
    have hq' := List.find?_some hfound
    simp only [Bool.and_eq_true, beq_iff_eq] at hq'
    rw [hfound, List.inj_on_of_nodup_map hkeys (List.mem_of_find?_eq_some hfound) hq hq'.1]

variable (h : LayoutStore.InOrder ⟨records⟩)

include h

theorem lookup_composites {key : RecordKey} {i : Nat} {p : Pending} :
    (composites records).lookup key = some (i, p) ↔
      ∃ q, records[i]? = some q ∧ q.key = key ∧ q.pending = p ∧ q.type.isComposite := by
  have hkeys : ((composites records).map Prod.fst).Nodup := by
    have hwhole : ((records.map (·.pending)).zipIdx.map fun p => p.1.key) =
        records.map (·.key) := by
      have hfirst :=
        congrArg (List.map Pending.key) (List.zipIdx_map_fst 0 (records.map (·.pending)))
      rwa [List.map_map, List.map_map] at hfirst
    rw [composites, List.map_map]
    exact h.keys.sublist (hwhole ▸ List.filter_sublist.map _)
  rw [← mem_composites]
  constructor
  · intro hlookup
    obtain ⟨before, behind, hlist, -⟩ := List.lookup_eq_some_iff.1 hlookup
    rw [hlist]
    exact List.mem_append_right _ List.mem_cons_self
  · exact lookup_of_mem hkeys

/-- The plan finds the outermost value by its position. -/
theorem outermost?_eq (r : SlotRecord) :
    outermost? records r = (owner? (composites records) r).bind (records[·]?) := by
  have hkey (key : RecordKey) : (records.find? fun q =>
        q.key == key && (q.type.isComposite && q.pending.contains r.pending)) =
      ((((composites records).lookup key).filter fun c => c.2.contains r.pending).map (·.1)).bind
        (records[·]?) := by
    refine Option.ext fun q => ?_
    rw [find?_eq_some_iff_of_nodup h.keys]
    simp only [Option.bind_eq_some_iff, Option.map_eq_some_iff, Option.filter_eq_some_iff,
      Bool.and_eq_true]
    constructor
    · rintro ⟨hq, hkey, hcomposite, hcontains⟩
      obtain ⟨i, hi⟩ := List.mem_iff_getElem?.1 hq
      have hlookup := (lookup_composites h).2 ⟨q, hi, hkey, rfl, hcomposite⟩
      exact ⟨i, ⟨(i, q.pending), ⟨hlookup, hcontains⟩, rfl⟩, hi⟩
    · rintro ⟨i, ⟨⟨i, p⟩, ⟨hlookup, hcontains⟩, rfl⟩, hi⟩
      obtain ⟨q', hi', hkey, rfl, hcomposite⟩ := (lookup_composites h).1 hlookup
      obtain rfl := Option.some.inj (hi.symm.trans hi')
      exact ⟨List.mem_of_getElem? hi, hkey, hcomposite, hcontains⟩
  unfold outermost? owner?
  simp only [hkey]
  refine findSome?_bind (fun key i hi => ?_) _
  obtain ⟨⟨i, p⟩, hp, rfl⟩ := Option.map_eq_some_iff.1 hi
  obtain ⟨q, hq, -⟩ := (lookup_composites h).1 (Option.filter_eq_some_iff.1 hp).1
  exact Option.isSome_iff_exists.2 ⟨q, hq⟩

/-- **The plan hands over** exactly those whose slots are not read for themselves. -/
theorem handedOver_eq {i : Nat} : ∀ {r : SlotRecord}, records[i]? = some r →
    (handedOver (owners records)).getD i false = !readsItself records r := by
  induction i using Nat.strongRecOn with
  | ind i ih =>
    intro r hr
    have howner : (owners records)[i]? = some (owner? (composites records) r) := by
      rw [owners, List.getElem?_map, hr]
      rfl
    rw [Bool.eq_iff_iff, handedOver_iff (fun _ _ => owner_lt h), Bool.not_eq_true',
      readsItself_eq_false]
    simp only [outermost?_eq h, Option.bind_eq_some_iff]
    constructor
    · rintro ⟨k, hk, hfree⟩
      obtain ⟨o, ho, -⟩ := owner?_eq_some (Option.some.inj (howner.symm.trans hk))
      rw [ih k (owner_lt h hk) ho, Bool.not_eq_false'] at hfree
      exact ⟨o, ⟨k, Option.some.inj (howner.symm.trans hk), ho⟩, hfree⟩
    · rintro ⟨o, ⟨k, hk, ho⟩, hreads⟩
      rw [hk] at howner
      exact ⟨k, howner, by rw [ih k (owner_lt h howner) ho, hreads]; rfl⟩

/-- **Every record is settled in a job** that reads the slots of its reader. -/
theorem exists_job (hr : r ∈ records) :
    ∃ j ∈ jobsFor records, j.reader = (readerOf records r).pending ∧
      r.pending ∈ j.reader :: j.covered := by
  obtain ⟨i, hi⟩ := List.mem_iff_getElem?.1 hr
  have hposition {k : Nat} {q : SlotRecord} (hq : records[k]? = some q)
      (hreads : readsItself records q) : (q.pending, k) ∈ readers records := by
    refine List.mem_filter.2 ⟨?_, by rw [handedOver_eq h hq, hreads]; rfl⟩
    rw [List.mem_zipIdx_iff_getElem?, List.getElem?_map, hq]
    rfl
  rw [jobsFor_eq]
  by_cases hreads : readsItself records r
  · refine ⟨_, List.mem_map_of_mem (hposition hi hreads), ?_, List.mem_cons_self⟩
    rw [readerOf_eq_self hreads]
  · have htaken := handedOver_eq h hi
    rw [Bool.eq_false_iff.2 hreads, Bool.not_false] at htaken
    obtain ⟨o, ho, hoReads⟩ := readsItself_eq_false.1 (Bool.eq_false_iff.2 hreads)
    rw [readerOf_eq ho hoReads]
    rw [outermost?_eq h, Option.bind_eq_some_iff] at ho
    obtain ⟨k, hk, ho⟩ := ho
    refine ⟨_, List.mem_map_of_mem (hposition ho hoReads), rfl, List.mem_cons_of_mem _ ?_⟩
    refine List.mem_map.2 ⟨((r.pending, i), some k), List.mem_filter.2 ⟨?_, by simp⟩, rfl⟩
    refine List.mem_filter.2 ⟨List.mem_iff_getElem?.2 ⟨i, ?_⟩, htaken⟩
    rw [List.getElem?_zip_eq_some, List.getElem?_zipIdx, List.getElem?_map, hi, owners,
      List.getElem?_map, hi, Option.map_some, Option.map_some, Option.map_some, hk, Nat.zero_add]
    exact ⟨rfl, rfl⟩

end StorageAtlas.ReadPlan
