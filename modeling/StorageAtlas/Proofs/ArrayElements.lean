import StorageAtlas.Proofs.Confluence
import StorageAtlas.Proofs.Retracing

/-!
# Elements that a fetch adds

A fetch that spells out arrays adds a record for each element of an array whose length it has read
(`Fetch.holds_element`). A path to the element leads to the same place. The types need not be the
same: a fetch takes the type of the elements as it stands in the type of the array, while a path
makes it ready for its place. `expanded_element_agrees`: the two are the same type exactly where it
is ready as it stands, so that they part where elements are arrays of structs that are only named.
-/

namespace StorageAtlas

/-! ## Records after a fate -/

namespace SlotRecord

variable {r : SlotRecord} {fates : Fates}

theorem exists_meets_eq (r : SlotRecord) (fate : Fate) :
    ∃ status raw value, r.meets fate = { r with status, raw, value } := by
  cases fate with
  | refused status => exact ⟨_, _, _, rfl⟩
  | settled o => cases o <;> exact ⟨_, _, _, rfl⟩

theorem exists_under_eq (r : SlotRecord) (fates : Fates) :
    ∃ status raw value, r.under fates = { r with status, raw, value } := by
  unfold under
  cases fates.lookup r.key with
  | none => exact ⟨_, _, _, rfl⟩
  | some fate => exact r.exists_meets_eq fate

theorem type_under : (r.under fates).type = r.type := by
  obtain ⟨status, raw, value, h⟩ := r.exists_under_eq fates
  rw [h]

theorem element_under (t : Ty) (i : Nat) : (r.under fates).element t i = r.element t i := by
  obtain ⟨status, raw, value, h⟩ := r.exists_under_eq fates
  rw [h]
  rfl

theorem under_refused_eq (r : SlotRecord) (changes : List (RecordKey × Status)) :
    r.under (changes.map fun c => (c.1, .refused c.2)) = r ∨
      ∃ c ∈ changes, r.under (changes.map fun c => (c.1, .refused c.2)) =
        { r with status := c.2 } := by
  cases hl : (changes.map fun c => (c.1, Fate.refused c.2)).lookup r.key with
  | none => exact .inl (under_eq_self (lookup_eq_none_iff_keys.1 hl))
  | some fate =>
    right
    obtain ⟨before, behind, hlist, -⟩ := List.lookup_eq_some_iff.1 hl
    have hmem : (r.key, fate) ∈ changes.map fun c => (c.1, Fate.refused c.2) := hlist ▸ by simp
    obtain ⟨c, hc, heq⟩ := List.mem_map.1 hmem
    obtain rfl : Fate.refused c.2 = fate := congrArg Prod.snd heq
    refine ⟨c, hc, ?_⟩
    rw [under, hl]
    rfl

end SlotRecord

namespace LayoutStore

variable {s after : LayoutStore} {fates : Fates}

theorem find?_under (key : RecordKey) :
    (s.under fates).find? key = (s.find? key).map (·.under fates) := by
  rw [find?, find?, under, List.find?_map]
  simp only [Function.comp_def, SlotRecord.key_under]

theorem Holds.under {r : SlotRecord} (h : s.Holds r) (fates : Fates) : (s.under fates).Holds r := by
  obtain ⟨q, hq, hsame⟩ := h
  obtain ⟨status, raw, value, hunder⟩ := q.exists_under_eq fates
  refine ⟨q.under fates, by rw [find?_under, hq]; rfl, ?_⟩
  rw [hunder]
  exact hsame

/-! ## Elements are added -/

theorem exists_of_limited? {r : SlotRecord} {limit : Nat} {c : RecordKey × Status}
    (h : r.limited? limit = some c) : c.1 = r.key ∧ c.2.isResolved = false := by
  unfold SlotRecord.limited? at h
  split at h
  · split at h
    · obtain rfl := Option.some.inj h
      exact ⟨rfl, rfl⟩
    · exact nomatch h
  · exact nomatch h

theorem keys_limited_sublist (records : List SlotRecord) (limit : Nat) :
    ((records.filterMap (·.limited? limit)).map Prod.fst).Sublist (records.map (·.key)) := by
  induction records with
  | nil => exact .slnil
  | cons r records ih =>
    rw [List.filterMap_cons, List.map_cons]
    cases h : r.limited? limit with
    | none => exact ih.cons _
    | some c =>
      simp only [List.map_cons, (exists_of_limited? h).1]
      exact ih.cons_cons _

/-- What is told of the arrays with too many elements. -/
def limits (s : LayoutStore) (limit : Nat) : Fates :=
  (s.records.filterMap (·.limited? limit)).map fun c => (c.1, .refused c.2)

/-- **Spelling out arrays** sets limits and adds elements. -/
theorem expandArrays_grows (hkeys : (s.records.map (·.key)).Nodup) {limit added : Nat}
    (h : s.expandArrays limit = (after, .ok added)) :
    (s.under (s.limits limit)).Grows (s.records.flatMap (·.elements limit)) after := by
  have hsub := keys_limited_sublist s.records limit
  unfold expandArrays at h
  simp only [setStatuses_eq (hkeys.sublist hsub) hsub.subset] at h
  split at h
  · next hall =>
    obtain ⟨rfl, -⟩ := Prod.mk.inj h
    exact insertAll_grows hall
  · exact nomatch (Prod.mk.inj h).2

/-- A limit is told of a record that has its length, and makes none wait. -/
theorem limits_keep (r : SlotRecord) (limit : Nat) :
    (r.under (s.limits limit)).value = r.value ∧
      (r.isReadable = false → (r.under (s.limits limit)).isReadable = false) := by
  rcases r.under_refused_eq (s.records.filterMap (·.limited? limit)) with h | ⟨c, hc, h⟩
  · rw [limits, h]
    exact ⟨rfl, id⟩
  · obtain ⟨q, -, hq⟩ := List.mem_filterMap.1 hc
    rw [limits, h]
    refine ⟨rfl, fun _ => ?_⟩
    simp [SlotRecord.isReadable, (exists_of_limited? hq).2]

end LayoutStore

namespace Fetch

variable {config : ReaderConfig} {address : Address} {s after : LayoutStore}
  {total : FetchSummary} {σ : Type} {w : Answerer Round (fun _ => List (List Settled)) σ}

theorem elements_run (hkeys : (s.records.map (·.key)).Nodup) (hw : w.Completes)
    {summary : FetchSummary} {state : σ}
    (h : ((elements config address s summary).run w state).1 = (after, .ok total)) :
    ∃ grown added fates, s.expandArrays config.maxExpandedElements = (grown, .ok added) ∧
      after = grown.under fates ∧
      fates.map Prod.fst ⊆ (ReadPlan.waiting grown).map (·.key) := by
  unfold elements at h
  split at h
  · exact nomatch (Prod.mk.inj h).2
  · next grown hgrown =>
    obtain ⟨rfl, -⟩ := Prod.mk.inj h
    exact ⟨_, 0, [], hgrown, LayoutStore.under_nil.symm, List.nil_subset _⟩
  · next grown added _ hgrown =>
    have hgrownKeys : (grown.records.map (·.key)).Nodup :=
      (LayoutStore.expandArrays_grows hkeys hgrown).keys (by rwa [LayoutStore.keys_under])
    have htold : Round.MayTell (jobs config address grown)
        ((w.answer state (jobs config address grown)).1 ++ []) := by
      rw [List.append_nil]
      exact hw state _
    rw [Dialogue.run_map, round_run_part hgrownKeys htold rfl] at h
    obtain ⟨rfl, -⟩ := Prod.mk.inj h
    exact ⟨grown, added, _, hgrown, rfl, keys_fates_subset htold⟩

/-- A fetch that spells out arrays is a round and, behind it, the elements. -/
theorem values_run_elements (h : s.InOrder) (hw : w.Completes)
    (hexpand : config.expandDynamicArrays = true) {context : ChainContext} {state : σ}
    (hfetch : ((values config context s).run w state).1 = (after, .ok total)) :
    ∃ told summary state', Round.MayTell (jobs config context.storageTarget s) told ∧
      ((elements config context.storageTarget (s.under (fates config s told)) summary).run w
        state').1 = (after, .ok total) := by
  unfold values at hfetch
  split at hfetch
  · exact nomatch (Prod.mk.inj hfetch).2
  · rw [Dialogue.run_bind, round_run h hw] at hfetch
    simp only at hfetch
    exact ⟨_, _, _, hw state _, hfetch⟩

/-- **A fetch adds the elements of an array whose length it leaves**, up to the limit. -/
theorem holds_element (h : s.InOrder) (hw : w.Completes)
    (hexpand : config.expandDynamicArrays = true) {context : ChainContext} {state : σ}
    (hfetch : ((values config context s).run w state).1 = (after, .ok total)) {q : SlotRecord}
    (hq : q ∈ s.records) {element : Ty} (htype : q.type.stored = .dynamicArray element)
    {read : SlotRecord} (hread : after.find? q.key = some read) {n : Word}
    (hn : read.value = some (.length n)) {i : Nat}
    (hi : i < min n.toNat config.maxExpandedElements) : after.Holds (q.element element i) := by
  obtain ⟨told, summary, state', htold, helements⟩ := values_run_elements h hw hexpand hfetch
  have hkeys : ((s.under (fates config s told)).records.map (·.key)).Nodup := by
    rw [LayoutStore.keys_under]
    exact h.keys
  obtain ⟨grown, added, later, hgrown, rfl, hlater⟩ := elements_run hkeys hw helements
  have hgrows := LayoutStore.expandArrays_grows hkeys hgrown
  -- the array as the first round leaves it, and as it is told of its limit
  let q₁ := q.under (fates config s told)
  let q₂ := q₁.under ((s.under (fates config s told)).limits config.maxExpandedElements)
  have hq₁ : q₁ ∈ (s.under (fates config s told)).records := List.mem_map_of_mem hq
  have hq₂ : q₂ ∈ grown.records := hgrows.before.subset (List.mem_map_of_mem hq₁)
  have hkey : q₂.key = q.key := by simp only [q₁, q₂, SlotRecord.key_under]
  obtain ⟨hvalue, hwaits⟩ := LayoutStore.limits_keep (s := s.under (fates config s told)) q₁
    config.maxExpandedElements
  have hgrownKeys : (grown.records.map (·.key)).Nodup :=
    hgrows.keys (by rwa [LayoutStore.keys_under])
  -- the second round does not touch it
  have hread₂ : read = q₂ := by
    have hfound : grown.find? q.key = some q₂ := by
      rw [← hkey]
      exact find?_of_nodup hgrownKeys hq₂
    rw [LayoutStore.find?_under, hfound] at hread
    obtain rfl := Option.some.inj hread
    refine SlotRecord.under_eq_self fun hmem => ?_
    obtain ⟨other, hother, hsame⟩ := List.mem_map.1 (hlater hmem)
    obtain ⟨hothers, hreadable⟩ := List.mem_filter.1 hother
    obtain rfl := List.inj_on_of_nodup_map hgrownKeys hothers hq₂ hsame
    rw [hwaits (isReadable_under h htold hq)] at hreadable
    exact nomatch hreadable
  have hlength : q₁.readLength? = some (element, n) := by
    have hn₁ : q₁.value = some (.length n) := by rw [← hvalue, ← hn, hread₂]
    rw [SlotRecord.readLength?, SlotRecord.type_under, htype, hn₁]
  have hadded : q.element element i ∈ (s.under (fates config s told)).records.flatMap
      (·.elements config.maxExpandedElements) := by
    refine List.mem_flatMap.2 ⟨q₁, hq₁, ?_⟩
    rw [SlotRecord.elements, hlength, ← SlotRecord.element_under]
    exact List.mem_map_of_mem (List.mem_range.2 hi)
  exact (hgrows.holds _ hadded).under later

end Fetch

/-! ## The path to an element -/

/-- The records say the same of where a value lies, and call it by the same name. -/
structure SlotRecord.SamePlace (r q : SlotRecord) : Prop where
  contract : r.contract = q.contract
  path : r.path.text = q.path.text
  declaredIn : r.declaredIn = q.declaredIn
  location : r.location = q.location
  size : r.size = q.size

/-- Making a type ready leaves it as it is exactly where it was ready. -/
theorem materialize_eq_self_iff {d : Declarations} {structs : StructTable} (hs : d.Defines structs)
    {t u : Ty} {e : TypeExpr} (ht : t.Reads d e) (hu : materialize structs t = .ok u) :
    t = u ↔ t.Settled := by
  obtain ⟨v, hv, -, hset⟩ := materialize_reads hs ht
  obtain rfl := Except.ok.inj (hu.symm.trans hv)
  constructor
  · rintro rfl
    exact hset
  · intro ht
    exact Except.ok.inj ((materialize_of_settled structs ht).symm.trans hu)

/-- **Elements that a fetch adds agree with the paths to them**, but for their types. Where a fetch
that spells out arrays has read the length of an array that a resolver gave, there is a record under
the path of each element up to the limit. What the resolver finds at this path says the same of
contract, declaration, slot, offset and size, and of the type exactly where the type of the elements
is ready as it stands in the type of the array. -/
theorem expanded_element_agrees {text : String} {m : Model} (hm : Model.parse text = .ok m)
    {limits : ResolverConfig} {s : LayoutStore} (hs : (Resolver.mk m limits).Makes s)
    {q : SlotRecord} (hq : q ∈ s.records) (hdepth : q.path.depth < limits.maxDepth) {element : Ty}
    (htype : q.type = .dynamicArray element) {σ : Type}
    {w : Answerer Round (fun _ => List (List Settled)) σ} (hw : w.Completes)
    {config : ReaderConfig} (hexpand : config.expandDynamicArrays = true) {context : ChainContext}
    {state : σ} {after : LayoutStore} {summary : FetchSummary}
    (hfetch : ((Fetch.values config context s).run w state).1 = (after, .ok summary))
    {read : SlotRecord} (hread : after.find? q.key = some read) {n : Word}
    (hn : read.value = some (.length n)) {i : Nat}
    (hi : i < min n.toNat config.maxExpandedElements) :
    ∃ added, after.find? ⟨q.contract, (q.path.child (.index (Word.ofNat i))).text⟩ = some added ∧
      (m.structs.WellNamed → ∃ found, (Resolver.mk m limits).path q.contract
        (q.path.child (.index (Word.ofNat i))) = .ok found) ∧
      ∀ found, (Resolver.mk m limits).path q.contract (q.path.child (.index (Word.ofNat i))) =
          .ok found →
        ∃ first, found.records.head? = some first ∧ added.SamePlace first ∧
          (added.type = first.type ↔ element.Settled) := by
  obtain ⟨d, hd⟩ := Model.parse_describes hm
  have hstored : q.type.stored = .dynamicArray element := by rw [htype]; rfl
  obtain ⟨added, hadded, hsame⟩ :=
    Fetch.holds_element hs.inOrder hw hexpand hfetch hq hstored hread hn hi
  obtain ⟨hlocation, hsize, hty, hdeclared⟩ := SlotRecord.samePlacement_iff.1 hsame
  have hkey : added.key = (q.element element i).key := eq_of_find? hadded
  obtain ⟨p, hfinds⟩ := hs.finds hd hq (Nat.le_of_lt hdepth)
  obtain ⟨e, he, hset⟩ := hfinds.reads hd
  rw [htype] at he hset
  obtain ⟨f, -, hf⟩ := he
  have hspelled : element.SpelledOut := hset
  obtain ⟨u, hu, hur, huset⟩ := materialize_reads hd.structs hf
  have hstep : applyStep q.location q.type (.index (Word.ofNat i)) =
      .ok (elementLocation (dataSlot q.location.slot) element (Word.ofNat i), element,
        .index (Word.ofNat i)) := by
    rw [htype]
    rfl
  have hpath := hfinds.path_child hstep hu hdepth
  let node : Node := ⟨q.path.child (.index (Word.ofNat i)),
    elementLocation (dataSlot q.location.slot) element (Word.ofNat i), u⟩
  refine ⟨added, hadded, fun hwell => ?_, fun found hfound => ?_⟩
  · obtain ⟨found, status, hfound, -⟩ :=
      @insertListing_listing d ⟨m, limits⟩ hd q.contract q.declaredIn node f hur huset hwell
    exact ⟨found, hpath.trans hfound⟩
  · obtain ⟨status, rest, hhead⟩ :=
      @Listing.ofNode_head m.structs limits q.contract q.declaredIn
        (limits.maxDepth - node.path.depth) limits.maxArrayElements node node
        (Node.settles_of_settled huset)
    refine ⟨node.record q.contract q.declaredIn status, ?_, ?_, ?_⟩
    · exact LayoutStore.head?_insertListing hhead (hpath.symm.trans hfound)
    · refine ⟨congrArg RecordKey.contract hkey, congrArg RecordKey.path hkey, hdeclared,
        hlocation, hsize.trans ?_⟩
      show element.footprint.size = u.footprint.size
      rw [footprint_eq_of_reads hf hur hspelled huset.spelledOut]
    · rw [hty]
      exact materialize_eq_self_iff hd.structs hf hu

namespace Sample

/-- A document with a struct that holds rows of its own kind. -/
def rowsText : String :=
  r#"{"contracts":[{"name":"A","variables":[{"name":"s","type":"S"}]}],
    "structs":{"S":[{"name":"a","type":"uint8"},{"name":"rows","type":"S[][]"}]}}"#

def rowsMembers : List Member :=
  [("a", .uint 8), ("rows", .dynamicArray (.dynamicArray (.structRef "S")))]

def rowsModel : Model :=
  ⟨[⟨"A", [⟨"s", "A", 0, .struct "S" rowsMembers, false, false⟩], []⟩], [("S", rowsMembers)]⟩

theorem parse_rowsText : Model.parse rowsText = .ok rowsModel :=
  eq_ok_of_any_beq (by decide +kernel)

/-- Says of every array that it has one element. -/
def ones : Address → Word → Word := fun _ _ => 1

def spellsOut : ReaderConfig := { expandDynamicArrays := true }

end Sample

/-- An array of arrays of structs: the element that is added is not ready for its place. -/
theorem expanded_element_agrees_rows : Model.parse Sample.rowsText = .ok Sample.rowsModel ∧
    ∃ s q after summary read, (Resolver.mk Sample.rowsModel {}).fullLayout ["A"] = .ok s ∧
      q ∈ s.records ∧ q.path = ⟨"s", [.field "rows"]⟩ ∧
      q.type = .dynamicArray (.dynamicArray (.structRef "S")) ∧
      ((Fetch.values Sample.spellsOut Sample.context s).run
        (memoryReader Sample.ones).inTurn ()).1 = (after, .ok summary) ∧
      after.find? q.key = some read ∧ read.value = some (.length 1) ∧
      ∃ added found first,
        after.find? ⟨q.contract, (q.path.child (.index 0)).text⟩ = some added ∧
        (Resolver.mk Sample.rowsModel {}).path q.contract (q.path.child (.index 0)) = .ok found ∧
        found.records.head? = some first ∧ added.SamePlace first ∧ added.type ≠ first.type := by
  obtain ⟨s, hs, hcheck⟩ := exists_ok_of_any
    (x := (Resolver.mk Sample.rowsModel {}).fullLayout ["A"])
    (p := fun s => s.records.any fun q => q.path == ⟨"s", [.field "rows"]⟩ &&
      q.type == .dynamicArray (.dynamicArray (.structRef "S")) &&
      ((Fetch.values Sample.spellsOut Sample.context s).run
        (memoryReader Sample.ones).inTurn ()).1.2.toOption.isSome &&
      (((Fetch.values Sample.spellsOut Sample.context s).run
        (memoryReader Sample.ones).inTurn ()).1.1.find? q.key).any
          (·.value == some (.length 1))) <| by decide +kernel
  obtain ⟨q, hq, hcheck⟩ := List.any_eq_true.1 hcheck
  simp only [Bool.and_eq_true, beq_iff_eq, Option.isSome_iff_exists, Option.any_eq_true] at hcheck
  obtain ⟨⟨⟨hpath, htype⟩, summary, hsummary⟩, read, hread, hvalue⟩ := hcheck
  have hfetch : ((Fetch.values Sample.spellsOut Sample.context s).run
      (memoryReader Sample.ones).inTurn ()).1 = (_, .ok summary) :=
    Prod.ext rfl (eq_ok_of_toOption hsummary)
  have hwell : Sample.rowsModel.structs.WellNamed := by
    unfold StructTable.WellNamed
    decide
  obtain ⟨added, hadded, hfound, hagrees⟩ := expanded_element_agrees Sample.parse_rowsText
    (.fullLayout hs) hq (by rw [hpath]; decide) htype (Answerer.inTurn_completes _) rfl hfetch
    hread hvalue (i := 0) (by decide)
  obtain ⟨found, hfound⟩ := hfound hwell
  obtain ⟨first, hfirst, hsame, htypes⟩ := hagrees found hfound
  exact ⟨Sample.parse_rowsText, s, q, _, summary, read, hs, hq, hpath, htype, hfetch, hread,
    hvalue, added, found, first, hadded, hfound, hfirst, hsame, fun h => htypes.1 h⟩

end StorageAtlas
