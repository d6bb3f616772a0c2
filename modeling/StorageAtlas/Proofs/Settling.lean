import StorageAtlas.Fetch.Snapshot
import StorageAtlas.Proofs.Answers
import StorageAtlas.Proofs.Loading
import StorageAtlas.Proofs.ReadPlans

/-!
# Nothing is lost in a round

`round_settles`: one round over a store that a resolver gave settles every record that waits, once,
whatever the reader does, and touches no other record. Plans leave nothing out (`jobsFor_perm`), a
job settles what it is made of and nothing else (`Job.keys_of_run`), and changes to different
records of a store do not meet (`LayoutStore.under`). So a second fetch has nothing left to read.
-/

namespace StorageAtlas

/-- What a round makes of a record that waits: it is too large to be read, or it is settled. -/
inductive Fate
  | refused (status : Status)
  | settled (o : Outcome)

/-- What is made of the records under some keys. -/
abbrev Fates := List (RecordKey × Fate)

namespace SlotRecord

/-- A record after its fate; its key and its place stay as they are. -/
def meets (r : SlotRecord) : Fate → SlotRecord
  | .refused status => { r with status }
  | .settled (.decoded raw value _) => { r with raw := some raw, value }
  | .settled (.incomplete raw reason _) =>
    { r with raw := some raw, value := none, status := .incomplete reason }
  | .settled (.unresolved reason) => { r with status := .unresolved reason }
  | .settled (.failed reason) => { r with raw := none, value := none, status := .readFailed reason }

/-- A record after the fate found under its key, if there is one. -/
def under (r : SlotRecord) (fates : Fates) : SlotRecord :=
  match fates.lookup r.key with
  | some fate => r.meets fate
  | none => r

variable {r : SlotRecord} {fates : Fates}

@[simp] theorem key_meets (fate : Fate) : (r.meets fate).key = r.key := by
  cases fate with
  | refused status => rfl
  | settled o => cases o <;> rfl

@[simp] theorem key_under : (r.under fates).key = r.key := by
  unfold under
  cases fates.lookup r.key with
  | none => rfl
  | some fate => exact key_meets fate

theorem under_eq_self (h : r.key ∉ fates.map Prod.fst) : r.under fates = r := by
  rw [under, lookup_eq_none_iff_keys.2 h]

/-- A record that was settled waits no more; nor does one that was refused with a reason. -/
theorem isReadable_meets {fate : Fate}
    (h : ∀ status, fate = .refused status → status.isResolved = false) :
    (r.meets fate).isReadable = false := by
  cases fate with
  | refused status => simp [isReadable, meets, h status rfl]
  | settled o => cases o <;> simp [isReadable, meets, Status.isResolved]

end SlotRecord

/-! ## Changes to a store -/

namespace LayoutStore

variable {s : LayoutStore} {fates fates' : Fates} {key : RecordKey}

def under (s : LayoutStore) (fates : Fates) : LayoutStore := ⟨s.records.map (·.under fates)⟩

@[simp] theorem keys_under : (s.under fates).records.map (·.key) = s.records.map (·.key) := by
  rw [under, List.map_map]
  exact List.map_congr_left fun r _ => SlotRecord.key_under

theorem under_nil : s.under [] = s := by
  obtain ⟨records⟩ := s
  exact congrArg LayoutStore.mk (List.map_id' records)

/-- Changes to different records are made independently. -/
theorem under_under (h : (fates.map Prod.fst).Disjoint (fates'.map Prod.fst)) :
    (s.under fates).under fates' = s.under (fates ++ fates') := by
  refine congrArg LayoutStore.mk ?_
  rw [under, List.map_map]
  refine List.map_congr_left fun r _ => ?_
  show (r.under fates).under fates' = r.under (fates ++ fates')
  cases hl : fates.lookup r.key with
  | none =>
    rw [SlotRecord.under_eq_self (lookup_eq_none_iff_keys.1 hl), SlotRecord.under,
      SlotRecord.under, List.lookup_append, hl, Option.none_or]
  | some fate =>
    have hr : r.key ∈ fates.map Prod.fst := by
      rw [← not_not (a := r.key ∈ _), ← lookup_eq_none_iff_keys, hl]
      exact nofun
    have hr' : (r.under fates).key ∉ fates'.map Prod.fst := by
      rw [SlotRecord.key_under]
      exact h hr
    rw [SlotRecord.under_eq_self hr', SlotRecord.under, SlotRecord.under, List.lookup_append, hl,
      Option.some_or]

theorem modify_eq (hkey : key ∈ s.records.map (·.key)) (f : SlotRecord → SlotRecord) :
    s.modify key f = .ok ⟨s.records.map fun r => if r.key = key then f r else r⟩ := by
  obtain ⟨r, hr, rfl⟩ := List.mem_map.1 hkey
  have hfound : s.contains r.key := by
    rw [contains, find?, List.find?_isSome]
    exact ⟨r, hr, beq_self_eq_true _⟩
  rw [modify, if_pos hfound]

theorem under_singleton (fate : Fate) : s.under [(key, fate)] =
    ⟨s.records.map fun r => if r.key = key then r.meets fate else r⟩ := by
  refine congrArg LayoutStore.mk (List.map_congr_left fun r _ => ?_)
  rw [SlotRecord.under, List.lookup_cons]
  by_cases h : r.key = key
  · rw [if_pos h, h, beq_self_eq_true]
  · rw [if_neg h, beq_false_of_ne h]
    rfl

theorem setStatus_eq (hkey : key ∈ s.records.map (·.key)) (status : Status) :
    s.setStatus key status = .ok (s.under [(key, .refused status)]) := by
  rw [setStatus, modify_eq hkey, under_singleton]
  rfl

theorem settle_eq (hkey : key ∈ s.records.map (·.key)) (o : Outcome) :
    s.settle key o = .ok (s.under [(key, .settled o)]) := by
  rw [under_singleton]
  cases o with
  | decoded raw value words => exact modify_eq hkey _
  | unresolved reason => exact modify_eq hkey _
  | failed reason => exact modify_eq hkey _
  | incomplete raw reason words =>
    -- the bytes and the status are set one after the other
    rw [settle, attachValue, modify_eq hkey]
    show modify _ key _ = _
    rw [modify_eq, List.map_map]
    · refine congrArg (Except.ok ∘ LayoutStore.mk) (List.map_congr_left fun r _ => ?_)
      by_cases h : r.key = key
      · have hkept : SlotRecord.key { r with raw := some raw, value := none } = key := h
        simp only [Function.comp_apply, if_pos h, if_pos hkept, SlotRecord.meets]
      · simp only [Function.comp_apply, if_neg h]
    · rw [List.map_map]
      obtain ⟨r, hr, rfl⟩ := List.mem_map.1 hkey
      exact List.mem_map.2 ⟨r, hr, by simp only [Function.comp_apply, if_pos, SlotRecord.key]⟩

/-- **Statuses are set** for different records that are there. -/
theorem setStatuses_eq {changes : List (RecordKey × Status)} : ∀ {s : LayoutStore},
    (changes.map Prod.fst).Nodup → changes.map Prod.fst ⊆ s.records.map (·.key) →
    s.setStatuses changes = .ok (s.under (changes.map fun c => (c.1, .refused c.2))) := by
  induction changes with
  | nil =>
    intro s _ _
    rw [List.map_nil, under_nil]
    rfl
  | cons c changes ih =>
    intro s hkeys hmem
    obtain ⟨key, status⟩ := c
    obtain ⟨hkey, hmem⟩ := List.cons_subset.1 hmem
    obtain ⟨hnew, hkeys⟩ := List.nodup_cons.1 hkeys
    unfold setStatuses
    rw [setStatus_eq hkey]
    simp only
    rw [ih hkeys (by rwa [keys_under]), under_under]
    · rfl
    · refine List.singleton_disjoint.2 ?_
      rwa [List.map_map]

/-- **Outcomes are applied and counted** for different records that are there. -/
theorem settleAll_eq {told : List Settled} : ∀ {s : LayoutStore} (summary : FetchSummary),
    (told.map Prod.fst).Nodup → told.map Prod.fst ⊆ s.records.map (·.key) →
    s.settleAll summary told = (s.under (told.map fun t => (t.1, .settled t.2)),
      .ok (told.foldl (fun sum t => sum.count t.2) summary)) := by
  induction told with
  | nil =>
    intro s summary _ _
    rw [List.map_nil, under_nil]
    rfl
  | cons t told ih =>
    intro s summary hkeys hmem
    obtain ⟨key, o⟩ := t
    obtain ⟨hkey, hmem⟩ := List.cons_subset.1 hmem
    obtain ⟨hnew, hkeys⟩ := List.nodup_cons.1 hkeys
    unfold settleAll
    rw [settle_eq hkey]
    simp only
    rw [ih _ hkeys (by rwa [keys_under]), under_under]
    · rfl
    · refine List.singleton_disjoint.2 ?_
      rwa [List.map_map]

end LayoutStore

/-! ## Counts -/

namespace FetchSummary

/-- How many records were settled. -/
def settled (a : FetchSummary) : Nat := a.resolved + a.incomplete + a.unresolved + a.failed

theorem settled_count (a : FetchSummary) (o : Outcome) : (a.count o).settled = a.settled + 1 := by
  cases o <;> simp only [count, settled] <;> omega

theorem requested_count (a : FetchSummary) (o : Outcome) :
    (a.count o).requested = a.requested := by
  cases o <;> rfl

theorem foldl_count (told : List Settled) : ∀ a : FetchSummary,
    (told.foldl (fun sum t => sum.count t.2) a).settled = a.settled + told.length ∧
      (told.foldl (fun sum t => sum.count t.2) a).requested = a.requested := by
  induction told with
  | nil => intro a; exact ⟨rfl, rfl⟩
  | cons t told ih =>
    intro a
    obtain ⟨hsettled, hrequested⟩ := ih (a.count t.2)
    rw [List.foldl_cons, hsettled, hrequested, settled_count, requested_count, List.length_cons]
    exact ⟨by omega, rfl⟩

end FetchSummary

/-! ## Jobs -/

namespace Job

variable {j : Job} {config : ReaderConfig} {address : Address} {words : List Word}

theorem key_of_settleMember {m : Pending} {settled : Settled}
    (h : (j.settleMember config address words m).Yields settled) : settled.1 = m.key := by
  unfold settleMember at h
  simp only at h
  split at h
  · obtain ⟨o, -, rfl⟩ := Dialogue.yields_map.1 h
    rfl
  · obtain rfl := Dialogue.yields_done.1 h
    rfl

theorem keys_of_settleMembers {ms : List Pending} : ∀ {settled : List Settled},
    (j.settleMembers config address words ms).Yields settled →
      settled.map Prod.fst = ms.map (·.key) := by
  induction ms with
  | nil =>
    intro settled h
    obtain rfl := Dialogue.yields_done.1 h
    rfl
  | cons m ms ih =>
    intro settled h
    obtain ⟨first, hfirst, h⟩ := Dialogue.yields_bind.1 h
    obtain ⟨rest, hrest, rfl⟩ := Dialogue.yields_map.1 h
    rw [List.map_cons, List.map_cons, key_of_settleMember hfirst, ih hrest]

/-- **A job settles what it is made of**, each record once, whether the read succeeds or not. -/
theorem keys_of_run {settled : List Settled} (h : (j.run config address).Yields settled) :
    settled.map Prod.fst = (j.reader :: j.covered).map (·.key) := by
  obtain ⟨result, -, h⟩ := Dialogue.yields_bind.1 h
  cases result with
  | error e =>
    obtain rfl := Dialogue.yields_done.1 h
    rw [allFailed, List.map_map]
    rfl
  | ok words =>
    obtain ⟨o, -, h⟩ := Dialogue.yields_bind.1 h
    obtain ⟨rest, hrest, rfl⟩ := Dialogue.yields_map.1 h
    rw [List.map_cons, List.map_cons, keys_of_settleMembers hrest]

/-- What is told of jobs is told of the records that they are made of. -/
theorem keys_of_mayTell {jobs : List Job} {told : List (List Settled)}
    (h : Round.MayTell (jobs.map (·.run config address)) told) :
    (told.flatten.map Prod.fst).Perm
      ((jobs.flatMap fun j => j.reader :: j.covered).map (·.key)) := by
  obtain ⟨inTurn, hyields, hperm⟩ := h
  refine (hperm.flatten.map _).trans (.of_eq ?_)
  clear hperm told
  induction jobs generalizing inTurn with
  | nil =>
    obtain rfl := List.forall₂_nil_left_iff.1 hyields
    rfl
  | cons j jobs ih =>
    obtain ⟨first, rest, hfirst, hrest, rfl⟩ := List.forall₂_cons_left_iff.1 hyields
    rw [List.flatten_cons, List.map_append, keys_of_run hfirst, ih rest hrest, List.flatMap_cons,
      List.map_append]

end Job

/-! ## Rounds -/

namespace ReadPlan

variable (config : ReaderConfig) (s : LayoutStore)

def waiting : List SlotRecord := s.records.filter (·.isReadable)

/-- The records that wait and are small enough to be read. -/
def small : List SlotRecord := (waiting s).filter fun r => r.slotsToRead ≤ config.slotLimit

/-- The records that wait and are too large. -/
def large : List SlotRecord := (waiting s).filter fun r => config.slotLimit < r.slotsToRead

theorem of_eq : ReadPlan.of config s =
    ⟨(large config s).map fun r => (r.key, StorageAtlas.oversized r.slotsToRead config.slotLimit),
      (small config s).length, jobsFor (small config s)⟩ := by
  simp only [ReadPlan.of, List.partition_eq_filter_filter, large, small, waiting,
    Function.comp_def, ← Nat.not_le, decide_not]

theorem small_append_large : (small config s ++ large config s).Perm (waiting s) := by
  have h := List.filter_append_perm
    (fun r : SlotRecord => decide (r.slotsToRead ≤ config.slotLimit)) (waiting s)
  simpa only [small, large, ← Nat.not_le, decide_not] using h

theorem small_sublist : (small config s).Sublist s.records :=
  List.filter_sublist.trans List.filter_sublist

end ReadPlan

namespace Fetch

/-- The jobs that a round has run. -/
def jobs (config : ReaderConfig) (address : Address) (s : LayoutStore) : Round :=
  (ReadPlan.of config s).jobs.map (·.run config address)

/-- What a round makes of the records that wait, with what is told of its jobs. -/
def fates (config : ReaderConfig) (s : LayoutStore) (told : List (List Settled)) : Fates :=
  (ReadPlan.of config s).oversized.map (fun c => (c.1, .refused c.2)) ++
    told.flatten.map fun t => (t.1, .settled t.2)

/-- The counts of a round. -/
def summary (config : ReaderConfig) (s : LayoutStore) (told : List (List Settled)) :
    FetchSummary :=
  told.flatten.foldl (fun sum t => sum.count t.2)
    { requested := (ReadPlan.of config s).requested,
      incomplete := (ReadPlan.of config s).oversized.length }

/-- The store `after` and the summary say of every record that waited in `s`, and of no other
record, what became of it. -/
structure SettlesAll (config : ReaderConfig) (s : LayoutStore) (fates : Fates)
    (after : LayoutStore) (summary : FetchSummary) : Prop where
  /-- One fate for each record that waits, and for no other. -/
  once : (fates.map Prod.fst).Nodup
  waiting : (fates.map Prod.fst).Perm ((s.records.filter (·.isReadable)).map (·.key))
  applied : after.records = s.records.map fun r => if r.isReadable then r.under fates else r
  noneWaits : ∀ r ∈ after.records, r.isReadable = false
  counted : summary.resolved + summary.incomplete + summary.unresolved + summary.failed =
    (s.records.filter (·.isReadable)).length
  requested : summary.requested +
      ((s.records.filter (·.isReadable)).filter (config.slotLimit < ·.slotsToRead)).length =
    (s.records.filter (·.isReadable)).length

variable {config : ReaderConfig} {address : Address} {s : LayoutStore}

theorem keys_fates (h : s.InOrder) {told : List (List Settled)}
    (htold : Round.MayTell (jobs config address s) told) :
    ((fates config s told).map Prod.fst).Perm ((ReadPlan.waiting s).map (·.key)) := by
  rw [jobs, ReadPlan.of_eq] at htold
  have hkeys : (told.flatten.map Prod.fst).Perm ((ReadPlan.small config s).map (·.key)) := by
    refine (Job.keys_of_mayTell htold).trans ?_
    have hjobs := ReadPlan.jobsFor_perm (h.sublist (ReadPlan.small_sublist config s))
    refine (hjobs.map (·.key)).trans (.of_eq ?_)
    rw [List.map_map]
    rfl
  have hwhole := (ReadPlan.small_append_large config s).map (·.key)
  rw [List.map_append] at hwhole
  refine List.Perm.trans ?_ (List.perm_append_comm.trans hwhole)
  rw [fates, ReadPlan.of_eq, List.map_append, List.map_map, List.map_map, List.map_map]
  exact hkeys.append_left _

theorem nodup_fates (h : s.InOrder) {told : List (List Settled)}
    (htold : Round.MayTell (jobs config address s) told) :
    ((fates config s told).map Prod.fst).Nodup :=
  (keys_fates h htold).nodup_iff.2 (h.keys.sublist (List.filter_sublist.map _))

/-- A round asks for its jobs once, and applies what it is told of them, if that is about different
records that are there. -/
theorem round_run_of {σ : Type} {w : Answerer Round (fun _ => List (List Settled)) σ} {state : σ}
    {told : List (List Settled)} (htold : (w.answer state (jobs config address s)).1 = told)
    (honce : ((fates config s told).map Prod.fst).Nodup)
    (hthere : (fates config s told).map Prod.fst ⊆ s.records.map (·.key)) :
    (round config address s).run w state =
      ((s.under (fates config s told), .ok (summary config s told)),
        (w.answer state (jobs config address s)).2) := by
  rw [fates, List.map_append] at honce hthere
  obtain ⟨hrefused, hsettled, hapart⟩ := List.nodup_append'.1 honce
  obtain ⟨hrefusedThere, hsettledThere⟩ := List.append_subset.1 hthere
  have hset := LayoutStore.setStatuses_eq (by rwa [List.map_map] at hrefused)
    (by rwa [List.map_map] at hrefusedThere)
  have hsettle := fun summary => LayoutStore.settleAll_eq
    (s := s.under ((ReadPlan.of config s).oversized.map fun c => (c.1, .refused c.2)))
    summary (by rwa [List.map_map] at hsettled)
    (by rwa [List.map_map, ← LayoutStore.keys_under] at hsettledThere)
  unfold round
  simp only [hset]
  show ((_, _), _) = _
  rw [← jobs, htold, hsettle, LayoutStore.under_under hapart]
  rfl

/-- A round whose jobs are run to their ends. -/
theorem round_run (h : s.InOrder) {σ : Type}
    {w : Answerer Round (fun _ => List (List Settled)) σ} (hw : w.Completes) (state : σ) :
    (round config address s).run w state =
      ((s.under (fates config s (w.answer state (jobs config address s)).1),
        .ok (summary config s (w.answer state (jobs config address s)).1)),
        (w.answer state (jobs config address s)).2) := by
  have hkeys := keys_fates h (hw state (jobs config address s))
  exact round_run_of rfl (nodup_fates h (hw state _))
    (List.Subset.trans hkeys.subset (List.filter_sublist.map _).subset)

theorem isReadable_under (h : s.InOrder) {told : List (List Settled)}
    (htold : Round.MayTell (jobs config address s) told) {r : SlotRecord} (hr : r ∈ s.records) :
    (r.under (fates config s told)).isReadable = false := by
  have hkeys := keys_fates h htold
  cases hl : (fates config s told).lookup r.key with
  | some fate =>
    rw [SlotRecord.under, hl]
    refine SlotRecord.isReadable_meets fun status hstatus => ?_
    obtain ⟨before, behind, hlist, -⟩ := List.lookup_eq_some_iff.1 hl
    have hmem : (r.key, fate) ∈ fates config s told := hlist ▸ by simp
    rw [fates, ReadPlan.of_eq] at hmem
    rcases List.mem_append.1 hmem with hmem | hmem
    · obtain ⟨c, hc, heq⟩ := List.mem_map.1 hmem
      obtain ⟨q, -, rfl⟩ := List.mem_map.1 hc
      obtain rfl := Fate.refused.inj ((congrArg Prod.snd heq).trans hstatus)
      rfl
    · obtain ⟨t, -, heq⟩ := List.mem_map.1 hmem
      obtain rfl : Fate.settled t.2 = fate := congrArg Prod.snd heq
      exact nomatch hstatus
  | none =>
    have hno := lookup_eq_none_iff_keys.1 hl
    rw [SlotRecord.under_eq_self hno]
    by_contra hreadable
    refine hno (hkeys.symm.subset (List.mem_map_of_mem (List.mem_filter.2 ⟨hr, ?_⟩)))
    simpa using hreadable

theorem under_settlesAll (h : s.InOrder) {told : List (List Settled)}
    (htold : Round.MayTell (jobs config address s) told) :
    SettlesAll config s (fates config s told) (s.under (fates config s told))
      (summary config s told) := by
  have hkeys := keys_fates h htold
  have hwhole := (ReadPlan.small_append_large config s).length_eq
  obtain ⟨hcounted, hrequested⟩ := FetchSummary.foldl_count told.flatten
    ⟨(ReadPlan.of config s).requested, 0, (ReadPlan.of config s).oversized.length, 0, 0, 0⟩
  refine ⟨nodup_fates h htold, hkeys, ?_, ?_, ?_, ?_⟩
  · refine List.map_congr_left fun r hr => ?_
    split
    · rfl
    · next hnot =>
      refine SlotRecord.under_eq_self fun hmem => ?_
      obtain ⟨q, hq, hkey⟩ := List.mem_map.1 (hkeys.subset hmem)
      obtain ⟨hqs, hqr⟩ := List.mem_filter.1 hq
      exact hnot (List.inj_on_of_nodup_map h.keys hqs hr hkey ▸ hqr)
  · intro r hr
    obtain ⟨q, hq, rfl⟩ := List.mem_map.1 hr
    exact isReadable_under h htold hq
  · have hlength := hkeys.length_eq
    simp only [fates, List.length_map, List.length_append] at hlength
    have hsum : (summary config s told).settled =
        (ReadPlan.of config s).oversized.length + told.flatten.length := by
      refine hcounted.trans (congrArg (· + _) ?_)
      simp [FetchSummary.settled]
    exact hsum.trans hlength
  · have hlarge : (summary config s told).requested = (ReadPlan.small config s).length :=
      hrequested.trans (by rw [ReadPlan.of_eq])
    rw [hlarge]
    rw [List.length_append] at hwhole
    exact hwhole

/-! ### Fetching again -/

theorem plan_of_noneWaits (h : ∀ r ∈ s.records, r.isReadable = false) :
    ReadPlan.of config s = ⟨[], 0, []⟩ := by
  have hwaiting : ReadPlan.waiting s = [] :=
    List.filter_eq_nil_iff.2 fun r hr => by simp [h r hr]
  rw [ReadPlan.of_eq, ReadPlan.small, ReadPlan.large, hwaiting]
  rfl

/-- Where no record waits, a fetch asks for nothing and leaves the store as it is. -/
theorem oneByOne_values_of_noneWaits (hexpand : config.expandDynamicArrays = false)
    (h : ∀ r ∈ s.records, r.isReadable = false) (context : ChainContext) :
    ∃ result, oneByOne (values config context s) = .done (s, result) := by
  unfold values
  split
  · exact ⟨_, rfl⟩
  · simp only [round, plan_of_noneWaits h, LayoutStore.setStatuses, hexpand]
    exact ⟨_, rfl⟩

/-- After a fetch without elements of arrays, no record waits. -/
theorem noneWaits_values (h : s.InOrder) {σ : Type}
    {w : Answerer Round (fun _ => List (List Settled)) σ} (hw : w.Completes)
    (hexpand : config.expandDynamicArrays = false) (context : ChainContext) (state : σ) :
    ∀ r ∈ ((values config context s).run w state).1.1.records, r.isReadable = false := by
  unfold values
  split
  · next hproxy =>
    have hempty : s.records = [] := List.isEmpty_iff.1 (Bool.and_eq_true_iff.1 hproxy).2
    intro r hr
    have hr : r ∈ s.records := hr
    rw [hempty] at hr
    exact nomatch hr
  · rw [Dialogue.run_bind, round_run h hw]
    simp only [hexpand]
    exact (under_settlesAll h (hw state _)).noneWaits

end Fetch

/-- **No record is lost or settled twice.** In a store that a resolver gave, one round settles each
record that waits, once, and leaves all others as they are, whatever its jobs are told; a second
fetch without elements of arrays reads nothing and changes nothing. -/
theorem round_settles {r : Resolver} {s : LayoutStore} (hs : r.Makes s) {σ : Type}
    {w : Answerer Round (fun _ => List (List Settled)) σ} (hw : w.Completes)
    (config : ReaderConfig) (state : σ) :
    (∀ address, ∃ after summary,
      ((Fetch.round config address s).run w state).1 = (after, .ok summary) ∧
      Fetch.SettlesAll config s
        (Fetch.fates config s (w.answer state (Fetch.jobs config address s)).1) after summary) ∧
    (config.expandDynamicArrays = false → ∀ context after result,
      ((Fetch.values config context s).run w state).1 = (after, result) →
      ∀ config' : ReaderConfig, config'.expandDynamicArrays = false → ∀ context',
        ∃ result', Fetch.oneByOne (Fetch.values config' context' after) =
          .done (after, result')) := by
  have horder := hs.inOrder
  refine ⟨fun address => ?_,
    fun hexpand context after result hfetch config' hexpand' context' => ?_⟩
  · exact ⟨_, _, congrArg Prod.fst (Fetch.round_run horder hw state),
      Fetch.under_settlesAll horder (hw state _)⟩
  · have hnone := Fetch.noneWaits_values horder hw hexpand context state
    rw [hfetch] at hnone
    exact Fetch.oneByOne_values_of_noneWaits hexpand' hnone context'

/-- A reader that fails the first reads, and gives too few words after them. -/
def Sample.faulty : Rehearsal :=
  { snapshot := {}, faults := [⟨0, 4, .transport .noWord⟩], most := some 1 }

theorem round_settles_faulty : ∃ s, (Resolver.mk Sample.model {}).fullLayout ["A"] = .ok s ∧
    Rehearsal.answerer.inTurn.Completes ∧
    (∀ address, ∃ after summary,
      ((Fetch.round {} address s).run Rehearsal.answerer.inTurn Sample.faulty).1 =
        (after, .ok summary) ∧
      Fetch.SettlesAll {} s (Fetch.fates {} s
        (Rehearsal.answerer.inTurn.answer Sample.faulty (Fetch.jobs {} address s)).1)
        after summary) ∧
    ∀ context after result,
      ((Fetch.values {} context s).run Rehearsal.answerer.inTurn Sample.faulty).1 =
        (after, result) →
      ∃ result', Fetch.oneByOne (Fetch.values {} context after) = .done (after, result') := by
  obtain ⟨s, hs, -⟩ := exists_ok_of_any (x := (Resolver.mk Sample.model {}).fullLayout ["A"])
    (p := fun _ => true) <| by decide +kernel
  have hw := Rehearsal.answerer.inTurn_completes
  obtain ⟨hround, hagain⟩ := round_settles (.fullLayout hs) hw {} Sample.faulty
  refine ⟨s, hs, hw, hround, fun context after result hfetch => ?_⟩
  exact hagain rfl context after result hfetch {} rfl context

end StorageAtlas
