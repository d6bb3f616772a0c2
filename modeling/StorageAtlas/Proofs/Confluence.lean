import StorageAtlas.Proofs.JobPool
import StorageAtlas.Proofs.SharedReads

/-!
# The order of ends does not matter

The jobs of a round settle different records, so what they tell can be applied in any order, and
some of it can be applied without the rest. `values_confluent`: with a reader whose answers depend
on the questions alone, a fetch ends in one store and one summary, however its jobs are interleaved;
and where it breaks off, each record is as it was or as it is in the end. Only the keys have to be
different. Records need not be in order: one in front of its owner may be in no job at all, and
then stays as it was in every run.
-/

namespace StorageAtlas

theorem lookup_eq_of_perm {α β : Type} [BEq α] [LawfulBEq α] {l l' : List (α × β)} (h : l.Perm l')
    (hkeys : (l.map Prod.fst).Nodup) (key : α) : l.lookup key = l'.lookup key := by
  cases hl : l.lookup key with
  | none =>
    have hnone := lookup_eq_none_iff_keys.1 hl
    exact (lookup_eq_none_iff_keys.2 fun hmem => hnone ((h.map _).symm.subset hmem)).symm
  | some value =>
    obtain ⟨before, behind, rfl, -⟩ := List.lookup_eq_some_iff.1 hl
    have hmem : (key, value) ∈ l' := h.subset (by simp)
    exact (lookup_of_mem ((h.map _).nodup_iff.1 hkeys) hmem).symm

namespace SlotRecord

variable {r : SlotRecord} {fates fates' whole : Fates}

theorem under_eq_of_perm (h : fates.Perm fates') (hkeys : (fates.map Prod.fst).Nodup) :
    r.under fates = r.under fates' := by
  rw [under, under, lookup_eq_of_perm h hkeys]

/-- Some of the changes leave a record as it was, or make of it what all of them make. -/
theorem under_eq_or (h : (fates ++ fates').Perm whole) (hkeys : (whole.map Prod.fst).Nodup) :
    r.under fates = r ∨ r.under fates = r.under whole := by
  by_cases hmem : r.key ∈ fates.map Prod.fst
  · right
    rw [← under_eq_of_perm h ((h.map _).nodup_iff.2 hkeys), under, under, List.lookup_append]
    cases hl : fates.lookup r.key with
    | none => exact absurd hmem (lookup_eq_none_iff_keys.1 hl)
    | some fate => rfl
  · exact .inl (under_eq_self hmem)

/-- A value comes with its bytes, and what could not be read or told has neither. -/
def IsWhole (r : SlotRecord) : Prop :=
  (r.value.isSome → r.raw.isSome) ∧
    ∀ reason, r.status = .readFailed reason ∨ r.status = .unresolved reason →
      r.raw = none ∧ r.value = none

theorem isWhole_of_blank (hraw : r.raw = none) (hvalue : r.value = none) : r.IsWhole := by
  simp [IsWhole, hraw, hvalue]

theorem isWhole_meets (h : r.isReadable) (hraw : r.raw = none) (hvalue : r.value = none)
    (fate : Fate) : (r.meets fate).IsWhole := by
  cases fate with
  | refused status => exact isWhole_of_blank hraw hvalue
  | settled o =>
    cases o with
    | decoded raw value words =>
      -- only here the status stays, and it says that the place is known
      have hstatus : r.status.isResolved := by simp_all [isReadable]
      refine ⟨fun _ => rfl, fun reason hfailed => ?_⟩
      rcases hfailed with hfailed | hfailed <;>
      · rw [show r.status = _ from hfailed] at hstatus
        exact absurd hstatus Bool.false_ne_true
    | incomplete raw reason words => simp [IsWhole, meets]
    | unresolved reason => exact isWhole_of_blank hraw hvalue
    | failed reason => exact isWhole_of_blank rfl rfl

end SlotRecord

theorem LayoutStore.under_eq_of_perm {s : LayoutStore} {fates fates' : Fates}
    (h : fates.Perm fates') (hkeys : (fates.map Prod.fst).Nodup) :
    s.under fates = s.under fates' :=
  congrArg LayoutStore.mk (List.map_congr_left fun _ _ => SlotRecord.under_eq_of_perm h hkeys)

theorem FetchSummary.count_comm (a : FetchSummary) (o o' : Outcome) :
    (a.count o).count o' = (a.count o').count o := by
  cases o <;> cases o' <;> simp [count, Nat.add_right_comm]

namespace Fetch

variable {config : ReaderConfig} {address : Address} {s : LayoutStore}
  {told told' rest : List (List Settled)}

/-! ## What is told, in parts and in other orders -/

theorem fates_append : fates config s (told ++ rest) =
    fates config s told ++ rest.flatten.map fun t => (t.1, .settled t.2) := by
  simp [fates]

theorem fates_perm (h : told.Perm told') : (fates config s told).Perm (fates config s told') :=
  (h.flatten.map _).append_left _

theorem summary_eq_of_perm (h : told.Perm told') : summary config s told = summary config s told' :=
  haveI : RightCommutative fun (sum : FetchSummary) (t : Settled) => sum.count t.2 :=
    ⟨fun a t t' => a.count_comm t.2 t'.2⟩
  h.flatten.foldl_eq _

theorem exists_keys_fates_append (htold : Round.MayTell (jobs config address s) told) :
    ∃ missed, ((fates config s told).map Prod.fst ++ missed).Perm
      ((ReadPlan.waiting s).map (·.key)) := by
  rw [jobs, ReadPlan.of_eq] at htold
  obtain ⟨missed, hmissed⟩ := ReadPlan.exists_jobsFor_append_perm (ReadPlan.small config s)
  have hsmall : (told.flatten.map Prod.fst ++ missed.map (·.key)).Perm
      ((ReadPlan.small config s).map (·.key)) := by
    have hkeys := hmissed.map (·.key)
    rw [List.map_append, List.map_map] at hkeys
    exact ((Job.keys_of_mayTell htold).append_right _).trans hkeys
  have hwhole := (ReadPlan.small_append_large config s).map (·.key)
  rw [List.map_append] at hwhole
  refine ⟨missed.map (·.key), ?_⟩
  rw [fates, ReadPlan.of_eq, List.map_append, List.map_map, List.map_map, List.map_map,
    List.append_assoc]
  exact (hsmall.append_left _).trans (List.perm_append_comm.trans hwhole)

section Told

variable (hkeys : (s.records.map (·.key)).Nodup)
  (htold : Round.MayTell (jobs config address s) (told ++ rest))

include htold in
theorem keys_fates_subset :
    (fates config s told).map Prod.fst ⊆ (ReadPlan.waiting s).map (·.key) := by
  obtain ⟨missed, hperm⟩ := exists_keys_fates_append htold
  rw [fates_append, List.map_append, List.append_assoc] at hperm
  exact List.Subset.trans (List.subset_append_left _ _) hperm.subset

include hkeys htold

theorem nodup_keys_fates : ((fates config s (told ++ rest)).map Prod.fst).Nodup := by
  obtain ⟨missed, hperm⟩ := exists_keys_fates_append htold
  have hwaiting := hkeys.sublist ((List.filter_sublist (p := (·.isReadable))).map _)
  exact (List.nodup_append'.1 (hperm.nodup_iff.2 hwaiting)).1

/-- **A round that is told of some of its jobs** applies that. -/
theorem round_run_part {σ : Type} {w : Answerer Round (fun _ => List (List Settled)) σ} {state : σ}
    (h : (w.answer state (jobs config address s)).1 = told) :
    ((round config address s).run w state).1 =
      (s.under (fates config s told), .ok (summary config s told)) := by
  have honce := nodup_keys_fates hkeys htold
  rw [fates_append, List.map_append] at honce
  rw [round_run_of h (List.nodup_append'.1 honce).1
    (List.Subset.trans (keys_fates_subset htold) (List.filter_sublist.map _).subset)]

/-- Of a store without values, some of the jobs make a store of whole records. -/
theorem isWhole_under (hblank : ∀ r ∈ s.records, r.raw = none ∧ r.value = none) {r : SlotRecord}
    (hr : r ∈ s.records) : (r.under (fates config s told)).IsWhole := by
  obtain ⟨hraw, hvalue⟩ := hblank r hr
  cases hl : (fates config s told).lookup r.key with
  | none =>
    rw [SlotRecord.under_eq_self (lookup_eq_none_iff_keys.1 hl)]
    exact SlotRecord.isWhole_of_blank hraw hvalue
  | some fate =>
    have hmem : r.key ∈ (fates config s told).map Prod.fst := by
      by_contra hnot
      rw [lookup_eq_none_iff_keys.2 hnot] at hl
      exact nomatch hl
    obtain ⟨q, hq, hkey⟩ := List.mem_map.1 (keys_fates_subset htold hmem)
    obtain ⟨hqs, hwaits⟩ := List.mem_filter.1 hq
    obtain rfl := List.inj_on_of_nodup_map hkeys hqs hr hkey
    rw [SlotRecord.under, hl]
    exact SlotRecord.isWhole_meets hwaits hraw hvalue fate

end Told

/-! ## Rounds that are run by a pool -/

section Pool

variable {reply : (q : ReadRequest) → ReadReply} (hkeys : (s.records.map (·.key)).Nodup)

include hkeys

/-- **However its jobs are interleaved**, a round leaves the same. -/
theorem round_run_pools {σ : Type} {w : Answerer Round (fun _ => List (List Settled)) σ}
    {fanOut : Nat} (hw : w.Pools reply fanOut) (state : σ) :
    ((round config address s).run w state).1 =
      (s.under (fates config s (allTold reply config address s)),
        .ok (summary config s (allTold reply config address s))) := by
  obtain ⟨c, hreaches, hdone, htold⟩ := hw state (jobs config address s)
  have hperm : (c.told ++ []).Perm (allTold reply config address s) := by
    rw [List.append_nil]
    exact hreaches.told_perm hdone
  have honce := nodup_keys_fates hkeys (mayTell_of_perm hperm)
  rw [round_run_part hkeys (mayTell_of_perm hperm) htold]
  rw [List.append_nil] at honce hperm
  rw [LayoutStore.under_eq_of_perm (fates_perm hperm) honce, summary_eq_of_perm hperm]

theorem round_run_breaksOff {σ : Type} {w : Answerer Round (fun _ => List (List Settled)) σ}
    {fanOut : Nat} (hw : w.BreaksOff reply fanOut) (state : σ) :
    ∃ told rest, (told ++ rest).Perm (allTold reply config address s) ∧
      ((round config address s).run w state).1 =
        (s.under (fates config s told), .ok (summary config s told)) := by
  obtain ⟨c, hreaches, htold⟩ := hw state (jobs config address s)
  obtain ⟨rest, hperm⟩ := hreaches.exists_told_append
  exact ⟨c.told, rest, hperm, round_run_part hkeys (mayTell_of_perm hperm) htold⟩

end Pool

/-- Without the elements of arrays, a fetch is a round, if there is a layout to read. -/
theorem run_values (hexpand : config.expandDynamicArrays = false) (context : ChainContext)
    {σ : Type} (w : Answerer Round (fun _ => List (List Settled)) σ) (state : σ) :
    ((values config context s).run w state).1 =
      if context.storageAddress.isSome && s.isEmpty then (s, .error .proxyWithoutLayout)
      else ((round config context.storageTarget s).run w state).1 := by
  unfold values
  split
  · rfl
  · rw [Dialogue.run_bind]
    generalize ((round config context.storageTarget s).run w state) = ended
    obtain ⟨⟨after, result⟩, state⟩ := ended
    cases result with
    | error e => rfl
    | ok summary =>
      simp only [hexpand]
      rfl

end Fetch

/-- Each record of a store is as it was before or as it is in the end. -/
def LayoutStore.PartWay (left before after : LayoutStore) : Prop :=
  ∀ i : Nat, left.records[i]? = before.records[i]? ∨ left.records[i]? = after.records[i]?

/-- Whatever order the reads of a fetch come in, it ends in `after` with `result`. -/
structure Fetch.EndsIn (reply : (q : ReadRequest) → ReadReply) (config : ReaderConfig)
    (context : ChainContext) (s after : LayoutStore) (result : Except Error FetchSummary) :
    Prop where
  /-- A fetch has a summary, but for one through a proxy that is given no layout. -/
  succeeds : (∃ summary, result = .ok summary) ∨
    result = .error .proxyWithoutLayout ∧ context.storageAddress.isSome ∧ s.records = []
  keys : after.records.map (·.key) = s.records.map (·.key)
  /-- All jobs were run, in any interleaving. -/
  done {σ : Type} {w : Answerer Round (fun _ => List (List Settled)) σ} (state : σ) :
    w.Pools reply config.fanOut → ((Fetch.values config context s).run w state).1 = (after, result)
  /-- The jobs were dropped at any point. -/
  dropped {σ : Type} {w : Answerer Round (fun _ => List (List Settled)) σ} (state : σ) :
    w.BreaksOff reply config.fanOut →
      ((Fetch.values config context s).run w state).1.1.PartWay s after
  whole {σ : Type} {w : Answerer Round (fun _ => List (List Settled)) σ} (state : σ) :
    w.BreaksOff reply config.fanOut → (∀ r ∈ s.records, r.raw = none ∧ r.value = none) →
      ∀ r ∈ ((Fetch.values config context s).run w state).1.1.records, r.IsWhole

/-- **Fetches are confluent.** In a store of different keys, with a reader whose answers depend on
the questions alone and without the elements of arrays, a fetch ends in one store and with one
summary, however its jobs are interleaved and whichever end first. Where it breaks off, each record
is as it was or as it is in the end; and if there was no value before, each is whole. -/
theorem values_confluent {s : LayoutStore} (hkeys : (s.records.map (·.key)).Nodup)
    {config : ReaderConfig} (hexpand : config.expandDynamicArrays = false)
    (context : ChainContext) (reply : (q : ReadRequest) → ReadReply) :
    ∃ after result, Fetch.EndsIn reply config context s after result := by
  by_cases hproxy : context.storageAddress.isSome && s.isEmpty
  · obtain ⟨hsome, hempty⟩ := Bool.and_eq_true_iff.1 hproxy
    have hrun {σ : Type} (w : Answerer Round (fun _ => List (List Settled)) σ) (state : σ) :
        ((Fetch.values config context s).run w state).1 = (s, .error .proxyWithoutLayout) := by
      rw [Fetch.run_values hexpand, if_pos hproxy]
    refine ⟨s, .error .proxyWithoutLayout, ?_⟩
    constructor
    case succeeds => exact .inr ⟨rfl, hsome, List.isEmpty_iff.1 hempty⟩
    case keys => rfl
    case done => exact fun state _ => hrun _ state
    case dropped =>
      intro σ w state _ i
      rw [hrun]
      exact .inl rfl
    case whole =>
      intro σ w state _ hblank r hr
      rw [hrun] at hr
      exact SlotRecord.isWhole_of_blank (hblank r hr).1 (hblank r hr).2
  · have hround {σ : Type} (w : Answerer Round (fun _ => List (List Settled)) σ) (state : σ) :
        ((Fetch.values config context s).run w state).1 =
          ((Fetch.round config context.storageTarget s).run w state).1 := by
      rw [Fetch.run_values hexpand, if_neg hproxy]
    let told := Fetch.allTold reply config context.storageTarget s
    refine ⟨s.under (Fetch.fates config s told), .ok (Fetch.summary config s told), ?_⟩
    constructor
    case succeeds => exact .inl ⟨_, rfl⟩
    case keys => exact LayoutStore.keys_under
    case done => exact fun state hw => (hround _ state).trans (Fetch.round_run_pools hkeys hw state)
    case dropped =>
      intro σ w state hw i
      obtain ⟨part, rest, hperm, hrun⟩ := Fetch.round_run_breaksOff hkeys hw state
      have hwhole := @Fetch.fates_perm config s _ _ hperm
      have honce := (hwhole.map Prod.fst).nodup_iff.1
        (Fetch.nodup_keys_fates hkeys (Fetch.mayTell_of_perm hperm))
      rw [Fetch.fates_append] at hwhole
      rw [hround, hrun]
      simp only [LayoutStore.under, List.getElem?_map]
      cases s.records[i]? with
      | none => exact .inl rfl
      | some r => exact (SlotRecord.under_eq_or hwhole honce).imp (congrArg some) (congrArg some)
    case whole =>
      intro σ w state hw hblank r hr
      obtain ⟨part, rest, hperm, hrun⟩ := Fetch.round_run_breaksOff hkeys hw state
      rw [hround, hrun] at hr
      obtain ⟨q, hq, rfl⟩ := List.mem_map.1 hr
      exact Fetch.isWhole_under hkeys (Fetch.mayTell_of_perm hperm) hblank hq

/-- A store whose members stand in front of their owners, read with one job at a time. -/
theorem values_confluent_reversed : ∃ s, (Resolver.mk Sample.model {}).fullLayout ["A"] = .ok s ∧
    (s.records.reverse.map (·.key)).Nodup ∧
    (memoryReader Sample.words).inTurn.Pools (ReadRequest.replyFrom Sample.words)
      (ReaderConfig.fanOut {}) ∧
    ∃ after result,
      Fetch.EndsIn (ReadRequest.replyFrom Sample.words) {} Sample.context ⟨s.records.reverse⟩ after
        result ∧
      ((Fetch.values {} Sample.context ⟨s.records.reverse⟩).run
        (memoryReader Sample.words).inTurn ()).1 = (after, result) := by
  obtain ⟨s, hs, -⟩ := exists_ok_of_any (x := (Resolver.mk Sample.model {}).fullLayout ["A"])
    (p := fun _ => true) <| by decide +kernel
  have hkeys : (s.records.reverse.map (·.key)).Nodup := by
    rw [List.map_reverse, List.nodup_reverse]
    exact (Resolver.Makes.fullLayout hs).inOrder.keys
  have hpools : (memoryReader Sample.words).inTurn.Pools (ReadRequest.replyFrom Sample.words)
      (ReaderConfig.fanOut {}) :=
    Answerer.inTurn_pools (fun _ _ => rfl) (by decide)
  obtain ⟨after, result, hends⟩ := @values_confluent ⟨s.records.reverse⟩ hkeys {} rfl
    Sample.context (ReadRequest.replyFrom Sample.words)
  exact ⟨s, hs, hkeys, hpools, after, result, hends, hends.done () hpools⟩

end StorageAtlas
