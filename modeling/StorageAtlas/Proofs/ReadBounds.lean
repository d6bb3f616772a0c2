import StorageAtlas.Proofs.ArrayElements
import StorageAtlas.Proofs.Requests

/-!
# Storage cannot force reads

The words of storage can tell of byte strings of any length and of arrays of any number of elements.
`fetch_withinLimits` bounds what a fetch makes of them by its limits alone, whatever words it is
given. No read is for more slots than the longest byte string takes; a record is read for at most
twice, attempts made again aside, and not a second time after the arrays are spelled out; an array
is spelled out up to the limit. A length is converted to 64 bits only after it was compared with a
limit of 64 bits.
-/

namespace StorageAtlas

variable {config : ReaderConfig} {address : Address}

/-! ## Elements -/

namespace SlotRecord

variable {r : SlotRecord} {limit : Nat}

theorem length_elements_le (r : SlotRecord) (limit : Nat) : (r.elements limit).length ≤ limit := by
  unfold elements
  split
  · rw [List.length_map, List.length_range]
    exact Nat.min_le_right _ _
  · exact Nat.zero_le _

/-- Only dynamic arrays have elements to spell out. -/
theorem exists_of_mem_elements {e : SlotRecord} (h : e ∈ r.elements limit) :
    ∃ t i, r.type.stored = .dynamicArray t ∧ e = r.element t i := by
  unfold elements readLength? at h
  split at h
  · next t n hlength =>
    obtain ⟨i, -, rfl⟩ := List.mem_map.1 h
    split at hlength
    · next hstored _ =>
      obtain ⟨rfl, -⟩ := Prod.mk.inj (Option.some.inj hlength)
      exact ⟨_, i, hstored, rfl⟩
    · exact nomatch hlength
  · exact nomatch h

theorem pending_under (r : SlotRecord) (fates : Fates) : (r.under fates).pending = r.pending := by
  obtain ⟨status, raw, value, h⟩ := r.exists_under_eq fates
  rw [h]
  rfl

end SlotRecord

/-- A part of several lists, one behind the other, is made of parts of each. -/
theorem exists_parts_of_sublist_flatMap {α β : Type} {f : α → List β} {as : List α} :
    ∀ {bs : List β}, bs.Sublist (as.flatMap f) →
      ∃ parts, bs = parts.flatten ∧ List.Forall₂ (fun a part => part.Sublist (f a)) as parts := by
  induction as with
  | nil =>
    intro bs h
    rw [List.flatMap_nil, List.sublist_nil] at h
    exact ⟨[], h, .nil⟩
  | cons a as ih =>
    intro bs h
    rw [List.flatMap_cons, List.sublist_append_iff] at h
    obtain ⟨first, rest, rfl, hfirst, hrest⟩ := h
    obtain ⟨parts, rfl, hparts⟩ := ih hrest
    exact ⟨first :: parts, rfl, .cons hfirst hparts⟩

/-- **To spell out arrays** adds some of their elements, whether it succeeds or not. -/
theorem LayoutStore.expandArrays_appends {s grown : LayoutStore}
    (hkeys : (s.records.map (·.key)).Nodup) {limit : Nat} {result : Except Error Nat}
    (h : s.expandArrays limit = (grown, result)) :
    ∃ added, grown.records = (s.under (s.limits limit)).records ++ added.flatten ∧
      List.Forall₂ (fun r new => new.Sublist (r.elements limit)) s.records added := by
  have hsub := keys_limited_sublist s.records limit
  unfold expandArrays at h
  simp only [setStatuses_eq (hkeys.sublist hsub) hsub.subset] at h
  have hgrown : (insertAll (s.under (s.limits limit)) (s.records.flatMap (·.elements limit))).1 =
      grown := by
    split at h
    all_goals
      next hall =>
      rw [limits, hall]
      exact (Prod.mk.inj h).1
  obtain ⟨new, hnew, hsublist⟩ := insertAll_appends ((Prod.eta _).symm :
    insertAll (s.under (s.limits limit)) (s.records.flatMap (·.elements limit)) = (_, _))
  obtain ⟨added, rfl, hadded⟩ := exists_parts_of_sublist_flatMap hsublist
  exact ⟨added, by rw [← hgrown, hnew], hadded⟩

/-- What is added for each of some records: elements of a dynamic array, and not too many. -/
def AddsElements (limit : Nat) (rs : List SlotRecord) (added : List (List SlotRecord)) : Prop :=
  List.Forall₂ (fun r new => new.length ≤ limit ∧
    ∀ e ∈ new, ∃ t i, r.type.stored = .dynamicArray t ∧ e = r.element t i) rs added

theorem exists_addsElements_nil (limit : Nat) (rs : List SlotRecord) :
    ∃ added, AddsElements limit rs added ∧ added.flatten = [] := by
  induction rs with
  | nil => exact ⟨[], .nil, rfl⟩
  | cons r rs ih =>
    obtain ⟨added, hadded, hnone⟩ := ih
    exact ⟨[] :: added, .cons ⟨Nat.zero_le _, nofun⟩ hadded, hnone⟩

/-- What is left where the arrays of a store are spelled out, whose records have met their fates. -/
structure Expanded (limit : Nat) (s : LayoutStore) (fates : Fates) (grown : LayoutStore)
    (added : List (List SlotRecord)) : Prop where
  adds : AddsElements limit s.records added
  keys : grown.records.map (·.key) = (s.records ++ added.flatten).map (·.key)
  /-- No record waits again. -/
  kept : ∀ r ∈ s.records, ∃ q ∈ grown.records, q.key = r.key ∧
    ((r.under fates).isReadable = false → q.isReadable = false)
  /-- Each record has the place and the type of one that was there or is added. -/
  places : ∀ q ∈ grown.records, ∃ r ∈ s.records ++ added.flatten, r.pending = q.pending

theorem LayoutStore.exists_expanded {s grown : LayoutStore}
    (hkeys : (s.records.map (·.key)).Nodup) {fates : Fates} {limit : Nat}
    {result : Except Error Nat} (h : (s.under fates).expandArrays limit = (grown, result)) :
    ∃ added, Expanded limit s fates grown added := by
  obtain ⟨added, hrecords, hadded⟩ := expandArrays_appends (by rwa [keys_under]) h
  refine ⟨added, ?_, ?_, fun r hr => ?_, fun q hq => ?_⟩
  · refine (List.forall₂_map_left_iff.1 hadded).imp fun r new hnew => ⟨?_, fun e he => ?_⟩
    · exact Nat.le_trans hnew.length_le (SlotRecord.length_elements_le _ _)
    · obtain ⟨t, i, hstored, rfl⟩ := SlotRecord.exists_of_mem_elements (hnew.subset he)
      rw [SlotRecord.type_under] at hstored
      exact ⟨t, i, hstored, SlotRecord.element_under t i⟩
  · rw [hrecords, List.map_append, keys_under, keys_under, List.map_append]
  · refine ⟨(r.under fates).under ((s.under fates).limits limit), ?_, ?_, ?_⟩
    · rw [hrecords]
      exact List.mem_append_left _ (List.mem_map_of_mem (List.mem_map_of_mem hr))
    · rw [SlotRecord.key_under, SlotRecord.key_under]
    · exact (limits_keep _ _).2
  · rw [hrecords] at hq
    rcases List.mem_append.1 hq with hq | hq
    · obtain ⟨settled, hsettled, rfl⟩ := List.mem_map.1 hq
      obtain ⟨r, hr, rfl⟩ := List.mem_map.1 hsettled
      refine ⟨r, List.mem_append_left _ hr, ?_⟩
      rw [SlotRecord.pending_under, SlotRecord.pending_under]
    · exact ⟨q, List.mem_append_right _ hq, rfl⟩

/-! ## Rounds -/

namespace Fetch

variable {asked : List (List ReadRequest)} {s after : LayoutStore}
  {result : Except Error FetchSummary}

/-- A round over a store of different keys has its jobs run, and applies what is told of them. -/
theorem round_eq (hkeys : (s.records.map (·.key)).Nodup) :
    round config address s = .ask (jobs config address s) fun told => .done
      ((s.under ((ReadPlan.of config s).oversized.map fun c => (c.1, .refused c.2))).settleAll
        { requested := (ReadPlan.of config s).requested
          incomplete := (ReadPlan.of config s).oversized.length } told.flatten) := by
  have hrefused : (ReadPlan.of config s).oversized.map Prod.fst =
      (ReadPlan.large config s).map (·.key) := by
    rw [ReadPlan.of_eq, List.map_map]
    rfl
  have hsub : ((ReadPlan.large config s).map (·.key)).Sublist (s.records.map (·.key)) :=
    (List.filter_sublist.trans List.filter_sublist).map _
  have hset : s.setStatuses (ReadPlan.of config s).oversized =
      .ok (s.under ((ReadPlan.of config s).oversized.map fun c => (c.1, .refused c.2))) :=
    LayoutStore.setStatuses_eq (hrefused ▸ hkeys.sublist hsub) (hrefused ▸ hsub.subset)
  unfold round
  simp only [hset]
  rfl

theorem round_transcript (hkeys : (s.records.map (·.key)).Nodup)
    (h : Transcript (round config address s) asked (after, result)) :
    ∃ (ran : List (List ReadRequest × List Settled)) (told : List (List Settled)),
      List.Forall₂ (fun job r => Dialogue.Transcript job r.1 r.2) (jobs config address s) ran ∧
      asked = ran.map Prod.fst ∧ Round.MayTell (jobs config address s) told ∧
      after = s.under (fates config s told) ∧ ∃ summary, result = .ok summary := by
  rw [round_eq hkeys] at h
  cases h with
  | @ask _ _ ran told _ _ hran htold h =>
    obtain ⟨rfl, hended⟩ := transcript_done h
    have hmay : Round.MayTell (jobs config address s) told := by
      refine ⟨_, ?_, htold⟩
      exact List.forall₂_map_right_iff.2 (hran.imp fun _ _ hasks =>
        Dialogue.yields_iff_transcript.2 ⟨_, hasks⟩)
    -- the round is held with whoever tells of the jobs what is told
    let teller : Answerer Round (fun _ => List (List Settled)) Unit :=
      ⟨fun _ _ => (told, ()), fun _ _ => ()⟩
    have hrun : ((round config address s).run teller ()).1 =
        (s.under (fates config s told), .ok (summary config s told)) :=
      round_run_part hkeys (by rwa [List.append_nil]) rfl
    rw [round_eq hkeys] at hrun
    obtain ⟨hafter, hresult⟩ := Prod.mk.inj (hended.trans hrun)
    exact ⟨ran, told, hran, List.append_nil _, hmay, hafter, _, hresult⟩

/-- What a round reads, and that it is done with the records that it reads for. -/
structure RoundReads (config : ReaderConfig) (address : Address) (s : LayoutStore) (fates : Fates)
    (asked : List (List ReadRequest)) (ps : List Pending) (reads : List (List SlotRead)) :
    Prop where
  attempts : List.Forall₂ (AttemptsAt config address) reads asked
  causes : ReadsFor config ps reads.flatten
  once : (ps.map (·.key)).Nodup
  small : ∀ p ∈ ps, p.slots ≤ config.slotLimit
  waiting : ∀ p ∈ ps, ∃ r ∈ s.records, r.pending = p ∧ r.isReadable
  done : ∀ r ∈ s.records, r.key ∈ ps.map (·.key) → (r.under fates).isReadable = false

/-- **A round reads for each record once**, and for those that wait. -/
theorem round_reads (hkeys : (s.records.map (·.key)).Nodup)
    (h : Transcript (round config address s) asked (after, result)) :
    ∃ fates ps reads summary, RoundReads config address s fates asked ps reads ∧
      after = s.under fates ∧ result = .ok summary := by
  obtain ⟨ran, told, hran, rfl, htold, rfl, summary, hresult⟩ := round_transcript hkeys h
  refine ⟨fates config s told, ?_⟩
  rw [jobs, ReadPlan.of_eq] at hran
  obtain ⟨reads, hattempts, hreads⟩ := Job.runs_transcript hran
  obtain ⟨missed, hmissed⟩ := ReadPlan.exists_jobsFor_append_perm (ReadPlan.small config s)
  have hwaiting : ∀ p ∈ (ReadPlan.jobsFor (ReadPlan.small config s)).flatMap
      (fun j => j.reader :: j.covered), ∃ r ∈ ReadPlan.small config s, r.pending = p :=
    fun p hp => List.mem_map.1 (hmissed.subset (List.mem_append_left _ hp))
  refine ⟨_, reads, summary, ⟨hattempts, hreads, ?_, ?_, ?_, ?_⟩, rfl, hresult⟩
  · have hperm := hmissed.map (·.key)
    rw [List.map_append, List.map_map] at hperm
    have hsmall := hkeys.sublist ((ReadPlan.small_sublist config s).map _)
    exact (List.nodup_append'.1 (hperm.nodup_iff.2 hsmall)).1
  · intro p hp
    obtain ⟨r, hr, rfl⟩ := hwaiting p hp
    exact of_decide_eq_true (List.mem_filter.1 hr).2
  · intro p hp
    obtain ⟨r, hr, rfl⟩ := hwaiting p hp
    obtain ⟨hrs, hreadable⟩ := List.mem_filter.1 (List.mem_filter.1 hr).1
    exact ⟨r, hrs, rfl, hreadable⟩
  · intro r hr hkey
    have htells := htold
    rw [jobs, ReadPlan.of_eq] at htells
    obtain ⟨t, ht, hsame⟩ := List.mem_map.1 ((Job.keys_of_mayTell htells).symm.subset hkey)
    have hfate : (r.key, Fate.settled t.2) ∈ fates config s told :=
      List.mem_append_right _ (List.mem_map.2 ⟨t, ht, by rw [hsame]⟩)
    have hnodup := nodup_keys_fates hkeys (by rwa [List.append_nil] : Round.MayTell _ (told ++ []))
    rw [List.append_nil] at hnodup
    rw [SlotRecord.under, lookup_of_mem hnodup hfate]
    exact SlotRecord.isReadable_meets fun _ h => Fate.noConfusion h

/-- To spell out arrays takes a round at most, over the store with the elements. -/
theorem elements_transcript {summary : FetchSummary}
    (h : Transcript (elements config address s summary) asked (after, result)) :
    ∃ grown expanded, s.expandArrays config.maxExpandedElements = (grown, expanded) ∧
      (asked = [] ∧ after = grown ∨ ∃ added ended, expanded = .ok added ∧
        Transcript (round config address grown) asked (after, ended)) := by
  unfold elements at h
  split at h
  · next grown e hgrown =>
    obtain ⟨rfl, hended⟩ := transcript_done h
    exact ⟨grown, _, hgrown, .inl ⟨rfl, (Prod.mk.inj hended).1⟩⟩
  · next grown hgrown =>
    obtain ⟨rfl, hended⟩ := transcript_done h
    exact ⟨grown, _, hgrown, .inl ⟨rfl, (Prod.mk.inj hended).1⟩⟩
  · next grown added _ hgrown =>
    obtain ⟨before, behind, ⟨left, ended⟩, hround, hdone, rfl⟩ := transcript_bind h
    obtain ⟨rfl, hended⟩ := transcript_done hdone
    have hafter : after = left := by
      cases ended with
      | ok more => exact (Prod.mk.inj hended).1
      | error e => exact (Prod.mk.inj hended).1
    rw [List.append_nil, hafter]
    exact ⟨grown, _, hgrown, .inr ⟨added, ended, rfl, hround⟩⟩

/-- What a fetch asks for and adds to a store is bounded by its limits. -/
structure WithinLimits (config : ReaderConfig) (address : Address) (s after : LayoutStore)
    (asked : List (List ReadRequest)) (reads : List (List SlotRead))
    (added : List (List SlotRecord)) : Prop where
  /-- No request is for more slots than the longest byte string takes. -/
  size : ∀ requests ∈ asked, ∀ q ∈ requests,
    q.slots.length ≤ max 1 ((config.maxDynamicBytes + 31) / 32)
  /-- The requests of each job are attempts at some reads. -/
  attempts : List.Forall₂ (AttemptsAt config address) reads asked
  /-- They are reads for different records, which were there or are added. -/
  causes : ∃ ps, ReadsFor config ps reads.flatten ∧ (ps.map (·.key)).Nodup ∧
    ∀ p ∈ ps, ∃ r ∈ s.records ++ added.flatten, r.pending = p
  /-- No more than two of them are for one record. -/
  twice : ∀ key, (reads.flatten.filter (·.key == key)).length ≤ 2
  /-- The store grows by elements of its dynamic arrays, of each up to the limit. -/
  grows : after.records.map (·.key) = (s.records ++ added.flatten).map (·.key)
  elements : AddsElements config.maxExpandedElements s.records added

theorem WithinLimits.of_reads {ps : List Pending} {reads : List (List SlotRead)}
    {added : List (List SlotRecord)}
    (hattempts : List.Forall₂ (AttemptsAt config address) reads asked)
    (hreads : ReadsFor config ps reads.flatten) (honce : (ps.map (·.key)).Nodup)
    (hsmall : ∀ p ∈ ps, p.slots ≤ config.slotLimit)
    (hrecords : ∀ p ∈ ps, ∃ r ∈ s.records ++ added.flatten, r.pending = p)
    (hgrows : after.records.map (·.key) = (s.records ++ added.flatten).map (·.key))
    (helements : AddsElements config.maxExpandedElements s.records added) :
    WithinLimits config address s after asked reads added := by
  refine ⟨?_, hattempts, ⟨ps, hreads, honce, hrecords⟩, fun key => ?_, hgrows, helements⟩
  · exact AttemptsAt.length_slots_le_of_jobs hattempts fun read => hreads.length_slots_le hsmall
  · have hcount := List.nodup_iff_count_le_one.1 honce key
    exact Nat.le_trans (hreads.length_filter_le key) (Nat.mul_le_mul_left 2 hcount)

/-- A round keeps to the limits. -/
theorem RoundReads.withinLimits {fates : Fates} {ps : List Pending} {reads : List (List SlotRead)}
    {added : List (List SlotRecord)} (h : RoundReads config address s fates asked ps reads)
    (hgrows : after.records.map (·.key) = (s.records ++ added.flatten).map (·.key))
    (helements : AddsElements config.maxExpandedElements s.records added) :
    WithinLimits config address s after asked reads added := by
  refine .of_reads h.attempts h.causes h.once h.small (fun p hp => ?_) hgrows helements
  obtain ⟨r, hr, hpending, -⟩ := h.waiting p hp
  exact ⟨r, List.mem_append_left _ hr, hpending⟩

/-- **A round reads for other records** than the round before the arrays were spelled out. -/
theorem RoundReads.disjoint {fates later : Fates} {behind : List (List ReadRequest)}
    {ps ps' : List Pending} {reads reads' : List (List SlotRead)} {limit : Nat}
    {grown : LayoutStore} {added : List (List SlotRecord)}
    (hfirst : RoundReads config address s fates asked ps reads)
    (hgrown : Expanded limit s fates grown added) (hkeys : (grown.records.map (·.key)).Nodup)
    (hsecond : RoundReads config address grown later behind ps' reads') :
    (ps.map (·.key)).Disjoint (ps'.map (·.key)) := by
  intro key hkey hkey'
  obtain ⟨p, hp, rfl⟩ := List.mem_map.1 hkey
  obtain ⟨r, hr, rfl, -⟩ := hfirst.waiting p hp
  obtain ⟨p', hp', hsame⟩ := List.mem_map.1 hkey'
  obtain ⟨q, hq, rfl, hreadable⟩ := hsecond.waiting p' hp'
  obtain ⟨q', hq', hkept, hdone⟩ := hgrown.kept r hr
  obtain rfl := List.inj_on_of_nodup_map hkeys hq hq' (hsame.trans hkept.symm)
  rw [hdone (hfirst.done r hr hkey)] at hreadable
  exact Bool.false_ne_true hreadable

/-- Two rounds, and the arrays spelled out between them. -/
theorem withinLimits_of_elements (hkeys : (s.records.map (·.key)).Nodup) {fates : Fates}
    {ps : List Pending} {reads : List (List SlotRead)}
    (hfirst : RoundReads config address s fates asked ps reads) {summary : FetchSummary}
    {behind : List (List ReadRequest)}
    (h : Transcript (elements config address (s.under fates) summary) behind (after, result)) :
    ∃ reads added, WithinLimits config address s after (asked ++ behind) reads added := by
  obtain ⟨grown, expanded, hexpand, hcases⟩ := elements_transcript h
  obtain ⟨added, hgrown⟩ := LayoutStore.exists_expanded hkeys hexpand
  rcases hcases with ⟨rfl, rfl⟩ | ⟨n, ended, rfl, hround⟩
  · rw [List.append_nil]
    exact ⟨reads, added, hfirst.withinLimits hgrown.keys hgrown.adds⟩
  · have hnodup : (grown.records.map (·.key)).Nodup :=
      (LayoutStore.expandArrays_grows (by rwa [LayoutStore.keys_under]) hexpand).keys
        (by rwa [LayoutStore.keys_under, LayoutStore.keys_under])
    obtain ⟨later, ps', reads', -, hsecond, rfl, -⟩ := round_reads hnodup hround
    have hcauses : ReadsFor config (ps ++ ps') (reads ++ reads').flatten := by
      rw [List.flatten_append]
      exact hfirst.causes.append hsecond.causes
    refine ⟨reads ++ reads', added, .of_reads (List.rel_append hfirst.attempts hsecond.attempts)
      hcauses ?_ (List.forall_mem_append.2 ⟨hfirst.small, hsecond.small⟩)
      (List.forall_mem_append.2 ⟨fun p hp => ?_, fun p hp => ?_⟩) ?_ hgrown.adds⟩
    · rw [List.map_append]
      exact hfirst.once.append hsecond.once (hfirst.disjoint hgrown hnodup hsecond)
    · obtain ⟨r, hr, hpending, -⟩ := hfirst.waiting p hp
      exact ⟨r, List.mem_append_left _ hr, hpending⟩
    · obtain ⟨q, hq, rfl, -⟩ := hsecond.waiting p hp
      exact hgrown.places q hq
    · rw [LayoutStore.keys_under, hgrown.keys]

/-- **A fetch keeps to its limits**, in one round or in two. -/
theorem values_withinLimits (hkeys : (s.records.map (·.key)).Nodup) {context : ChainContext}
    (h : Transcript (values config context s) asked (after, result)) :
    ∃ reads added, WithinLimits config context.storageTarget s after asked reads added := by
  obtain ⟨added, hadded, hnone⟩ := exists_addsElements_nil config.maxExpandedElements s.records
  unfold values at h
  split at h
  · obtain ⟨rfl, hended⟩ := transcript_done h
    obtain ⟨rfl, -⟩ := Prod.mk.inj hended
    refine ⟨[], added, .of_reads .nil .nil .nil nofun nofun ?_ hadded⟩
    rw [hnone, List.append_nil]
  · obtain ⟨before, behind, ⟨settled, ended⟩, hround, hrest, rfl⟩ := transcript_bind h
    obtain ⟨fates, ps, reads, summary, hfirst, rfl, rfl⟩ := round_reads hkeys hround
    simp only at hrest
    split at hrest
    · exact withinLimits_of_elements hkeys hfirst hrest
    · obtain ⟨rfl, hended⟩ := transcript_done hrest
      obtain ⟨rfl, -⟩ := Prod.mk.inj hended
      rw [List.append_nil]
      refine ⟨reads, added, hfirst.withinLimits ?_ hadded⟩
      rw [hnone, List.append_nil, LayoutStore.keys_under]

end Fetch

/-! ## Lengths -/

/-- The word as a number of 64 bits, if it is one. -/
def Word.narrow? (w : Word) : Option UInt64 :=
  if w.toNat < UInt64.size then some (UInt64.ofNat w.toNat) else none

theorem Word.narrow?_of_le {w : Word} {limit : Nat} (hlimit : limit < UInt64.size)
    (h : w.toNat ≤ limit) : ∃ n, w.narrow? = some n ∧ n.toNat = w.toNat := by
  have hfits : w.toNat < UInt64.size := Nat.lt_of_le_of_lt h hlimit
  exact ⟨_, if_pos hfits, UInt64.toNat_ofNat_of_lt hfits⟩

/-- Reads a byte string that lies elsewhere by its length in 64 bits; nothing where the conversion
of the length fails. -/
def Pending.settleLong? (p : Pending) (config : ReaderConfig) (address : Address)
    (words : List Word) (headWords : Nat) (length : Word) : Option (Reading Outcome) :=
  if config.maxDynamicBytes < length.toNat then
    some (.done (.incomplete (wordBytes words) (tooLong length config.maxDynamicBytes) headWords))
  else length.narrow?.map fun n =>
    (Reading.words config address (longSlots p.location.slot n.toNat)).map fun
      | .error e => .failed e.message
      | .ok data =>
        let bs := (wordBytes data).take n.toNat
        .decoded (wordBytes words ++ bs) (some (bytesValue p.type bs)) (headWords + data.length)

/-- The records of the elements of an array, counted in 64 bits; nothing where the conversion of the
length fails. -/
def SlotRecord.elements? (r : SlotRecord) (limit : Nat) : Option (List SlotRecord) :=
  match r.readLength? with
  | some (t, n) =>
    (if limit < n.toNat then some limit else n.narrow?.map UInt64.toNat).map fun count =>
      (List.range count).map (r.element t)
  | none => some []

/-- **The length of a byte string** is converted without failure. -/
theorem Pending.settleLong?_eq (h : config.maxDynamicBytes < UInt64.size) (p : Pending)
    (address : Address) (words : List Word) (headWords : Nat) (length : Word) :
    p.settleLong? config address words headWords length =
      some (p.settleLong config address words headWords length) := by
  unfold settleLong? settleLong
  by_cases hlimit : config.maxDynamicBytes < length.toNat
  · rw [if_pos hlimit, if_pos hlimit]
  · obtain ⟨n, hn, hsame⟩ := Word.narrow?_of_le h (Nat.le_of_not_lt hlimit)
    rw [if_neg hlimit, if_neg hlimit, ← hsame, hn]
    rfl

/-- **The length of an array** is converted without failure. -/
theorem SlotRecord.elements?_eq {limit : Nat} (h : limit < UInt64.size) (r : SlotRecord) :
    r.elements? limit = some (r.elements limit) := by
  unfold elements? elements
  cases r.readLength? with
  | none => rfl
  | some found =>
    obtain ⟨t, length⟩ := found
    simp only
    by_cases hlimit : limit < length.toNat
    · rw [if_pos hlimit, Option.map_some, Nat.min_eq_right (Nat.le_of_lt hlimit)]
    · obtain ⟨n, hn, hsame⟩ := Word.narrow?_of_le h (Nat.le_of_not_lt hlimit)
      rw [if_neg hlimit, hn, Option.map_some, Option.map_some, hsame,
        Nat.min_eq_left (Nat.le_of_not_lt hlimit)]

/-- **Storage cannot force reads.** Whatever words a fetch of a store of different keys is given,
and in whatever order its jobs end, what it asks for and what it adds keeps to its limits. Where
these are numbers of 64 bits, no length that it takes from storage fails to be converted to one. -/
theorem fetch_withinLimits {s : LayoutStore} (hkeys : (s.records.map (·.key)).Nodup)
    {config : ReaderConfig} (hbytes : config.maxDynamicBytes < UInt64.size)
    (helements : config.maxExpandedElements < UInt64.size) {context : ChainContext}
    {asked : List (List ReadRequest)} {after : LayoutStore} {result : Except Error FetchSummary}
    (h : Fetch.Transcript (Fetch.values config context s) asked (after, result)) :
    (∃ reads added, Fetch.WithinLimits config context.storageTarget s after asked reads added) ∧
    (∀ p address words headWords length, Pending.settleLong? p config address words headWords
      length = some (p.settleLong config address words headWords length)) ∧
    ∀ r : SlotRecord, r.elements? config.maxExpandedElements =
      some (r.elements config.maxExpandedElements) := by
  refine ⟨?_, fun p address words headWords length => ?_, fun r => ?_⟩
  · exact Fetch.values_withinLimits hkeys h
  · exact p.settleLong?_eq hbytes address words headWords length
  · exact r.elements?_eq helements

/-- An array of byte strings. -/
def Sample.notesRecord : SlotRecord where
  contract := "A"
  path := ⟨"notes", []⟩
  declaredIn := "A"
  location := ⟨0, 0⟩
  size := 32
  type := .dynamicArray .bytes

theorem fetch_withinLimits_notes : ([Sample.notesRecord].map (·.key)).Nodup ∧
    Sample.spellsOut.maxDynamicBytes < UInt64.size ∧
    Sample.spellsOut.maxExpandedElements < UInt64.size ∧
    ∃ asked after result, Fetch.Transcript
        (Fetch.values Sample.spellsOut Sample.context ⟨[Sample.notesRecord]⟩) asked
        (after, result) ∧
      ∃ reads added, Fetch.WithinLimits Sample.spellsOut Sample.context.storageTarget
        ⟨[Sample.notesRecord]⟩ after asked reads added := by
  have hkeys : ([Sample.notesRecord].map (·.key)).Nodup := List.nodup_singleton _
  obtain ⟨⟨after, result⟩, asked, hasked⟩ : ∃ ended asked, Fetch.Transcript
      (Fetch.values Sample.spellsOut Sample.context ⟨[Sample.notesRecord]⟩) asked ended :=
    ⟨_, Fetch.exists_transcript_run (memoryReader Sample.ones).inTurn_completes _ ()⟩
  have hbytes : Sample.spellsOut.maxDynamicBytes < UInt64.size := by decide
  have helements : Sample.spellsOut.maxExpandedElements < UInt64.size := by decide
  obtain ⟨hwithin, -, -⟩ := fetch_withinLimits hkeys hbytes helements hasked
  exact ⟨hkeys, hbytes, helements, asked, after, result, hasked, hwithin⟩

end StorageAtlas
