import StorageAtlas.Proofs.Agreement
import StorageAtlas.Proofs.Settling

/-!
# A value read with others is the value read alone

`values_alone`: on a fixed memory, a record comes out of a fetch of a whole store as it comes out
of a fetch of its own. What a job covers is settled with a slice of the words of the reader; since
the covered slots lie within those of the reader, the slice is the memory at them
(`Pending.slice_eq`). Only the count of words read tells the two apart, and no record holds it.
-/

namespace StorageAtlas

/-! ## Reads with one answer -/

section Reply

variable {reply : (q : ReadRequest) → ReadReply}

/-- Where each question has one answer, attempts made again end as the first one. -/
theorem withRetries_answered {Q : Type} {A : Q → Type} {α : Type} {reply : (q : Q) → A q}
    (longest : Nat) (attempt : Dialogue Q A (Except Error α)) (retries : Nat) : ∀ backoff : Nat,
    (withRetries longest attempt retries backoff).answered reply = attempt.answered reply := by
  induction retries with
  | zero => exact fun _ => rfl
  | succ retries ih =>
    intro backoff
    rw [withRetries, Dialogue.answered_bind]
    split
    · next heq => exact heq.symm
    · next e heq =>
      split
      · exact ih _
      · exact heq.symm

/-- A read gives what its first attempt gives, if these are as many words as it asks for; an attempt
without an answer took too long. -/
theorem words_answered_eq (config : ReaderConfig) (address : Address) (slots : List Word) :
    (Reading.words config address slots).answered reply =
      Reading.counted slots ((reply ⟨address, slots, config.timeoutMs⟩).getD
        (.error (.transport (.readTimeout config.timeoutMs)))) := by
  have hattempt : (Reading.attempt config address slots).answered reply =
      (reply ⟨address, slots, config.timeoutMs⟩).getD
        (.error (.transport (.readTimeout config.timeoutMs))) := by
    unfold Reading.attempt Dialogue.answered
    cases reply ⟨address, slots, config.timeoutMs⟩ with
    | none => rfl
    | some result => rfl
  rw [Reading.words, Dialogue.answered_map, withRetries_answered, hattempt]

end Reply

variable {memory : Address → Word → Word}

/-- Words that are read from a memory are those of the memory. -/
theorem words_answered (config : ReaderConfig) (address : Address) (slots : List Word) :
    (Reading.words config address slots).answered (ReadRequest.replyFrom memory) =
      .ok (slots.map (memory address)) := by
  rw [words_answered_eq, ReadRequest.replyFrom, Option.getD_some, Reading.counted,
    if_pos (List.length_map _)]

namespace Pending

variable {p q : Pending}

/-- The words at the slots of a record. -/
def wordsIn (p : Pending) (memory : Address → Word → Word) (address : Address) : List Word :=
  p.slotList.map (memory address)

theorem length_wordsIn {address : Address} : (p.wordsIn memory address).length = p.slots := by
  simp [wordsIn, slotList, Word.consecutive]

/-- **What lies within the slots of a record** is found in the words of the record. -/
theorem slice_eq (h : p.contains q) (memory : Address → Word → Word) (address : Address) :
    (q.location.slot - p.location.slot).toNat + q.slots ≤ p.slots ∧
      ((p.wordsIn memory address).drop (q.location.slot - p.location.slot).toNat).take q.slots =
        q.wordsIn memory address := by
  simp only [contains, Bool.and_eq_true, decide_eq_true_eq] at h
  obtain ⟨hle, hfits⟩ := h
  have hstart : (q.location.slot - p.location.slot).toNat =
      q.location.slot.toNat - p.location.slot.toNat := BitVec.toNat_sub_of_le hle
  have hends : (q.location.slot - p.location.slot).toNat + q.slots ≤ p.slots := by omega
  refine ⟨hends, ?_⟩
  rw [wordsIn, wordsIn, ← List.map_drop, ← List.map_take]
  refine congrArg (List.map _) ?_
  -- both are `q.slots` consecutive slots, the same first one
  refine List.ext_getElem ?_ fun i hi hi' => ?_
  · simp only [slotList, Word.consecutive, List.length_take, List.length_drop, List.length_map,
      List.length_range]
    omega
  · simp only [slotList, Word.consecutive, List.getElem_take, List.getElem_drop, List.getElem_map,
      List.getElem_range]
    rw [Word.ofNat, BitVec.ofNat_add, BitVec.ofNat_toNat, BitVec.setWidth_eq, ← BitVec.add_assoc,
      BitVec.add_comm p.location.slot, BitVec.sub_add_cancel]

end Pending

/-! ## Outcomes -/

/-- An outcome without the count of words. -/
def Outcome.uncounted : Outcome → Outcome
  | .decoded raw value _ => .decoded raw value 0
  | .incomplete raw reason _ => .incomplete raw reason 0
  | o => o

theorem SlotRecord.meets_uncounted (r : SlotRecord) (o : Outcome) :
    r.meets (.settled o.uncounted) = r.meets (.settled o) := by
  cases o <;> rfl

namespace Pending

variable (p : Pending) (config : ReaderConfig) (address : Address) {words : List Word}

/-- What becomes of a record with its words at hand. -/
def outcome (memory : Address → Word → Word) (words : List Word) (headWords : Nat) : Outcome :=
  (p.settle config address words headWords).answered (ReadRequest.replyFrom memory)

variable {reply : (q : ReadRequest) → ReadReply}

theorem uncounted_settleLong {headWords headWords' : Nat} {length : Word} :
    ((p.settleLong config address words headWords length).answered reply).uncounted =
    ((p.settleLong config address words headWords' length).answered reply).uncounted := by
  unfold settleLong
  split
  · rfl
  · rw [Dialogue.answered_map, Dialogue.answered_map]
    split <;> rfl

/-- How many words were read for a record says nothing of its value. -/
theorem uncounted_settle (headWords headWords' : Nat) :
    ((p.settle config address words headWords).answered reply).uncounted =
      ((p.settle config address words headWords').answered reply).uncounted := by
  rcases p.exists_settle_eq config address words with
    ⟨raw, value, hsettle⟩ | ⟨o, hsettle⟩ | ⟨length, hsettle⟩
  · rw [hsettle, hsettle]
    rfl
  · rw [hsettle, hsettle]
  · rw [hsettle, hsettle]
    exact p.uncounted_settleLong config address

end Pending

namespace Job

variable {j : Job} {config : ReaderConfig} {address : Address}
  {reply : (q : ReadRequest) → ReadReply}

theorem settleMembers_answered {words : List Word} (ms : List Pending) :
    (j.settleMembers config address words ms).answered reply =
      ms.map fun m => (j.settleMember config address words m).answered reply := by
  induction ms with
  | nil => rfl
  | cons m ms ih =>
    rw [settleMembers, Dialogue.answered_bind, Dialogue.answered_map, ih]
    rfl

/-- **A covered record** is settled as if its own words had been read. -/
theorem settleMember_answered {m : Pending} (h : j.reader.contains m) :
    (j.settleMember config address (j.reader.wordsIn memory address) m).answered reply =
      (m.key, (m.settle config address (m.wordsIn memory address) 0).answered reply) := by
  obtain ⟨hends, hslice⟩ := Pending.slice_eq h memory address
  rw [settleMember, if_pos (by rwa [Pending.length_wordsIn]), Dialogue.answered_map, hslice]

/-- What a job gives once its words were read: each record with the outcome that its own words lead
to. -/
theorem run_answered (h : ∀ m ∈ j.covered, j.reader.contains m)
    (hread : (Reading.words config address j.reader.slotList).answered reply =
      .ok (j.reader.wordsIn memory address)) {p : Pending} (hp : p ∈ j.reader :: j.covered) :
    ∃ o, (p.key, o) ∈ (j.run config address).answered reply ∧ o.uncounted =
      ((p.settle config address (p.wordsIn memory address) 0).answered reply).uncounted := by
  rw [run, Dialogue.answered_bind, hread]
  show ∃ o, (p.key, o) ∈ (Dialogue.bind _ _).answered _ ∧ _
  rw [Dialogue.answered_bind, Dialogue.answered_map, settleMembers_answered]
  rcases List.mem_cons.1 hp with rfl | hp
  · exact ⟨_, List.mem_cons_self, Pending.uncounted_settle _ _ _ _ _⟩
  · refine ⟨_, List.mem_cons_of_mem _ (List.mem_map.2 ⟨p, hp, ?_⟩), rfl⟩
    exact settleMember_answered (h p hp)

end Job

/-! ## Records -/

namespace SlotRecord

/-- What a fetch makes of a record that is read on its own. -/
def fetched (r : SlotRecord) (config : ReaderConfig) (address : Address)
    (memory : Address → Word → Word) : SlotRecord :=
  if r.isReadable then
    if r.slotsToRead ≤ config.slotLimit then
      r.meets (.settled (r.pending.outcome config address memory
        (r.pending.wordsIn memory address) 0))
    else { r with status := oversized r.slotsToRead config.slotLimit }
  else r

variable {r : SlotRecord} {config : ReaderConfig} {address : Address}

@[simp] theorem key_fetched : (r.fetched config address memory).key = r.key := by
  unfold fetched
  split
  · split
    · exact key_meets _
    · rfl
  · rfl

end SlotRecord

theorem lookup_of_mem {α β : Type} [BEq α] [LawfulBEq α] {l : List (α × β)} {key : α} {value : β}
    (h : (l.map Prod.fst).Nodup) (hmem : (key, value) ∈ l) : l.lookup key = some value := by
  induction l with
  | nil => exact nomatch hmem
  | cons e l ih =>
    obtain ⟨hnew, hrest⟩ := List.nodup_cons.1 h
    rcases List.mem_cons.1 hmem with rfl | hmem
    · exact List.lookup_cons_self
    · have hne : key ≠ e.1 := fun heq => hnew (heq ▸ List.mem_map_of_mem hmem)
      rw [List.lookup_cons, beq_false_of_ne hne]
      exact ih hrest hmem

namespace Fetch

variable {config : ReaderConfig} {address : Address} {s : LayoutStore}
  {reply : (q : ReadRequest) → ReadReply} {told : List (List Settled)}

/-- What is told of a round in the end, up to the order. -/
def allTold (reply : (q : ReadRequest) → ReadReply) (config : ReaderConfig) (address : Address)
    (s : LayoutStore) : List (List Settled) :=
  (jobs config address s).map (·.answered reply)

theorem mayTell_of_perm (h : told.Perm (allTold reply config address s)) :
    Round.MayTell (jobs config address s) told :=
  ⟨_, List.forall₂_map_right_iff.2 (List.forall₂_same.2 fun job _ => job.yields_answered), h⟩

theorem run_mem_allTold {j : Job} (hj : j ∈ ReadPlan.jobsFor (ReadPlan.small config s)) :
    (j.run config address).answered reply ∈ allTold reply config address s := by
  rw [allTold, jobs, ReadPlan.of_eq]
  exact List.mem_map_of_mem (List.mem_map_of_mem hj)

section Told

variable (h : s.InOrder) {r : SlotRecord}

include h

/-- A record that is told of has the fate that is told. -/
theorem under_told (htold : Round.MayTell (jobs config address s) told) {settled : List Settled}
    (hsettled : settled ∈ told) {o : Outcome} (ho : (r.key, o) ∈ settled) :
    r.under (fates config s told) = r.meets (.settled o) := by
  have hfate : (r.key, Fate.settled o) ∈ fates config s told :=
    List.mem_append_right _ (List.mem_map.2 ⟨_, List.mem_flatten.2 ⟨_, hsettled, ho⟩, rfl⟩)
  rw [SlotRecord.under, lookup_of_mem (nodup_fates h htold) hfate]

/-- A record is settled with its own words once those of its job were read. -/
theorem under_read (htold : told.Perm (allTold reply config address s)) {j : Job}
    (hj : j ∈ ReadPlan.jobsFor (ReadPlan.small config s))
    (hread : (Reading.words config address j.reader.slotList).answered reply =
      .ok (j.reader.wordsIn memory address)) (hr : r.pending ∈ j.reader :: j.covered) :
    r.under (fates config s told) = r.meets (.settled ((r.pending.settle config address
      (r.pending.wordsIn memory address) 0).answered reply)) := by
  obtain ⟨o, ho, hsame⟩ :=
    Job.run_answered (fun m hm => ReadPlan.contains_of_mem_covered hj hm) hread hr
  rw [under_told h (mayTell_of_perm htold) (htold.symm.subset (run_mem_allTold hj)) ho,
    ← SlotRecord.meets_uncounted, hsame, SlotRecord.meets_uncounted]

/-- A record that is too large to be read is told so. -/
theorem under_large (htold : Round.MayTell (jobs config address s) told)
    (hr : r ∈ ReadPlan.large config s) : r.under (fates config s told) =
      { r with status := oversized r.slotsToRead config.slotLimit } := by
  have hfate : (r.key, Fate.refused (oversized r.slotsToRead config.slotLimit)) ∈
      fates config s told := by
    refine List.mem_append_left _ (List.mem_map.2 ⟨(r.key, _), ?_, rfl⟩)
    rw [ReadPlan.of_eq]
    exact List.mem_map.2 ⟨r, hr, rfl⟩
  rw [SlotRecord.under, lookup_of_mem (nodup_fates h htold) hfate]
  rfl

/-- A record that does not wait stays as it is. -/
theorem under_not_readable (htold : Round.MayTell (jobs config address s) told)
    (hr : r ∈ s.records) (hreadable : ¬r.isReadable) : r.under (fates config s told) = r := by
  refine SlotRecord.under_eq_self fun hkey => ?_
  obtain ⟨q, hq, heq⟩ := List.mem_map.1 ((keys_fates h htold).subset hkey)
  obtain ⟨hqs, hqr⟩ := List.mem_filter.1 hq
  exact hreadable (List.inj_on_of_nodup_map h.keys hqs hr heq ▸ hqr)

end Told

/-- **On a memory, each record has the fate of its own**, with whatever it was read. -/
theorem under_fates (h : s.InOrder)
    (htold : told.Perm (allTold (ReadRequest.replyFrom memory) config address s))
    {r : SlotRecord} (hr : r ∈ s.records) :
    r.under (fates config s told) = r.fetched config address memory := by
  by_cases hreadable : r.isReadable
  · have hwaits : r ∈ ReadPlan.waiting s := List.mem_filter.2 ⟨hr, hreadable⟩
    rw [SlotRecord.fetched, if_pos hreadable]
    split
    · next hsmall =>
      have hmem : r ∈ ReadPlan.small config s :=
        List.mem_filter.2 ⟨hwaits, decide_eq_true hsmall⟩
      have hjobs := ReadPlan.jobsFor_perm (h.sublist (ReadPlan.small_sublist config s))
      obtain ⟨j, hj, hp⟩ :=
        List.mem_flatMap.1 (hjobs.symm.subset (List.mem_map_of_mem hmem))
      exact under_read h htold hj (words_answered config address j.reader.slotList) hp
    · next hlarge =>
      exact under_large h (mayTell_of_perm htold)
        (List.mem_filter.2 ⟨hwaits, decide_eq_true (Nat.lt_of_not_le hlarge)⟩)
  · rw [SlotRecord.fetched, if_neg hreadable]
    exact under_not_readable h (mayTell_of_perm htold) hr hreadable

/-- A fetch of a memory makes of each record what it makes of the record alone. -/
theorem values_run (h : s.InOrder) (hs : s.records ≠ []) {σ : Type}
    {w : Answerer Round (fun _ => List (List Settled)) σ} (hw : w.Serves memory)
    (hexpand : config.expandDynamicArrays = false) (context : ChainContext) (state : σ) :
    ∃ summary, ((values config context s).run w state).1 =
      (⟨s.records.map (·.fetched config context.storageTarget memory)⟩, .ok summary) := by
  have hsome : (context.storageAddress.isSome && s.isEmpty) = false := by
    rw [LayoutStore.isEmpty, List.isEmpty_eq_false_iff.2 hs, Bool.and_false]
  unfold values
  rw [if_neg (by rw [hsome]; exact Bool.false_ne_true), Dialogue.run_bind,
    round_run h hw.completes]
  simp only [hexpand]
  refine ⟨_, Prod.ext (congrArg LayoutStore.mk ?_) rfl⟩
  exact List.map_congr_left fun r hr => under_fates h (hw state _) hr

end Fetch

/-- **A record read with others is the record read alone.** On a fixed memory, and without the
elements of arrays, a fetch of a store leaves under the key of each record what a fetch of that
record alone leaves: the same bytes, value and status. -/
theorem values_alone {r : Resolver} {s : LayoutStore} (hs : r.Makes s)
    {memory : Address → Word → Word} {σ : Type}
    {w : Answerer Round (fun _ => List (List Settled)) σ} (hw : w.Serves memory)
    {config : ReaderConfig} (hexpand : config.expandDynamicArrays = false)
    (context : ChainContext) (state state' : σ) {q : SlotRecord} (hq : q ∈ s.records) :
    ∃ after summary q' summary',
      ((Fetch.values config context s).run w state).1 = (after, .ok summary) ∧
      ((Fetch.values config context ⟨[q]⟩).run w state').1 = (⟨[q']⟩, .ok summary') ∧
      after.find? q.key = some q' := by
  have horder := hs.inOrder
  have hne : s.records ≠ [] := List.ne_nil_of_mem hq
  obtain ⟨summary, hrun⟩ := Fetch.values_run horder hne hw hexpand context state
  obtain ⟨summary', hrun'⟩ := Fetch.values_run (LayoutStore.inOrder_singleton q)
    (List.cons_ne_nil q []) hw hexpand context state'
  refine ⟨_, summary, _, summary', hrun, hrun', ?_⟩
  rw [LayoutStore.find?, List.find?_map]
  have hfound : s.records.find? (fun r =>
      (r.fetched config context.storageTarget memory).key == q.key) = some q := by
    simp only [SlotRecord.key_fetched]
    exact find?_of_nodup horder.keys hq
  exact congrArg (Option.map _) hfound

/-- Answers every read from a memory. -/
def memoryReader (memory : Address → Word → Word) :
    Answerer ReadRequest (fun _ => ReadReply) Unit where
  answer _ q := (q.replyFrom memory, ())
  pause _ _ := ()

/-- Words none of which is zero, the same at every address. -/
def Sample.words : Address → Word → Word := fun _ slot => slot ||| 0x0203

def Sample.context : ChainContext := { address := 1 }

theorem values_alone_member : ∃ s q, (Resolver.mk Sample.model {}).fullLayout ["A"] = .ok s ∧
    q ∈ s.records ∧ q.path = ⟨"s", [.index 1, .field "a"]⟩ ∧
    (memoryReader Sample.words).inTurn.Serves Sample.words ∧
    ∃ after summary q' summary',
      ((Fetch.values {} Sample.context s).run (memoryReader Sample.words).inTurn ()).1 =
        (after, .ok summary) ∧
      ((Fetch.values {} Sample.context ⟨[q]⟩).run (memoryReader Sample.words).inTurn ()).1 =
        (⟨[q']⟩, .ok summary') ∧
      after.find? q.key = some q' := by
  obtain ⟨s, hs, hcheck⟩ := exists_ok_of_any
    (x := (Resolver.mk Sample.model {}).fullLayout ["A"])
    (p := fun s => s.records.any (·.path == ⟨"s", [.index 1, .field "a"]⟩)) <| by decide +kernel
  obtain ⟨q, hq, hpath⟩ := List.any_eq_true.1 hcheck
  have hw : (memoryReader Sample.words).inTurn.Serves Sample.words :=
    Answerer.inTurn_serves _ fun _ _ => rfl
  exact ⟨s, q, hs, hq, eq_of_beq hpath, hw,
    values_alone (.fullLayout hs) hw rfl Sample.context () () hq⟩

end StorageAtlas
