import StorageAtlas.Proofs.Confluence
import StorageAtlas.Proofs.Encoding
import StorageAtlas.Proofs.Readers
import StorageAtlas.Proofs.SlotFit
import StorageAtlas.Proofs.Spans

/-!
# Slots that cannot be read

`failures_isolated`: where every read that asks for a broken slot fails, a record ends as one that
could not be read exactly if a slot is broken that is read for it, and all others end as they would
without broken slots. The slots read for a record are those of its reader (`ReadPlan.readerOf`) and
those of its own long byte string. What a record needs itself says less: a struct is read at once
with its members, and they fail together (`failures_shared`).
-/

namespace StorageAtlas

/-- Whatever asks for a broken slot fails, with a transport error or for want of time; all other
reads give the words of the memory. -/
structure FailsAt (broken : Word → Prop) (memory : Address → Word → Word)
    (reply : (q : ReadRequest) → ReadReply) : Prop where
  fails : ∀ q : ReadRequest, (∃ slot ∈ q.slots, broken slot) →
    reply q = none ∨ ∃ fault, reply q = some (.error (.transport fault))
  serves : ∀ q : ReadRequest, (¬∃ slot ∈ q.slots, broken slot) → reply q = q.replyFrom memory

variable {broken : Word → Prop} {memory : Address → Word → Word}
  {reply : (q : ReadRequest) → ReadReply}

theorem failsAt_none (memory : Address → Word → Word) :
    FailsAt (fun _ => False) memory (ReadRequest.replyFrom memory) :=
  ⟨fun _ ⟨_, _, h⟩ => h.elim, fun _ _ => rfl⟩

namespace FailsAt

variable (hreply : FailsAt broken memory reply) (config : ReaderConfig) (address : Address)
  {slots : List Word}

include hreply

theorem words_broken (h : ∃ slot ∈ slots, broken slot) :
    ∃ e, (Reading.words config address slots).answered reply = .error e := by
  rw [words_answered_eq]
  rcases hreply.fails ⟨address, slots, config.timeoutMs⟩ h with hnone | ⟨fault, hfault⟩
  · rw [hnone]
    exact ⟨_, rfl⟩
  · rw [hfault]
    exact ⟨_, rfl⟩

theorem words_intact (h : ¬∃ slot ∈ slots, broken slot) :
    (Reading.words config address slots).answered reply = .ok (slots.map (memory address)) := by
  rw [← words_answered, words_answered_eq, words_answered_eq, hreply.serves _ h]

end FailsAt

/-! ## Byte strings -/

namespace Pending

/-- The slots of what belongs to a record but lies elsewhere: the bytes of a long byte string,
unless it is too long to be read. -/
def dataSlots (p : Pending) (config : ReaderConfig) (head : Word) : List Word :=
  match p.type.stored with
  | .bytes | .string =>
    match classifyBytes head with
    | .ok (.long length) =>
      if config.maxDynamicBytes < length.toNat then []
      else longSlots p.location.slot length.toNat
    | _ => []
  | _ => []

variable {p : Pending} {config : ReaderConfig} {address : Address} {head : Word} {rest : List Word}
  {headWords : Nat}

/-- An error of the type is no failure to read. -/
theorem ofError_ne_failed {e : Error} (h : e.IsOfType) (reason : String) :
    Outcome.ofError e ≠ .failed reason := by
  obtain ⟨cause, rfl⟩ := h
  exact nofun

/-- **To settle a record** takes no further read, or that of a long byte string. -/
theorem settle_cases (hfit : p.type.footprint.FitsAt p.location) :
    (p.dataSlots config head = [] ∧
      ∃ o, p.settle config address (head :: rest) headWords = .done o ∧
        ∀ reason, o ≠ .failed reason) ∨
    ∃ length, p.dataSlots config head = longSlots p.location.slot length.toNat ∧
      ¬config.maxDynamicBytes < length.toNat ∧ p.settle config address (head :: rest) headWords =
        p.settleLong config address (head :: rest) headWords length := by
  by_cases h : p.type.stored = .bytes ∨ p.type.stored = .string
  · have hslots : p.dataSlots config head = match classifyBytes head with
        | .ok (.long length) =>
          if config.maxDynamicBytes < length.toNat then []
          else longSlots p.location.slot length.toNat
        | _ => [] := by
      rcases h with h | h <;> simp only [dataSlots, h]
    rw [hslots, settle_byteString h]
    cases hform : classifyBytes head with
    | error e => exact .inl ⟨rfl, _, rfl, ofError_ne_failed (classifyBytes_error hform)⟩
    | ok form =>
      cases form with
      | short bs => exact .inl ⟨rfl, _, rfl, nofun⟩
      | long length =>
        by_cases hlimit : config.maxDynamicBytes < length.toNat
        · exact .inl ⟨if_pos hlimit, _, if_pos hlimit, nofun⟩
        · exact .inr ⟨length, if_neg hlimit, hlimit, rfl⟩
  · have hslots : p.dataSlots config head = [] := by
      unfold dataSlots
      split
      · next hs => exact absurd (.inl hs) h
      · next hs => exact absurd (.inr hs) h
      · rfl
    rw [hslots, settle_other h]
    cases hdecode : decode p.type (head :: rest) p.location.offset.toNat with
    | error e =>
      have hcause := decode_error (List.cons_ne_nil head rest) hfit hdecode
      exact .inl ⟨rfl, _, rfl, ofError_ne_failed hcause⟩
    | ok value => exact .inl ⟨rfl, _, rfl, nofun⟩

section Reply

variable (hreply : FailsAt broken memory reply) (hfit : p.type.footprint.FitsAt p.location)

include hreply hfit

/-- A record whose words were read fails exactly with the read of its long byte string. -/
theorem settle_failed_iff :
    (∃ reason, (p.settle config address (head :: rest) headWords).answered reply =
      .failed reason) ↔ ∃ slot ∈ p.dataSlots config head, broken slot := by
  rcases p.settle_cases hfit with ⟨hslots, o, ho, hne⟩ | ⟨length, hslots, hlimit, hsettle⟩
  · rw [hslots, ho]
    constructor
    · rintro ⟨reason, hreason⟩
      exact absurd hreason (hne reason)
    · rintro ⟨slot, hslot, -⟩
      exact nomatch hslot
  · rw [hslots, hsettle, settleLong, if_neg hlimit, Dialogue.answered_map]
    by_cases hbroken : ∃ slot ∈ longSlots p.location.slot length.toNat, broken slot
    · obtain ⟨e, he⟩ := hreply.words_broken config address hbroken
      rw [he]
      exact iff_of_true ⟨_, rfl⟩ hbroken
    · rw [hreply.words_intact config address hbroken]
      exact iff_of_false nofun hbroken

theorem settle_intact (hintact : ¬∃ slot ∈ p.dataSlots config head, broken slot) :
    (p.settle config address (head :: rest) headWords).answered reply =
      p.outcome config address memory (head :: rest) headWords := by
  unfold outcome
  rcases p.settle_cases hfit with ⟨-, o, ho, -⟩ | ⟨length, hslots, hlimit, hsettle⟩
  · rw [ho]
    rfl
  · rw [hslots] at hintact
    rw [hsettle, settleLong, if_neg hlimit, Dialogue.answered_map, Dialogue.answered_map,
      hreply.words_intact config address hintact, words_answered]

end Reply

/-- The words of a record begin with the one at its place. -/
theorem wordsIn_eq_cons (h : 0 < p.slots) (memory : Address → Word → Word) (address : Address) :
    ∃ rest, p.wordsIn memory address = memory address p.location.slot :: rest := by
  have hslots : p.slotList = p.location.slot ::
      (List.range (p.slots - 1)).map fun i => p.location.slot + Word.ofNat (i + 1) := by
    rw [slotList, Word.consecutive, ← Nat.succ_pred_eq_of_pos h, List.range_succ_eq_map,
      List.map_cons, List.map_map]
    exact congrArg (· :: _) (BitVec.add_zero _)
  exact ⟨_, congrArg (List.map (memory address)) hslots⟩

end Pending

/-- What is not empty takes a slot at least. -/
theorem SlotRecord.slotsToRead_pos {r : SlotRecord} (h : r.type.NeverEmpty) :
    0 < r.slotsToRead := by
  have hextent := Nat.lt_of_lt_of_le (Ty.extent_pos h) r.type.extent_le
  have hcount : 0 < r.type.footprint.slotCount.toNat := Nat.pos_of_mul_pos_left hextent
  rw [slotsToRead, Word.clamp64]
  exact Nat.lt_min.2 ⟨hcount, by decide⟩

theorem SlotRecord.wordsIn_pending {r : SlotRecord} (h : r.type.NeverEmpty)
    (memory : Address → Word → Word) (address : Address) :
    ∃ rest, r.pending.wordsIn memory address = memory address r.location.slot :: rest :=
  Pending.wordsIn_eq_cons (slotsToRead_pos h) memory address

theorem SlotRecord.exists_readFailed_iff {r : SlotRecord} (h : r.isReadable) (o : Outcome) :
    (∃ reason, (r.meets (.settled o)).status = .readFailed reason) ↔
      ∃ reason, o = .failed reason := by
  cases o with
  | decoded raw value words =>
    -- the status stays, and it says that the place is known
    have hstatus (reason : String) : r.status ≠ .readFailed reason := fun hreason => by
      simp [isReadable, hreason, Status.isResolved] at h
    simp [meets, hstatus]
  | incomplete raw reason words => simp [meets]
  | unresolved reason => simp [meets]
  | failed reason => simp [meets]

/-! ## Fetches -/

namespace Fetch

variable {config : ReaderConfig} {address : Address} {s : LayoutStore} {q : SlotRecord}

/-- The slots that are read for a record: those of its reader, and those of its own long byte
string. -/
def slotsReadFor (config : ReaderConfig) (s : LayoutStore) (word : Word → Word) (q : SlotRecord) :
    List Word :=
  (ReadPlan.readerOf (ReadPlan.small config s) q).pending.slotList ++
    q.pending.dataSlots config (word q.location.slot)

section Read

variable (h : s.InOrder) (hreply : FailsAt broken memory reply)
  (hq : q ∈ ReadPlan.small config s)

include h hreply hq

/-- With its reader, a record fails. -/
theorem under_broken
    (hbroken : ∃ slot ∈ (ReadPlan.readerOf (ReadPlan.small config s) q).pending.slotList,
      broken slot) :
    ∃ reason, q.under (fates config s (allTold reply config address s)) =
      q.meets (.settled (.failed reason)) := by
  obtain ⟨j, hj, hreader, hmem⟩ :=
    ReadPlan.exists_job (h.sublist (ReadPlan.small_sublist config s)) hq
  rw [← hreader] at hbroken
  obtain ⟨e, he⟩ := hreply.words_broken config address hbroken
  refine ⟨e.message, under_told h (mayTell_of_perm (.refl _)) (run_mem_allTold hj) ?_⟩
  rw [Job.run, Dialogue.answered_bind, he]
  exact List.mem_map.2 ⟨q.pending, hmem, rfl⟩

/-- Where its reader is read, a record is settled with its own words. -/
theorem under_intact
    (hintact : ¬∃ slot ∈ (ReadPlan.readerOf (ReadPlan.small config s) q).pending.slotList,
      broken slot) :
    q.under (fates config s (allTold reply config address s)) =
      q.meets (.settled ((q.pending.settle config address (q.pending.wordsIn memory address)
        0).answered reply)) := by
  obtain ⟨j, hj, hreader, hmem⟩ :=
    ReadPlan.exists_job (h.sublist (ReadPlan.small_sublist config s)) hq
  rw [← hreader] at hintact
  exact under_read h (.refl _) hj (hreply.words_intact config address hintact) hmem

variable (hfit : q.FitsAt) (hfull : q.type.NeverEmpty)

include hfit hfull

/-- **A record that is read fails** exactly if a slot is broken that is read for it. -/
theorem readFailed_iff :
    (∃ reason, (q.under (fates config s (allTold reply config address s))).status =
      .readFailed reason) ↔ ∃ slot ∈ slotsReadFor config s (memory address) q, broken slot := by
  have hreadable : q.isReadable := (List.mem_filter.1 (List.mem_filter.1 hq).1).2
  obtain ⟨rest, hwords⟩ := SlotRecord.wordsIn_pending hfull memory address
  simp only [slotsReadFor, List.mem_append, or_and_right, exists_or]
  by_cases hreader : ∃ slot ∈ (ReadPlan.readerOf (ReadPlan.small config s) q).pending.slotList,
      broken slot
  · obtain ⟨reason, hreason⟩ : ∃ reason, q.under (fates config s (allTold reply config address s)) =
        q.meets (.settled (.failed reason)) := under_broken h hreply hq hreader
    rw [hreason]
    exact iff_of_true ⟨reason, rfl⟩ (.inl hreader)
  · rw [under_intact h hreply hq hreader, SlotRecord.exists_readFailed_iff hreadable, hwords,
      Pending.settle_failed_iff (p := q.pending) hreply hfit, or_iff_right hreader]

/-- **A record is read as it would be without broken slots**, if none is read for it. -/
theorem under_eq_memory
    (hintact : ¬∃ slot ∈ slotsReadFor config s (memory address) q, broken slot) :
    q.under (fates config s (allTold reply config address s)) =
      q.under (fates config s (allTold (ReadRequest.replyFrom memory) config address s)) := by
  simp only [slotsReadFor, List.mem_append, or_and_right, exists_or, not_or] at hintact
  obtain ⟨hreader, hdata⟩ := hintact
  obtain ⟨rest, hwords⟩ := SlotRecord.wordsIn_pending hfull memory address
  rw [under_intact h hreply hq hreader, under_intact h (failsAt_none memory) hq (by simp), hwords,
    Pending.settle_intact (p := q.pending) hreply hfit hdata]
  rfl

end Read

/-- What is not read is left as it is, or told to be too large, whatever the reader does. -/
theorem under_not_small (h : s.InOrder) (hq : q ∈ s.records) (hsmall : q ∉ ReadPlan.small config s)
    {told told' : List (List Settled)} (htold : Round.MayTell (jobs config address s) told)
    (htold' : Round.MayTell (jobs config address s) told') :
    q.under (fates config s told) = q.under (fates config s told') := by
  by_cases hreadable : q.isReadable
  · have hwaits : q ∈ ReadPlan.waiting s := List.mem_filter.2 ⟨hq, hreadable⟩
    have hlarge : q ∈ ReadPlan.large config s :=
      (List.mem_append.1 ((ReadPlan.small_append_large config s).symm.subset hwaits)).resolve_left
        hsmall
    rw [under_large h htold hlarge, under_large h htold' hlarge]
  · rw [under_not_readable h htold hq hreadable, under_not_readable h htold' hq hreadable]

/-- A fetch of a store that is not empty, with a reader that gives one answer to each question. -/
theorem values_run_pools (h : s.InOrder) (hq : q ∈ s.records)
    (hexpand : config.expandDynamicArrays = false) (context : ChainContext) {σ : Type}
    {w : Answerer Round (fun _ => List (List Settled)) σ} (hw : w.Pools reply config.fanOut)
    (state : σ) :
    ∃ after summary, ((values config context s).run w state).1 = (after, .ok summary) ∧
      after.find? q.key =
        some (q.under (fates config s (allTold reply config context.storageTarget s))) := by
  have hproxy : ¬(context.storageAddress.isSome && s.isEmpty) := by
    rw [LayoutStore.isEmpty, List.isEmpty_eq_false_iff.2 (List.ne_nil_of_mem hq), Bool.and_false]
    exact Bool.false_ne_true
  have hrun := run_values (s := s) hexpand context w state
  rw [if_neg hproxy, round_run_pools h.keys hw] at hrun
  refine ⟨_, _, hrun, ?_⟩
  rw [LayoutStore.find?, LayoutStore.under, List.find?_map]
  have hfound : s.records.find? (fun r => (r.under (fates config s
      (allTold reply config context.storageTarget s))).key == q.key) = some q := by
    simp only [SlotRecord.key_under]
    exact find?_of_nodup h.keys hq
  exact congrArg (Option.map _) hfound

end Fetch

/-- **Read failures are isolated.** Where every read that asks for a broken slot fails, a record
that is read ends as one that could not be read exactly if a slot is broken that is read for it; all
others end as they do where no slot is broken. -/
theorem failures_isolated {r : Resolver} {s : LayoutStore} (hs : r.Makes s)
    (hreply : FailsAt broken memory reply) {config : ReaderConfig}
    (hexpand : config.expandDynamicArrays = false) (context : ChainContext) {σ σ' : Type}
    {w : Answerer Round (fun _ => List (List Settled)) σ} (hw : w.Pools reply config.fanOut)
    {w' : Answerer Round (fun _ => List (List Settled)) σ'}
    (hw' : w'.Pools (ReadRequest.replyFrom memory) config.fanOut) (state : σ) (state' : σ')
    {q : SlotRecord} (hq : q ∈ s.records) (hfull : q.type.NeverEmpty) :
    ∃ after summary intact summary' q₁ q₀,
      ((Fetch.values config context s).run w state).1 = (after, .ok summary) ∧
      ((Fetch.values config context s).run w' state').1 = (intact, .ok summary') ∧
      after.find? q.key = some q₁ ∧ intact.find? q.key = some q₀ ∧
      (q ∈ ReadPlan.small config s → ((∃ reason, q₁.status = .readFailed reason) ↔
        ∃ slot ∈ Fetch.slotsReadFor config s (memory context.storageTarget) q, broken slot)) ∧
      (¬(q ∈ ReadPlan.small config s ∧
        ∃ slot ∈ Fetch.slotsReadFor config s (memory context.storageTarget) q, broken slot) →
        q₁ = q₀) := by
  have horder := hs.inOrder
  have hfit := hs.fitsAt q hq
  obtain ⟨after, summary, hrun, hfound⟩ :=
    Fetch.values_run_pools horder hq hexpand context hw state
  obtain ⟨intact, summary', hrun', hfound'⟩ :=
    Fetch.values_run_pools horder hq hexpand context hw' state'
  refine ⟨after, summary, intact, summary', _, _, hrun, hrun', hfound, hfound', ?_, ?_⟩
  · exact fun hsmall => Fetch.readFailed_iff horder hreply hsmall hfit hfull
  · intro hother
    by_cases hsmall : q ∈ ReadPlan.small config s
    · exact Fetch.under_eq_memory horder hreply hsmall hfit hfull fun hbroken =>
        hother ⟨hsmall, hbroken⟩
    · exact Fetch.under_not_small horder hq hsmall (Fetch.mayTell_of_perm (.refl _))
        (Fetch.mayTell_of_perm (.refl _))

/-- Fails whatever asks for a broken slot, and answers all else from a memory. -/
def ReadRequest.replyUnless (broken : Word → Bool) (memory : Address → Word → Word)
    (q : ReadRequest) : ReadReply :=
  if q.slots.any broken then some (.error (.transport .noWord)) else q.replyFrom memory

theorem failsAt_replyUnless (broken : Word → Bool) (memory : Address → Word → Word) :
    FailsAt (broken ·) memory (ReadRequest.replyUnless broken memory) where
  fails _ h := .inr ⟨_, if_pos (List.any_eq_true.2 h)⟩
  serves _ h := if_neg fun hany => h (List.any_eq_true.1 hany)

/-- Answers each question in one way. -/
def constantReader (reply : (q : ReadRequest) → ReadReply) :
    Answerer ReadRequest (fun _ => ReadReply) Unit where
  answer _ q := (reply q, ())
  pause _ _ := ()

theorem constantReader_pools (reply : (q : ReadRequest) → ReadReply) (config : ReaderConfig) :
    (constantReader reply).inTurn.Pools reply config.fanOut :=
  Answerer.inTurn_pools (fun _ _ => rfl) (Nat.le_max_right _ _)

/-- The first slot is broken, in which the member of the first element lies. -/
def Sample.brokenReply : (q : ReadRequest) → ReadReply :=
  ReadRequest.replyUnless (· == 0) Sample.words

theorem failures_isolated_member : ∃ s q,
    (Resolver.mk Sample.model {}).fullLayout ["A"] = .ok s ∧
    FailsAt (· == 0) Sample.words Sample.brokenReply ∧
    (constantReader Sample.brokenReply).inTurn.Pools Sample.brokenReply
      (ReaderConfig.fanOut {}) ∧
    (constantReader (ReadRequest.replyFrom Sample.words)).inTurn.Pools
      (ReadRequest.replyFrom Sample.words) (ReaderConfig.fanOut {}) ∧
    q ∈ s.records ∧ q.path = ⟨"s", [.index 1, .field "a"]⟩ ∧ q.type.NeverEmpty ∧
    ∃ after summary intact summary' q₁ q₀,
      ((Fetch.values {} Sample.context s).run (constantReader Sample.brokenReply).inTurn ()).1 =
        (after, .ok summary) ∧
      ((Fetch.values {} Sample.context s).run
        (constantReader (ReadRequest.replyFrom Sample.words)).inTurn ()).1 =
        (intact, .ok summary') ∧
      after.find? q.key = some q₁ ∧ intact.find? q.key = some q₀ ∧
      (q ∈ ReadPlan.small {} s → ((∃ reason, q₁.status = .readFailed reason) ↔
        ∃ slot ∈ Fetch.slotsReadFor {} s (Sample.words Sample.context.storageTarget) q,
          slot == 0)) ∧
      (¬(q ∈ ReadPlan.small {} s ∧
        ∃ slot ∈ Fetch.slotsReadFor {} s (Sample.words Sample.context.storageTarget) q,
          slot == 0) → q₁ = q₀) := by
  obtain ⟨s, hs, hcheck⟩ := exists_ok_of_any
    (x := (Resolver.mk Sample.model {}).fullLayout ["A"])
    (p := fun s => s.records.any fun q =>
      q.path == ⟨"s", [.index 1, .field "a"]⟩ && q.type == .uint 8) <| by decide +kernel
  obtain ⟨q, hq, hchecked⟩ := List.any_eq_true.1 hcheck
  obtain ⟨hpath, htype⟩ := Bool.and_eq_true_iff.1 hchecked
  have hfull : q.type.NeverEmpty := by rw [eq_of_beq htype]; trivial
  have hreply := failsAt_replyUnless (· == 0) Sample.words
  have hbroken := constantReader_pools Sample.brokenReply {}
  have hintact := constantReader_pools (ReadRequest.replyFrom Sample.words) {}
  exact ⟨s, q, hs, hreply, hbroken, hintact, hq, eq_of_beq hpath, hfull,
    failures_isolated (.fullLayout hs) hreply rfl Sample.context hbroken hintact () () hq hfull⟩

/-- **Not only its own slots fail a record.** The member of the second element lies in an intact
slot and needs no other, and yet fails with the array that it is read with. -/
theorem failures_shared : ∃ s q after summary q₁ reason,
    (Resolver.mk Sample.model {}).fullLayout ["A"] = .ok s ∧
    FailsAt (· == 0) Sample.words Sample.brokenReply ∧
    ((Fetch.values {} Sample.context s).run (constantReader Sample.brokenReply).inTurn ()).1 =
      (after, .ok summary) ∧
    q ∈ ReadPlan.small {} s ∧ q.path = ⟨"s", [.index 1, .field "a"]⟩ ∧
    after.find? q.key = some q₁ ∧ q₁.status = .readFailed reason ∧
    ¬∃ slot ∈ q.pending.slotList ++
      q.pending.dataSlots {} (Sample.words Sample.context.storageTarget q.location.slot),
      slot == 0 := by
  let ended (s : LayoutStore) :=
    ((Fetch.values {} Sample.context s).run (constantReader Sample.brokenReply).inTurn ()).1
  let failed : Status := .readFailed (Error.transport .noWord).message
  obtain ⟨s, hs, hcheck⟩ := exists_ok_of_any
    (x := (Resolver.mk Sample.model {}).fullLayout ["A"])
    (p := fun s => (ended s).2.toOption.isSome && (ReadPlan.small {} s).any fun q =>
      q.path == ⟨"s", [.index 1, .field "a"]⟩ &&
      ((ended s).1.find? q.key).any (·.status == failed) &&
      !((q.pending.slotList ++
        q.pending.dataSlots {} (Sample.words Sample.context.storageTarget q.location.slot)).any
          (· == 0))) <| by decide +kernel
  simp only [Bool.and_eq_true, List.any_eq_true, beq_iff_eq, Bool.not_eq_true',
    Option.isSome_iff_exists, Option.any_eq_true] at hcheck
  obtain ⟨⟨summary, hsummary⟩, q, hq, ⟨hpath, q₁, hfound, hstatus⟩, hown⟩ := hcheck
  have hended : (ended s).2 = .ok summary := eq_ok_of_toOption hsummary
  refine ⟨s, q, (ended s).1, summary, q₁, _, hs, failsAt_replyUnless _ _, Prod.ext rfl hended, hq,
    hpath, hfound, hstatus, ?_⟩
  exact fun h => Bool.false_ne_true (hown.symm.trans (List.any_eq_true.2 h))

end StorageAtlas
