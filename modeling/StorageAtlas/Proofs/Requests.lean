import StorageAtlas.Proofs.Answers

/-!
# Requests for words

Which words a computation asks for, whatever it is told (`Dialogue.Transcript`, and
`Fetch.Transcript` for the rounds of a fetch). A read is attempted once, and again for the same
slots up to the number of retries (`AttemptsAt`). A record is read for at most twice: its own slots,
and the data of a long byte string, which is no longer than is allowed (`ReadsFor`).
`Job.run_transcript`: a job asks for reads of that kind, for the records that it settles.
-/

namespace StorageAtlas

/-! ## What is asked -/

namespace Dialogue

variable {Q : Type} {A : Q → Type} {α β σ : Type}

/-- Some answers lead through these questions to the value. -/
inductive Transcript : Dialogue Q A α → List Q → α → Prop
  | done (a : α) : Transcript (done a) [] a
  | ask {q : Q} {next : A q → Dialogue Q A α} (reply : A q) {qs : List Q} {a : α}
    (h : Transcript (next reply) qs a) : Transcript (ask q next) (q :: qs) a
  | pause {ms : Nat} {next : Dialogue Q A α} {qs : List Q} {a : α} (h : Transcript next qs a) :
    Transcript (pause ms next) qs a

variable {d : Dialogue Q A α} {f : α → Dialogue Q A β} {qs : List Q}

theorem transcript_done {a b : α} (h : (done a : Dialogue Q A α).Transcript qs b) :
    qs = [] ∧ b = a := by
  cases h
  exact ⟨rfl, rfl⟩

theorem transcript_bind {b : β} (h : (d.bind f).Transcript qs b) :
    ∃ before behind a, d.Transcript before a ∧ (f a).Transcript behind b ∧
      qs = before ++ behind := by
  induction d generalizing qs with
  | done a => exact ⟨[], qs, a, .done a, h, rfl⟩
  | ask q next ih =>
    cases h with
    | ask reply h =>
      obtain ⟨before, behind, a, ha, hb, rfl⟩ := ih reply h
      exact ⟨q :: before, behind, a, .ask reply ha, hb, rfl⟩
  | pause ms next ih =>
    cases h with
    | pause h =>
      obtain ⟨before, behind, a, ha, hb, rfl⟩ := ih h
      exact ⟨before, behind, a, .pause ha, hb, rfl⟩

theorem transcript_map {g : α → β} {b : β} (h : (d.map g).Transcript qs b) :
    ∃ a, d.Transcript qs a ∧ b = g a := by
  obtain ⟨before, behind, a, ha, hb, rfl⟩ := transcript_bind h
  obtain ⟨rfl, rfl⟩ := transcript_done hb
  exact ⟨a, by rwa [List.append_nil], rfl⟩

theorem yields_iff_transcript {a : α} : d.Yields a ↔ ∃ qs, d.Transcript qs a := by
  constructor
  · intro h
    induction h with
    | done a => exact ⟨[], .done a⟩
    | ask reply _ ih =>
      obtain ⟨qs, h⟩ := ih
      exact ⟨_, .ask reply h⟩
    | pause _ ih =>
      obtain ⟨qs, h⟩ := ih
      exact ⟨qs, .pause h⟩
  · rintro ⟨qs, h⟩
    induction h with
    | done a => exact .done a
    | ask reply _ ih => exact .ask reply ih
    | pause _ ih => exact .pause ih

/-- Attempts made again ask the one question again. -/
theorem transcript_withRetries {longest : Nat} {attempt : Dialogue Q A (Except Error α)} {q : Q}
    (hattempt : ∀ {qs a}, attempt.Transcript qs a → qs = [q]) {a : Except Error α} :
    ∀ {retries backoff : Nat} {qs : List Q},
      (withRetries longest attempt retries backoff).Transcript qs a →
      ∃ again ≤ retries, qs = List.replicate (again + 1) q := by
  intro retries
  induction retries with
  | zero => exact fun h => ⟨0, Nat.le_refl 0, hattempt h⟩
  | succ retries ih =>
    intro backoff qs h
    obtain ⟨before, behind, result, hfirst, hrest, rfl⟩ := transcript_bind h
    obtain rfl := hattempt hfirst
    split at hrest
    · obtain ⟨rfl, -⟩ := transcript_done hrest
      exact ⟨0, Nat.zero_le _, rfl⟩
    · split at hrest
      · cases hrest with
        | pause hrest =>
          obtain ⟨again, hle, rfl⟩ := ih hrest
          exact ⟨again + 1, Nat.succ_le_succ hle, rfl⟩
      · obtain ⟨rfl, -⟩ := transcript_done hrest
        exact ⟨0, Nat.zero_le _, rfl⟩

end Dialogue

/-- A read asks for its slots, and again for the same. -/
theorem Reading.words_transcript {config : ReaderConfig} {address : Address} {slots : List Word}
    {requests : List ReadRequest} {result : Except Error (List Word)}
    (h : (Reading.words config address slots).Transcript requests result) :
    ∃ again ≤ config.retries,
      requests = List.replicate (again + 1) ⟨address, slots, config.timeoutMs⟩ := by
  obtain ⟨given, hgiven, -⟩ := Dialogue.transcript_map h
  refine Dialogue.transcript_withRetries (fun {qs a} hattempt => ?_) hgiven
  unfold attempt at hattempt
  cases hattempt with
  | ask reply hdone =>
    cases reply with
    | none | some =>
      obtain ⟨rfl, -⟩ := Dialogue.transcript_done hdone
      rfl

/-! ## Reads for records -/

/-- What is read for a record. -/
inductive ReadPart
  /-- The slots it takes. -/
  | own
  /-- The bytes of a long byte string. -/
  | data
deriving DecidableEq

/-- Slots that are read at once, and what for. -/
structure SlotRead where
  key : RecordKey
  part : ReadPart
  slots : List Word

def Pending.ownRead (p : Pending) : SlotRead := ⟨p.key, .own, p.slotList⟩

def Pending.dataRead (p : Pending) (length : Nat) : SlotRead :=
  ⟨p.key, .data, longSlots p.location.slot length⟩

/-- The attempts at some reads, one read after the other; each read is attempted once, and again up
to the number of retries. -/
inductive AttemptsAt (config : ReaderConfig) (address : Address) :
    List SlotRead → List ReadRequest → Prop
  | nil : AttemptsAt config address [] []
  | cons (read : SlotRead) {again : Nat} (hagain : again ≤ config.retries) {reads : List SlotRead}
    {requests : List ReadRequest} (h : AttemptsAt config address reads requests) :
    AttemptsAt config address (read :: reads)
      (List.replicate (again + 1) ⟨address, read.slots, config.timeoutMs⟩ ++ requests)

/-- At most two reads for each of some records: its own slots, and then its data. -/
inductive ReadsFor (config : ReaderConfig) : List Pending → List SlotRead → Prop
  | nil : ReadsFor config [] []
  | cons {p : Pending} {length : Nat} (hlength : length ≤ config.maxDynamicBytes)
    {part : List SlotRead} (hpart : part.Sublist [p.ownRead, p.dataRead length])
    {ps : List Pending} {reads : List SlotRead} (h : ReadsFor config ps reads) :
    ReadsFor config (p :: ps) (part ++ reads)

variable {config : ReaderConfig} {address : Address}

namespace AttemptsAt

variable {reads reads' : List SlotRead} {requests requests' : List ReadRequest}

theorem append (h : AttemptsAt config address reads requests)
    (h' : AttemptsAt config address reads' requests') :
    AttemptsAt config address (reads ++ reads') (requests ++ requests') := by
  induction h with
  | nil => exact h'
  | cons read hagain _ ih =>
    rw [List.append_assoc]
    exact .cons read hagain ih

theorem length_slots_le (h : AttemptsAt config address reads requests) {bound : Nat}
    (hreads : ∀ read ∈ reads, read.slots.length ≤ bound) :
    ∀ q ∈ requests, q.slots.length ≤ bound := by
  induction h with
  | nil => exact fun q hq => nomatch hq
  | cons read _ _ ih =>
    obtain ⟨hread, hrest⟩ := List.forall_mem_cons.1 hreads
    intro q hq
    rcases List.mem_append.1 hq with hq | hq
    · rw [(List.mem_replicate.1 hq).2]
      exact hread
    · exact ih hrest q hq

theorem length_slots_le_of_jobs {bound : Nat} {jobs : List (List SlotRead)}
    {asked : List (List ReadRequest)} (h : List.Forall₂ (AttemptsAt config address) jobs asked)
    (hreads : ∀ read ∈ jobs.flatten, read.slots.length ≤ bound) :
    ∀ requests ∈ asked, ∀ q ∈ requests, q.slots.length ≤ bound := by
  induction h with
  | nil => exact fun requests hrequests => nomatch hrequests
  | cons hfirst _ ih =>
    rw [List.flatten_cons, List.forall_mem_append] at hreads
    exact List.forall_mem_cons.2 ⟨hfirst.length_slots_le hreads.1, ih hreads.2⟩

end AttemptsAt

namespace ReadsFor

variable {ps ps' : List Pending} {reads reads' : List SlotRead}

theorem none (config : ReaderConfig) : ∀ ps : List Pending, ReadsFor config ps []
  | [] => .nil
  | _ :: ps => .cons (Nat.zero_le _) (List.nil_sublist _) (none config ps)

theorem append (h : ReadsFor config ps reads) (h' : ReadsFor config ps' reads') :
    ReadsFor config (ps ++ ps') (reads ++ reads') := by
  induction h with
  | nil => exact h'
  | cons hlength hpart _ ih =>
    rw [List.append_assoc]
    exact .cons hlength hpart ih

theorem exists_of_mem (h : ReadsFor config ps reads) {read : SlotRead} (hread : read ∈ reads) :
    ∃ p ∈ ps, read = p.ownRead ∨ ∃ length ≤ config.maxDynamicBytes, read = p.dataRead length := by
  induction h with
  | nil => exact nomatch hread
  | cons hlength hpart _ ih =>
    rcases List.mem_append.1 hread with hread | hread
    · refine ⟨_, List.mem_cons_self, ?_⟩
      rcases List.mem_pair.1 (hpart.subset hread) with rfl | rfl
      · exact .inl rfl
      · exact .inr ⟨_, hlength, rfl⟩
    · obtain ⟨p, hp, hread⟩ := ih hread
      exact ⟨p, List.mem_cons_of_mem _ hp, hread⟩

/-- **No read is larger** than the limits allow. -/
theorem length_slots_le (h : ReadsFor config ps reads)
    (hsmall : ∀ p ∈ ps, p.slots ≤ config.slotLimit) {read : SlotRead} (hread : read ∈ reads) :
    read.slots.length ≤ max 1 ((config.maxDynamicBytes + 31) / 32) := by
  obtain ⟨p, hp, rfl | ⟨length, hlength, rfl⟩⟩ := h.exists_of_mem hread
  · have hslots : p.ownRead.slots.length = p.slots := by
      simp [Pending.ownRead, Pending.slotList, Word.consecutive]
    have hle : p.slots ≤ max (config.maxDynamicBytes / 32) 1 := hsmall p hp
    omega
  · have hslots : (p.dataRead length).slots.length = (length + 31) / 32 := by
      simp [Pending.dataRead, longSlots, Word.consecutive]
    omega

/-- **A record is read for at most twice**, if it is there once. -/
theorem length_filter_le (h : ReadsFor config ps reads) (key : RecordKey) :
    (reads.filter (·.key == key)).length ≤ 2 * (ps.map (·.key)).count key := by
  induction h with
  | nil => exact Nat.le_refl 0
  | @cons p length hlength part hpart ps reads h ih =>
    have hfirst : (part.filter (·.key == key)).length ≤ 2 * [p.key].count key := by
      refine Nat.le_trans (hpart.filter _).length_le ?_
      by_cases hkey : p.key = key
      · simp [Pending.ownRead, Pending.dataRead, hkey]
      · simp [Pending.ownRead, Pending.dataRead, hkey]
    rw [List.filter_append, List.length_append, List.map_cons, ← List.singleton_append,
      List.count_append, Nat.mul_add]
    exact Nat.add_le_add hfirst ih

end ReadsFor

/-! ## Jobs -/

namespace Pending

variable {p : Pending} {words : List Word} {headWords : Nat} {requests : List ReadRequest}

/-- **To settle a record** is to read its data at most. -/
theorem settle_transcript {o : Outcome}
    (h : (p.settle config address words headWords).Transcript requests o) :
    ∃ length ≤ config.maxDynamicBytes, ∃ reads : List SlotRead,
      reads.Sublist [p.dataRead length] ∧ AttemptsAt config address reads requests := by
  rcases p.exists_settle_eq config address words with
    ⟨raw, value, hsettle⟩ | ⟨o, hsettle⟩ | ⟨length, hsettle⟩
  · rw [hsettle] at h
    obtain ⟨rfl, -⟩ := Dialogue.transcript_done h
    exact ⟨0, Nat.zero_le _, [], List.nil_sublist _, .nil⟩
  · rw [hsettle] at h
    obtain ⟨rfl, -⟩ := Dialogue.transcript_done h
    exact ⟨0, Nat.zero_le _, [], List.nil_sublist _, .nil⟩
  · rw [hsettle, settleLong] at h
    split at h
    · obtain ⟨rfl, -⟩ := Dialogue.transcript_done h
      exact ⟨0, Nat.zero_le _, [], List.nil_sublist _, .nil⟩
    · next hlimit =>
      obtain ⟨result, hresult, -⟩ := Dialogue.transcript_map h
      obtain ⟨again, hagain, rfl⟩ := Reading.words_transcript hresult
      refine ⟨length.toNat, Nat.le_of_not_lt hlimit, [_], .refl _, ?_⟩
      have hattempts := AttemptsAt.cons (p.dataRead length.toNat) hagain
        (.nil : AttemptsAt config address [] [])
      rwa [List.append_nil] at hattempts

end Pending

namespace Job

variable {j : Job} {words : List Word} {requests : List ReadRequest}

theorem settleMember_transcript {m : Pending} {settled : Settled}
    (h : (j.settleMember config address words m).Transcript requests settled) :
    ∃ length ≤ config.maxDynamicBytes, ∃ reads : List SlotRead,
      reads.Sublist [m.dataRead length] ∧ AttemptsAt config address reads requests := by
  unfold settleMember at h
  simp only at h
  split at h
  · obtain ⟨o, ho, -⟩ := Dialogue.transcript_map h
    exact Pending.settle_transcript ho
  · obtain ⟨rfl, -⟩ := Dialogue.transcript_done h
    exact ⟨0, Nat.zero_le _, [], List.nil_sublist _, .nil⟩

theorem settleMembers_transcript : ∀ {ms : List Pending} {requests : List ReadRequest}
    {settled : List Settled},
    (j.settleMembers config address words ms).Transcript requests settled →
    ∃ reads, ReadsFor config ms reads ∧ AttemptsAt config address reads requests := by
  intro ms
  induction ms with
  | nil =>
    intro requests settled h
    obtain ⟨rfl, -⟩ := Dialogue.transcript_done h
    exact ⟨[], .nil, .nil⟩
  | cons m ms ih =>
    intro requests settled h
    obtain ⟨before, behind, first, hfirst, hrest, rfl⟩ := Dialogue.transcript_bind h
    obtain ⟨length, hlength, part, hpart, hattempts⟩ := settleMember_transcript hfirst
    obtain ⟨rest, hrest, -⟩ := Dialogue.transcript_map hrest
    obtain ⟨reads, hreads, hmore⟩ := ih hrest
    exact ⟨part ++ reads, .cons hlength (hpart.cons _) hreads, hattempts.append hmore⟩

/-- **A job reads** the slots of its reader, and the data of what it settles. -/
theorem run_transcript {settled : List Settled}
    (h : (j.run config address).Transcript requests settled) :
    ∃ reads, ReadsFor config (j.reader :: j.covered) reads ∧
      AttemptsAt config address reads requests := by
  obtain ⟨before, behind, result, hwords, hrest, rfl⟩ := Dialogue.transcript_bind h
  obtain ⟨again, hagain, rfl⟩ := Reading.words_transcript hwords
  cases result with
  | error e =>
    obtain ⟨rfl, -⟩ := Dialogue.transcript_done hrest
    refine ⟨[j.reader.ownRead], ?_, .cons _ hagain .nil⟩
    exact .cons (Nat.zero_le _) (List.singleton_sublist.2 List.mem_cons_self) (.none config _)
  | ok words =>
    obtain ⟨first, rest, o, hreader, hmembers, rfl⟩ := Dialogue.transcript_bind hrest
    obtain ⟨length, hlength, part, hpart, hattempts⟩ := Pending.settle_transcript hreader
    obtain ⟨settled, hmembers, -⟩ := Dialogue.transcript_map hmembers
    obtain ⟨reads, hreads, hmore⟩ := settleMembers_transcript hmembers
    exact ⟨(j.reader.ownRead :: part) ++ reads, .cons hlength (hpart.cons_cons _) hreads,
      .cons _ hagain (hattempts.append hmore)⟩

/-- The jobs of a round, with what each of them asks and gives. -/
theorem runs_transcript {jobs : List Job} : ∀ {ran : List (List ReadRequest × List Settled)},
    List.Forall₂ (fun job r => Dialogue.Transcript job r.1 r.2)
      (jobs.map (·.run config address)) ran →
    ∃ reads : List (List SlotRead),
      List.Forall₂ (AttemptsAt config address) reads (ran.map Prod.fst) ∧
      ReadsFor config (jobs.flatMap fun j => j.reader :: j.covered) reads.flatten := by
  induction jobs with
  | nil =>
    intro ran h
    obtain rfl := List.forall₂_nil_left_iff.1 h
    exact ⟨[], .nil, .nil⟩
  | cons j jobs ih =>
    intro ran h
    obtain ⟨first, rest, hfirst, hrest, rfl⟩ := List.forall₂_cons_left_iff.1 h
    obtain ⟨part, hpart, hattempts⟩ := run_transcript hfirst
    obtain ⟨reads, hmore, hreads⟩ := ih hrest
    exact ⟨part :: reads, .cons hattempts hmore, hpart.append hreads⟩

end Job

/-! ## Fetches -/

namespace Fetch

/-- Some answers lead a fetch, through rounds whose jobs ask for these words, to the value. Each job
asks in its own order; what the jobs give is told in any order. -/
inductive Transcript {α : Type} : Rounds α → List (List ReadRequest) → α → Prop
  | done (a : α) : Transcript (.done a) [] a
  | ask {jobs : Round} {next : List (List Settled) → Rounds α}
    {ran : List (List ReadRequest × List Settled)} {told : List (List Settled)}
    {asked : List (List ReadRequest)} {a : α}
    (hran : List.Forall₂ (fun job r => Dialogue.Transcript job r.1 r.2) jobs ran)
    (htold : told.Perm (ran.map Prod.snd)) (h : Transcript (next told) asked a) :
    Transcript (.ask jobs next) (ran.map Prod.fst ++ asked) a
  | pause {ms : Nat} {next : Rounds α} {asked : List (List ReadRequest)} {a : α}
    (h : Transcript next asked a) : Transcript (.pause ms next) asked a

variable {α β : Type} {asked : List (List ReadRequest)}

theorem transcript_done {a b : α} (h : Transcript (.done a) asked b) : asked = [] ∧ b = a := by
  cases h
  exact ⟨rfl, rfl⟩

theorem transcript_bind {d : Rounds α} {f : α → Rounds β} {b : β}
    (h : Transcript (d.bind f) asked b) :
    ∃ before behind a, Transcript d before a ∧ Transcript (f a) behind b ∧
      asked = before ++ behind := by
  induction d generalizing asked with
  | done a => exact ⟨[], asked, a, .done a, h, rfl⟩
  | ask jobs next ih =>
    cases h with
    | ask hran htold h =>
      obtain ⟨before, behind, a, ha, hb, rfl⟩ := ih _ h
      exact ⟨_, behind, a, .ask hran htold ha, hb, (List.append_assoc _ _ _).symm⟩
  | pause ms next ih =>
    cases h with
    | pause h =>
      obtain ⟨before, behind, a, ha, hb, rfl⟩ := ih h
      exact ⟨before, behind, a, .pause ha, hb, rfl⟩

/-- However the jobs of its rounds are run, a fetch asks for some words. -/
theorem exists_transcript_run {σ : Type} {w : Answerer Round (fun _ => List (List Settled)) σ}
    (hw : w.Completes) (d : Rounds α) :
    ∀ state : σ, ∃ asked, Transcript d asked (d.run w state).1 := by
  induction d with
  | done a => exact fun _ => ⟨[], .done a⟩
  | ask jobs next ih =>
    intro state
    obtain ⟨inTurn, hyields, hperm⟩ := hw state jobs
    obtain ⟨ran, hran, rfl⟩ : ∃ ran : List (List ReadRequest × List Settled),
        List.Forall₂ (fun job r => Dialogue.Transcript job r.1 r.2) jobs ran ∧
          ran.map Prod.snd = inTurn := by
      clear hperm
      induction hyields with
      | nil => exact ⟨[], .nil, rfl⟩
      | cons h _ ih =>
        obtain ⟨qs, hqs⟩ := Dialogue.yields_iff_transcript.1 h
        obtain ⟨ran, hran, rfl⟩ := ih
        exact ⟨(qs, _) :: ran, .cons hqs hran, rfl⟩
    obtain ⟨asked, hasked⟩ := ih (w.answer state jobs).1 (w.answer state jobs).2
    exact ⟨_, .ask hran hperm hasked⟩
  | pause ms next ih =>
    intro state
    obtain ⟨asked, hasked⟩ := ih (w.pause state ms)
    exact ⟨asked, .pause hasked⟩

end Fetch

end StorageAtlas
