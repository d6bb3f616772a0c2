import StorageAtlas.Proofs.Insertion
import StorageAtlas.Proofs.Preimages
import StorageAtlas.Proofs.StoreIndex

/-!
# What a store keeps

Whatever is done to a store, and also where it is refused, what it holds stays where it stands:
a record is never moved, dropped or placed anew, and only its state of reading changes
(`LayoutStore.Continues`). One lemma says so of each operation, and runs of any length follow.
-/

namespace StorageAtlas

/-- One operation on a store. -/
inductive StoreOp
  | insert (r : SlotRecord)
  | merge (other : LayoutStore)
  | attachValue (key : RecordKey) (raw : Bytes) (value : Option Value)
  | setStatus (key : RecordKey) (status : Status)
  | markFailed (key : RecordKey) (reason : String)

/-- Whether the operation is one on a single record. -/
def StoreOp.isSingle : StoreOp → Bool
  | merge _ => false
  | _ => true

namespace LayoutStore

/-- The store after an attempt, and why it was refused. -/
def after (s : LayoutStore) : Except Error LayoutStore → LayoutStore × Option Error
  | .ok s' => (s', none)
  | .error e => (s, some e)

/-- The store that an operation leaves, and why it was refused. -/
def perform (s : LayoutStore) : StoreOp → LayoutStore × Option Error
  | .insert r => s.after ((s.insert r).map (·.1))
  | .merge other => s.merge other
  | .attachValue key raw value => s.after (s.attachValue key raw value)
  | .setStatus key status => s.after (s.setStatus key status)
  | .markFailed key reason => s.after (s.markFailed key reason)

/-- The store after some operations, of which any may be refused. -/
def performAll (s : LayoutStore) (ops : List StoreOp) : LayoutStore :=
  ops.foldl (fun s op => (s.perform op).1) s

/-- What a store keeps of an earlier state of it. -/
structure Continues (s s' : LayoutStore) : Prop where
  /-- A record keeps its position and all that it says but its state of reading. -/
  kept : ∀ (i : Nat) (r : SlotRecord), s.records[i]? = some r →
    ∃ status raw value, s'.records[i]? = some (r.reread status raw value)
  /-- A record behind those has a key of its own. -/
  fresh : ∀ (i : Nat) (r : SlotRecord), s'.records[i]? = some r → s.size ≤ i →
    s.find? r.key = none
  distinct : (s.records.map (·.key)).Nodup → (s'.records.map (·.key)).Nodup

variable {s s' s'' : LayoutStore} {key : RecordKey}

theorem find?_eq_none_iff : s.find? key = none ↔ ∀ r ∈ s.records, r.key ≠ key := by
  simp [find?, List.find?_eq_none]

namespace Continues

theorem refl (s : LayoutStore) : s.Continues s where
  kept _ r h := ⟨r.status, r.raw, r.value, h⟩
  fresh _ _ h hi := absurd (List.getElem?_eq_some_iff.1 h).1 (Nat.not_lt.2 hi)
  distinct := id

theorem size_le (h : s.Continues s') : s.size ≤ s'.size := by
  by_contra hlt
  have hin : s'.size < s.records.length := Nat.lt_of_not_le hlt
  obtain ⟨_, _, _, hat⟩ := h.kept s'.size _ (List.getElem?_eq_getElem hin)
  exact absurd (List.getElem?_eq_some_iff.1 hat).1 (Nat.lt_irrefl _)

/-- A key that is taken stays taken. -/
theorem find?_eq_none (h : s.Continues s') (hnone : s'.find? key = none) :
    s.find? key = none := by
  refine find?_eq_none_iff.2 fun r hr => ?_
  obtain ⟨i, hi⟩ := List.mem_iff_getElem?.1 hr
  obtain ⟨status, raw, value, hat⟩ := h.kept i r hi
  exact find?_eq_none_iff.1 hnone (r.reread status raw value) (List.mem_of_getElem? hat)

theorem trans (h : s.Continues s') (h' : s'.Continues s'') : s.Continues s'' where
  kept i r hr := by
    obtain ⟨_, _, _, hr'⟩ := h.kept i r hr
    obtain ⟨status, raw, value, hr''⟩ := h'.kept i _ hr'
    exact ⟨status, raw, value, hr''⟩
  fresh i r hr hi := by
    rcases Nat.lt_or_ge i s'.records.length with hlt | hge
    · -- A record that was new in between has kept its key.
      obtain ⟨_, _, _, hr'⟩ := h'.kept i _ (List.getElem?_eq_getElem hlt)
      obtain rfl := Option.some.inj (hr.symm.trans hr')
      have hfresh : s.find? s'.records[i].key = none :=
        h.fresh i _ (List.getElem?_eq_getElem hlt) hi
      exact hfresh
    · exact h.find?_eq_none (h'.fresh i r hr hge)
  distinct hs := h'.distinct (h.distinct hs)

/-- **The commitment follows the keys**: without a new one it is the same. -/
theorem commitment_eq (h : s.Continues s') (hnew : ∀ r ∈ s'.records, s.find? r.key ≠ none) :
    s'.commitment = s.commitment := by
  have hsize : s'.size = s.size := by
    refine Nat.le_antisymm (Nat.le_of_not_lt fun hlt => ?_) h.size_le
    have hlast := List.getElem?_eq_getElem hlt
    exact hnew _ (List.mem_of_getElem? hlast) (h.fresh _ _ hlast (Nat.le_refl _))
  have hentries : s'.records.map (·.preimage) = s.records.map (·.preimage) := by
    refine List.ext_getElem ?_ fun i hi' hi => ?_
    · rw [List.length_map, List.length_map]
      exact hsize
    simp only [List.length_map] at hi hi'
    obtain ⟨_, _, _, hat⟩ := h.kept i _ (List.getElem?_eq_getElem hi)
    obtain ⟨_, hat⟩ := List.getElem?_eq_some_iff.1 hat
    rw [List.getElem_map, List.getElem_map, hat, SlotRecord.preimage_reread]
  rw [commitment, commitment, preimage, preimage, hsize, List.flatMap_def, List.flatMap_def,
    hentries]

end Continues

/-! ## One operation -/

/-- **Adding a record** puts it behind the others, unless its key is taken. -/
theorem insert_continues {r : SlotRecord} {new : Bool} (h : s.insert r = .ok (s', new)) :
    s.Continues s' := by
  have hgrows := insert_grows h
  unfold insert at h
  split at h
  · next hnone =>
    obtain ⟨rfl, -⟩ := Prod.mk.inj (Except.ok.inj h)
    refine ⟨fun i q hq => ?_, fun i q hq hi => ?_, hgrows.keys⟩
    · have hi := (List.getElem?_eq_some_iff.1 hq).1
      exact ⟨q.status, q.raw, q.value, by rw [List.getElem?_append_left hi]; exact hq⟩
    · rw [List.getElem?_append_right hi] at hq
      obtain rfl : q = r := by simpa using List.mem_of_getElem? hq
      exact hnone
  · split at h
    · obtain ⟨rfl, -⟩ := Prod.mk.inj (Except.ok.inj h)
      exact .refl _
    · exact nomatch h

theorem insertAll_continues (rs : List SlotRecord) (s : LayoutStore) :
    s.Continues (s.insertAll rs).1 := by
  induction rs generalizing s with
  | nil => exact .refl s
  | cons r rs ih =>
    rw [insertAll]
    split
    · next h => exact (insert_continues h).trans (ih _)
    · exact .refl s

/-- **Changing a state of reading** moves nothing. -/
theorem modify_continues {f : SlotRecord → SlotRecord}
    (hf : ∀ r, ∃ status raw value, f r = r.reread status raw value)
    (h : s.modify key f = .ok s') : s.Continues s' := by
  have hkey : ∀ r, (f r).key = r.key := fun r => by
    obtain ⟨_, _, _, hr⟩ := hf r
    rw [hr]
    rfl
  unfold modify at h
  split at h
  · obtain rfl := Except.ok.inj h
    refine ⟨fun i r hr => ?_, fun i r hr hi => ?_, fun hs => ?_⟩
    · rw [List.getElem?_map, hr]
      by_cases hr' : r.key = key
      · obtain ⟨status, raw, value, hfr⟩ := hf r
        exact ⟨status, raw, value, by simp [hr', hfr]⟩
      · exact ⟨r.status, r.raw, r.value, by simp [hr']; rfl⟩
    · have hin := (List.getElem?_eq_some_iff.1 hr).1
      rw [List.length_map] at hin
      exact absurd hin (Nat.not_lt.2 hi)
    · have hkeys : ∀ r ∈ s.records, (if r.key = key then f r else r).key = r.key := by
        intro r _
        split
        · exact hkey r
        · rfl
      rwa [List.map_map, List.map_congr_left (fun r hr => by exact hkeys r hr)]
  · exact nomatch h

theorem after_continues {answer : Except Error LayoutStore}
    (h : ∀ s', answer = .ok s' → s.Continues s') : s.Continues (s.after answer).1 := by
  match answer with
  | .ok s' => exact h s' rfl
  | .error _ => exact .refl s

/-- **No operation loses anything**, also where it is refused. -/
theorem perform_continues (s : LayoutStore) (op : StoreOp) : s.Continues (s.perform op).1 := by
  match op with
  | .insert r =>
    refine after_continues fun s' h => ?_
    rcases hinsert : s.insert r with e | ⟨grown, new⟩
    · rw [hinsert] at h
      exact nomatch h
    · rw [hinsert] at h
      obtain rfl := Except.ok.inj h
      exact insert_continues hinsert
  | .merge other => exact insertAll_continues other.records s
  | .attachValue key raw value =>
    exact after_continues fun _ => modify_continues fun r => ⟨r.status, some raw, value, rfl⟩
  | .setStatus key status =>
    exact after_continues fun _ => modify_continues fun r => ⟨status, r.raw, r.value, rfl⟩
  | .markFailed key reason =>
    exact after_continues fun _ => modify_continues fun _ => ⟨.readFailed reason, none, none, rfl⟩

theorem performAll_continues (ops : List StoreOp) (s : LayoutStore) :
    s.Continues (s.performAll ops) := by
  induction ops generalizing s with
  | nil => exact .refl s
  | cons op ops ih => exact (s.perform_continues op).trans (ih _)

/-! ## Refusals -/

/-- An operation on a single record that is refused changes nothing. -/
theorem perform_refused {op : StoreOp} {e : Error} (hop : op.isSingle)
    (h : (s.perform op).2 = some e) : (s.perform op).1 = s := by
  have hafter : ∀ answer, (s.after answer).2 = some e → (s.after answer).1 = s
    | .ok _, h => nomatch h
    | .error _, _ => rfl
  match op with
  | .insert _ | .attachValue .. | .setStatus .. | .markFailed .. => exact hafter _ h
  | .merge _ => exact nomatch hop

/-- What an addition of records leaves behind that is refused at `r`: the new records of those
`before` it. -/
structure BreaksOff (s : LayoutStore) (before : List SlotRecord) (r : SlotRecord)
    (s' : LayoutStore) (e : Error) : Prop where
  conflict : ∃ stored, s.find? r.key = some stored ∧ stored.samePlacement r = false ∧
    e = otherPlacement stored r
  records : s'.records = s.records ++ before.filter fun q => (s.find? q.key).isNone

theorem find?_append_of_ne {r : SlotRecord} (h : r.key ≠ key) :
    (LayoutStore.mk (s.records ++ [r])).find? key = s.find? key := by
  simp [find?, List.find?_append, h]

theorem insertAll_breaksOff {rs : List SlotRecord} {e : Error} (hrs : (rs.map (·.key)).Nodup)
    (h : (s.insertAll rs).2 = some e) :
    ∃ before r behind, rs = before ++ r :: behind ∧ s.BreaksOff before r (s.insertAll rs).1 e := by
  induction rs generalizing s with
  | nil => exact nomatch h
  | cons r rs ih =>
    obtain ⟨hr, hrs⟩ := List.nodup_cons.1 hrs
    rw [insertAll, insert] at h ⊢
    rcases hfind : s.find? r.key with _ | stored
    · -- `r` is new, and no later record has its key.
      simp only [hfind] at h ⊢
      obtain ⟨before, q, behind, rfl, ⟨stored, hstored, hconflict⟩, hrecords⟩ := ih hrs h
      have hne : ∀ p ∈ before ++ q :: behind, r.key ≠ p.key := fun p hp heq =>
        hr (List.mem_map.2 ⟨p, hp, heq.symm⟩)
      refine ⟨r :: before, q, behind, rfl, ⟨stored, ?_, hconflict⟩, ?_⟩
      · rwa [find?_append_of_ne (hne q (by simp))] at hstored
      · have hkept : before.filter (fun p =>
            ((LayoutStore.mk (s.records ++ [r])).find? p.key).isNone) =
              before.filter fun p => (s.find? p.key).isNone :=
          List.filter_congr fun p hp => by
            rw [find?_append_of_ne (hne p (List.mem_append_left _ hp))]
        rw [hrecords, hkept, List.filter_cons_of_pos (by simp [hfind])]
        simp
    · by_cases hsame : stored.samePlacement r
      · simp only [hfind, hsame, if_true] at h ⊢
        obtain ⟨before, q, behind, rfl, hconflict, hrecords⟩ := ih hrs h
        refine ⟨r :: before, q, behind, rfl, hconflict, ?_⟩
        rw [hrecords, List.filter_cons_of_neg (by simp [hfind])]
      · simp only [hfind, hsame] at h ⊢
        exact ⟨[], r, rs, rfl, ⟨stored, hfind, by simpa using hsame, by simpa using h.symm⟩,
          by simp⟩

end LayoutStore

/-! ## With an index -/

namespace IndexedStore

/-- The store that an operation leaves, and why it was refused. -/
def perform (s : IndexedStore) : StoreOp → IndexedStore × Option Error
  | .insert r =>
    match s.insert r with
    | (s', .ok _) => (s', none)
    | (s', .error e) => (s', some e)
  | .merge other => s.insertAll other.records
  | .attachValue key raw value => s.attachValue key raw value
  | .setStatus key status => s.setStatus key status
  | .markFailed key reason => s.markFailed key reason

def performAll (s : IndexedStore) (ops : List StoreOp) : IndexedStore :=
  ops.foldl (fun s op => (s.perform op).1) s

theorem after_modify {s : IndexedStore} {key : RecordKey} (f : SlotRecord → SlotRecord)
    (hf : ∀ r, (f r).key = r.key) : s.plain.after (s.plain.modify key f) =
      ((s.modify key f hf).1.plain, (s.modify key f hf).2) := by
  rw [modify_eq f hf]
  rcases hmodify : s.modify key f hf with ⟨s', _ | e⟩
  · rfl
  · have hleft : (s.modify key f hf).1 = s := modify_error (congrArg Prod.snd hmodify)
    rw [hmodify] at hleft
    exact congrArg (fun t => (plain t, some e)) hleft.symm

/-- **The index changes no answer**, and the stores that are left have the same records. -/
theorem perform_eq (s : IndexedStore) (op : StoreOp) :
    s.plain.perform op = ((s.perform op).1.plain, (s.perform op).2) := by
  match op with
  | .insert r =>
    rw [LayoutStore.perform, insert_eq, perform]
    rcases hinsert : s.insert r with ⟨s', e | new⟩
    · have hleft := insert_error (congrArg Prod.snd hinsert)
      rw [hinsert] at hleft
      exact congrArg (fun t => (plain t, some e)) hleft.symm
    · rfl
  | .merge other => exact insertAll_eq other.records s
  | .attachValue .. | .setStatus .. | .markFailed .. => exact after_modify _ _

theorem performAll_eq (ops : List StoreOp) (s : IndexedStore) :
    s.plain.performAll ops = (s.performAll ops).plain := by
  induction ops generalizing s with
  | nil => rfl
  | cons op ops ih =>
    show (s.plain.perform op).1.performAll ops = _
    rw [perform_eq]
    exact ih _

/-- An operation on a single record that is refused changes neither records nor table. -/
theorem perform_error {s : IndexedStore} {op : StoreOp} {e : Error} (hop : op.isSingle)
    (h : (s.perform op).2 = some e) : (s.perform op).1 = s := by
  match op with
  | .insert r =>
    rw [perform] at h ⊢
    rcases hinsert : s.insert r with ⟨s', e' | new⟩
    · have hleft := insert_error (congrArg Prod.snd hinsert)
      rwa [hinsert] at hleft
    · rw [hinsert] at h
      exact nomatch h
  | .attachValue .. | .setStatus .. | .markFailed .. => exact modify_error h
  | .merge _ => exact nomatch hop

/-- What an indexed store shares with a plain one. -/
structure Mirrors (s : IndexedStore) (t : LayoutStore) : Prop where
  records : s.records = t.records
  found : ∀ key, s.get? key = t.find? key
  answers : ∀ op, (s.perform op).2 = (t.perform op).2
  refused : ∀ op e, op.isSingle → (s.perform op).2 = some e → (s.perform op).1 = s

theorem mirrors_plain (s : IndexedStore) : s.Mirrors s.plain where
  records := rfl
  found := s.get?_eq
  answers op := (congrArg Prod.snd (s.perform_eq op)).symm
  refused _ _ := perform_error

end IndexedStore

/-! ## Runs -/

namespace LayoutStore

/-- What can be relied on of a store. -/
structure Reliable (s : LayoutStore) : Prop where
  distinct : (s.records.map (·.key)).Nodup
  found : ∀ (key : RecordKey) (r : SlotRecord),
    s.find? key = some r ↔ r ∈ s.records ∧ r.key = key
  /-- Nothing is lost, moved or placed anew. -/
  lasting : ∀ ops : List StoreOp, s.Continues (s.performAll ops)
  /-- Another commitment means a new key. -/
  committed : ∀ ops : List StoreOp, (s.performAll ops).commitment ≠ s.commitment →
    ∃ r ∈ (s.performAll ops).records, s.find? r.key = none
  refused : ∀ (op : StoreOp) (e : Error), op.isSingle → (s.perform op).2 = some e →
    (s.perform op).1 = s
  /-- A merge that is refused has taken up what stands in front of the conflict. -/
  broken : ∀ (other : LayoutStore) (e : Error), (other.records.map (·.key)).Nodup →
    (s.perform (.merge other)).2 = some e →
      ∃ before r behind, other.records = before ++ r :: behind ∧
        s.BreaksOff before r (s.perform (.merge other)).1 e

/-- **Every store can be relied on**, whatever was done to it and whatever of that was refused,
and a store with an index goes along with it. That another store has distinct keys is no
condition on a merge, since all stores have them. -/
theorem performAll_reliable (ops : List StoreOp) :
    (performAll {} ops).Reliable ∧
      (IndexedStore.empty.performAll ops).Mirrors (performAll {} ops) := by
  have hdistinct := ((performAll_continues ops {}).distinct List.nodup_nil)
  refine ⟨⟨hdistinct, fun _ _ => find?_eq_some_iff hdistinct,
    fun later => performAll_continues later _, fun later hne => ?_,
    fun _ _ => perform_refused, fun _ _ => insertAll_breaksOff⟩, ?_⟩
  · by_contra hold
    refine hne ((performAll_continues later _).commitment_eq fun r hr hnone => ?_)
    exact hold ⟨r, hr, hnone⟩
  · have hplain : performAll {} ops = (IndexedStore.empty.performAll ops).plain :=
      IndexedStore.performAll_eq ops .empty
    rw [hplain]
    exact IndexedStore.mirrors_plain _

end LayoutStore

end StorageAtlas
