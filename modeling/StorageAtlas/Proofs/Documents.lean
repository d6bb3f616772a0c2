import StorageAtlas.LayoutDocument
import StorageAtlas.Proofs.HexWords
import StorageAtlas.Proofs.NumericSteps
import StorageAtlas.Proofs.SortedMaps
import StorageAtlas.Proofs.StoreHistory

/-!
# What a document keeps of a layout

A document has one entry for each record of a store, under the contract and the path of the record
(`LayoutStore.entries_document`, `LayoutStore.find?_document`). An entry is made of texts, and what
they were made from can be read back (`SlotRecord.entry_tells`): the slot from its digits, the bytes
from theirs, and the status, since no two have one text. `document_lossless` puts this together: two
stores with the same document hold records under the same keys, which differ in nothing but what is
not told by the spelling of a type and the text of a value.
-/

namespace StorageAtlas

/-! ## Entries -/

/-- The entries of the contracts, with the keys they are found under. -/
def entriesOf (contracts : SortedMap (SortedMap LayoutEntry)) : List (RecordKey × LayoutEntry) :=
  contracts.flatMap fun c => c.2.map fun e => (⟨c.1, e.1⟩, e.2)

/-- The entry that is found under a key. -/
def entryAt? (contracts : SortedMap (SortedMap LayoutEntry)) (key : RecordKey) :
    Option LayoutEntry :=
  (contracts.lookup key.contract).bind (·.lookup key.path)

namespace LayoutDocument

def entries (d : LayoutDocument) : List (RecordKey × LayoutEntry) := entriesOf d.contracts

def find? (d : LayoutDocument) (key : RecordKey) : Option LayoutEntry := entryAt? d.contracts key

end LayoutDocument

section Entries

variable {contracts : SortedMap (SortedMap LayoutEntry)}

/-- **The entry of a record is found under its key**, and the others where they were. -/
theorem entryAt?_addEntry (r : SlotRecord) (key : RecordKey) :
    entryAt? (addEntry contracts r) key =
      if r.key = key then some r.entry else entryAt? contracts key := by
  obtain ⟨contract, path⟩ := key
  simp only [entryAt?, addEntry, SlotRecord.key, RecordKey.mk.injEq]
  by_cases hcontract : r.contract = contract
  · subst hcontract
    rw [SortedMap.lookup_insert_self, Option.bind_some]
    by_cases hpath : r.path.text = path
    · subst hpath
      rw [SortedMap.lookup_insert_self, if_pos ⟨rfl, rfl⟩]
    · rw [SortedMap.lookup_insert_of_ne (Ne.symm hpath), if_neg fun h => hpath h.2]
      cases contracts.lookup r.contract <;> rfl
  · rw [SortedMap.lookup_insert_of_ne (Ne.symm hcontract), if_neg fun h => hcontract h.1]

theorem entryAt?_foldl {rs : List SlotRecord} (hkeys : (rs.map (·.key)).Nodup) (key : RecordKey) :
    entryAt? (rs.foldl addEntry contracts) key =
      (((LayoutStore.mk rs).find? key).map SlotRecord.entry).or (entryAt? contracts key) := by
  induction rs generalizing contracts with
  | nil => rfl
  | cons r rs ih =>
    obtain ⟨hr, hkeys⟩ := List.nodup_cons.1 hkeys
    rw [List.foldl_cons, ih hkeys, entryAt?_addEntry, LayoutStore.find?, LayoutStore.find?,
      List.find?_cons]
    by_cases hkey : r.key = key
    · subst hkey
      have hnone : rs.find? (·.key == r.key) = none :=
        List.find?_eq_none.2 fun q hq heq => hr (List.mem_map.2 ⟨q, hq, eq_of_beq heq⟩)
      simp [hnone]
    · rw [if_neg hkey, beq_eq_false_iff_ne.2 hkey]

theorem isSorted_addEntry (h : contracts.IsSorted) (r : SlotRecord) :
    (addEntry contracts r).IsSorted := h.insert

/-- A record under a new key adds its entry to the others. -/
theorem entriesOf_addEntry (h : contracts.IsSorted) {r : SlotRecord}
    (hnew : entryAt? contracts r.key = none) :
    (entriesOf (addEntry contracts r)).Perm ((r.key, r.entry) :: entriesOf contracts) := by
  cases hcontract : contracts.lookup r.contract with
  | none =>
    have hadded := SortedMap.insert_perm_of_new [(r.path.text, r.entry)] hcontract
    rw [addEntry, hcontract]
    exact hadded.flatMap_right _
  | some paths =>
    have hpath : paths.lookup r.path.text = none := by
      simpa only [entryAt?, SlotRecord.key, hcontract, Option.bind_some] using hnew
    -- the map of the contract is replaced, and those of the other contracts, `rest`, stay
    obtain ⟨rest, hold, hreplaced⟩ := SortedMap.insert_perm_of_taken
      (SortedMap.insert r.path.text r.entry paths) h hcontract
    have hadded := SortedMap.insert_perm_of_new r.entry hpath
    rw [addEntry, hcontract, Option.getD_some]
    refine (hreplaced.flatMap_right _).trans (.trans ?_ ((hold.flatMap_right _).symm.cons _))
    rw [List.flatMap_cons, List.flatMap_cons, ← List.cons_append]
    exact (hadded.map _).append_right _

theorem isSorted_foldl (rs : List SlotRecord) : (rs.foldl addEntry []).IsSorted := by
  induction rs using List.reverseRecOn with
  | nil => exact List.Pairwise.nil
  | append_singleton rs r ih =>
    rw [List.foldl_append]
    exact isSorted_addEntry ih r

/-- **Records with keys of their own have one entry each.** -/
theorem entriesOf_foldl {rs : List SlotRecord} (hkeys : (rs.map (·.key)).Nodup) :
    (entriesOf (rs.foldl addEntry [])).Perm (rs.map fun r => (r.key, r.entry)) := by
  -- from the back, since the record that is added last meets the entries of all others
  induction rs using List.reverseRecOn with
  | nil => exact .refl _
  | append_singleton rs r ih =>
    rw [List.map_append, List.map_singleton, List.nodup_append] at hkeys
    obtain ⟨hrs, -, hnew⟩ := hkeys
    have hnone : entryAt? (rs.foldl addEntry []) r.key = none := by
      have hfresh : (LayoutStore.mk rs).find? r.key = none :=
        LayoutStore.find?_eq_none_iff.2 fun q hq =>
          hnew _ (List.mem_map_of_mem hq) _ List.mem_cons_self
      rw [entryAt?_foldl hrs, hfresh]
      rfl
    rw [List.foldl_append, List.map_append]
    refine (entriesOf_addEntry (isSorted_foldl rs) hnone).trans ?_
    exact ((ih hrs).cons _).trans (List.perm_append_singleton _ _).symm

end Entries

namespace LayoutStore

variable {s : LayoutStore} (hs : (s.records.map (·.key)).Nodup)

include hs

theorem entries_document :
    s.document.entries.Perm (s.records.map fun r => (r.key, r.entry)) := entriesOf_foldl hs

theorem keys_document_nodup : (s.document.entries.map Prod.fst).Nodup := by
  refine ((entries_document hs).map _).nodup_iff.2 ?_
  rwa [List.map_map]

theorem find?_document (key : RecordKey) :
    s.document.find? key = (s.find? key).map SlotRecord.entry := by
  rw [LayoutDocument.find?, document, entryAt?_foldl hs]
  exact Option.or_none

end LayoutStore

/-! ## What an entry tells -/

/-- **No two statuses have one text.** -/
theorem Status.text_inj {a b : Status} : a.text = b.text ↔ a = b := by
  refine ⟨fun h => ?_, fun h => h ▸ rfl⟩
  have hchars := congrArg String.toList h
  cases a <;> cases b <;>
    simp only [Status.text, String.toList_append, String.reduceToList] at hchars <;>
    simp_all [String.toList_inj]

/-- What an entry tells of its record. -/
structure LayoutEntry.Tells (e : LayoutEntry) (r : SlotRecord) : Prop where
  slot : readUint e.slot.toList = .ok r.location.slot.toNat
  offset : e.offset = r.location.offset.toNat
  size : e.size = r.size
  declaredIn : e.declaredIn = r.declaredIn
  typeSpelling : e.typeSpelling = r.type.spelling
  /-- The bytes are those that the digits are read as; there are none where there are no digits. -/
  raw : e.raw.map (fun text => Text.readHex (Text.dropHexMark text.toList)) = r.raw.map .ok
  status : ∀ status : Status, e.status = status.text ↔ r.status = status

theorem SlotRecord.entry_tells (r : SlotRecord) : r.entry.Tells r where
  slot := readUint_text _
  offset := rfl
  size := rfl
  declaredIn := rfl
  typeSpelling := rfl
  raw := by
    rw [SlotRecord.entry, Option.map_map]
    exact congrArg (fun f => Option.map f r.raw) (funext Text.readHex_hex)
  status _ := Status.text_inj

/-- Two records that say the same of everything but the path, the parts of the type that its
spelling leaves out, and the value. -/
structure SlotRecord.Coincides (r q : SlotRecord) : Prop where
  location : r.location = q.location
  size : r.size = q.size
  declaredIn : r.declaredIn = q.declaredIn
  spelling : r.type.spelling = q.type.spelling
  raw : r.raw = q.raw
  status : r.status = q.status

namespace LayoutEntry.Tells

variable {e : LayoutEntry} {r q : SlotRecord}

/-- **An entry tells of one record only**, as far as it tells. -/
theorem coincides (hr : e.Tells r) (hq : e.Tells q) : r.Coincides q where
  location := by
    have hslot : r.location.slot = q.location.slot :=
      BitVec.eq_of_toNat_eq (Except.ok.inj (hr.slot.symm.trans hq.slot))
    have hoffset : r.location.offset = q.location.offset :=
      UInt8.toNat_inj.1 (hr.offset.symm.trans hq.offset)
    rcases hr : r.location with ⟨slot, offset⟩
    rcases hq : q.location with ⟨slot', offset'⟩
    simp_all
  size := hr.size.symm.trans hq.size
  declaredIn := hr.declaredIn.symm.trans hq.declaredIn
  spelling := hr.typeSpelling.symm.trans hq.typeSpelling
  raw := Option.map_injective (fun _ _ => Except.ok.inj) (hr.raw.symm.trans hq.raw)
  status := (hr.status _).1 ((hq.status _).2 rfl)

end LayoutEntry.Tells

/-! ## Documents -/

/-- A store that operations have made, of which any may have been refused. -/
def LayoutStore.IsMade (s : LayoutStore) : Prop := ∃ ops : List StoreOp, performAll {} ops = s

theorem LayoutStore.IsMade.keys_nodup {s : LayoutStore} (h : s.IsMade) :
    (s.records.map (·.key)).Nodup := by
  obtain ⟨ops, rfl⟩ := h
  exact (performAll_continues ops {}).distinct List.nodup_nil

/-- **A document loses no record.** It has one entry for each record of a store, which is found
under the contract and the path of the record, and there are no other entries. An entry tells where
its record lies, who declares it, how its type is spelled, the bytes that were read and how far the
record got. Stores with the same document have their records under the same keys, and they coincide
in all of that. -/
theorem document_lossless {s : LayoutStore} (hs : s.IsMade) :
    s.document.entries.Perm (s.records.map fun r => (r.key, r.entry)) ∧
    (s.document.entries.map Prod.fst).Nodup ∧
    (∀ key, s.document.find? key = (s.find? key).map SlotRecord.entry) ∧
    (∀ r ∈ s.records, s.document.find? r.key = some r.entry ∧ r.entry.Tells r) ∧
    ∀ t : LayoutStore, t.IsMade → s.document = t.document →
      ∀ key, Option.Rel SlotRecord.Coincides (s.find? key) (t.find? key) := by
  have hkeys := hs.keys_nodup
  refine ⟨LayoutStore.entries_document hkeys, LayoutStore.keys_document_nodup hkeys,
    LayoutStore.find?_document hkeys, fun r hr => ⟨?_, r.entry_tells⟩, fun t ht hsame key => ?_⟩
  · rw [LayoutStore.find?_document hkeys, (LayoutStore.find?_eq_some_iff hkeys).2 ⟨hr, rfl⟩]
    rfl
  · have hfound := LayoutStore.find?_document hkeys key
    rw [hsame, LayoutStore.find?_document ht.keys_nodup] at hfound
    cases hr : s.find? key with
    | none =>
      rw [hr] at hfound
      rw [Option.map_eq_none_iff.1 hfound]
      exact .none
    | some r =>
      rw [hr] at hfound
      obtain ⟨q, hq, hentry⟩ := Option.map_eq_some_iff.1 hfound
      rw [hq]
      exact .some (r.entry_tells.coincides (hentry ▸ q.entry_tells))

/-- A struct that is named and one that is spelled out make the same document, and nothing else of
their records differs. -/
theorem document_lossless_spelling :
    let key : RecordKey := ⟨"Vault", "owner"⟩
    let record (type : Ty) : SlotRecord := ⟨"Vault", ⟨"owner", []⟩, "Owned", ⟨2, 0⟩, 32, type,
      .resolved, none, none⟩
    let store (type : Ty) := LayoutStore.performAll {} [.insert (record type),
      .attachValue key [0x0A, 0xFF] none, .insert { record type with size := 64 }]
    let named := store (.structRef "Owner")
    let spelled := store (.struct "Owner" [("account", .address)])
    (named.IsMade ∧ spelled.IsMade ∧ named.document = spelled.document ∧ named ≠ spelled) ∧
      (named.find? key).isSome ∧
      Option.Rel SlotRecord.Coincides (named.find? key) (spelled.find? key) := by
  intro key record store named spelled
  have hnamed : named.IsMade := ⟨_, rfl⟩
  have hspelled : spelled.IsMade := ⟨_, rfl⟩
  have hsame : named.document = spelled.document := by
    have hpreimage : named.preimage = spelled.preimage := by rfl
    have hcontracts : named.document.contracts = spelled.document.contracts := by rfl
    exact congrArg₂ LayoutDocument.mk
      (congrArg (fun bs => String.ofList (Text.hexDigits (Hash.sha256 bs))) hpreimage) hcontracts
  have hdiffer : named ≠ spelled := fun h => by
    have htypes : named.records.map (·.type) = spelled.records.map (·.type) := by rw [h]
    exact nomatch (List.cons.inj htypes).1
  exact ⟨⟨hnamed, hspelled, hsame, hdiffer⟩, rfl,
    (document_lossless hnamed).2.2.2.2 spelled hspelled hsame key⟩

end StorageAtlas
