import Mathlib.Data.List.Forall2
import StorageAtlas.LayoutDocument

/-!
# What a commitment tells

The bytes under a commitment can be cut back into the entries they were made of: a text stands
behind its length, and slot and offset take a fixed number of bytes, so that no entry begins
another. Two layouts therefore have one preimage only if they list the same entries in the same
order (`LayoutStore.preimage_unambiguous`). The number of records in front, of which only the
low-order bytes are kept, is not needed for that: an entry is never empty.
-/

namespace StorageAtlas

/-! ## Texts behind their length -/

/-- The number of bytes is one that four bytes can hold. -/
def FitsFrame (s : String) : Prop := s.utf8ByteSize < Nat.pow 256 4

instance (s : String) : Decidable (FitsFrame s) := inferInstanceAs (Decidable (_ < _))

/-- **A framed text ends where its length says**, whatever stands behind it. -/
theorem framed_append_inj {a b : String} (ha : FitsFrame a) (hb : FitsFrame b) {xs ys : Bytes} :
    framed a ++ xs = framed b ++ ys ↔ a = b ∧ xs = ys := by
  refine ⟨fun h => ?_, fun ⟨hab, hxy⟩ => by rw [hab, hxy]⟩
  simp only [framed, List.append_assoc, Text.length_utf8] at h
  obtain ⟨hlength, hbytes⟩ := List.append_inj h (by simp)
  have hsize : a.utf8ByteSize = b.utf8ByteSize := (Bytes.littleEndian_inj ha hb).1 hlength
  obtain ⟨htext, hrest⟩ := List.append_inj hbytes (by simpa [Text.length_utf8] using hsize)
  exact ⟨Text.utf8_inj.1 htext, hrest⟩

namespace SlotRecord

/-! ## Entries -/

/-- Two records have one entry in the layout: contract, path, place and type. -/
structure SameEntry (r q : SlotRecord) : Prop where
  contract : r.contract = q.contract
  path : r.path.text = q.path.text
  slot : r.location.slot = q.location.slot
  offset : r.location.offset = q.location.offset
  type : r.type.spelling = q.type.spelling

/-- Each text of the entry has a length that four bytes can hold. -/
structure EntryFits (r : SlotRecord) : Prop where
  contract : FitsFrame r.contract
  path : FitsFrame r.path.text
  type : FitsFrame r.type.spelling

/-- An entry begins with the length of a text. -/
theorem preimage_ne_nil (r : SlotRecord) : r.preimage ≠ [] := by
  intro h
  have hlength := congrArg List.length h
  simp only [preimage, framed, List.length_append, Bytes.length_littleEndian, List.length_nil]
    at hlength
  omega

/-- **An entry ends where its fields end**, whatever stands behind it. -/
theorem preimage_append_inj {r q : SlotRecord} (hr : r.EntryFits) (hq : q.EntryFits)
    {xs ys : Bytes} : r.preimage ++ xs = q.preimage ++ ys ↔ r.SameEntry q ∧ xs = ys := by
  constructor
  · intro h
    simp only [preimage, List.append_assoc] at h
    obtain ⟨hcontract, h⟩ := (framed_append_inj hr.contract hq.contract).1 h
    obtain ⟨hpath, h⟩ := (framed_append_inj hr.path hq.path).1 h
    obtain ⟨hslot, h⟩ := List.append_inj h (by simp)
    obtain ⟨hoffset, h⟩ := List.append_inj h (by simp)
    obtain ⟨htype, hrest⟩ := (framed_append_inj hr.type hq.type).1 h
    have fits (o : UInt8) : o.toNat < Nat.pow 256 4 := Nat.lt_trans o.toNat_lt (by decide)
    exact ⟨⟨hcontract, hpath, Word.toBytes_inj.1 hslot,
      UInt8.toNat_inj.1 ((Bytes.littleEndian_inj (fits _) (fits _)).1 hoffset), htype⟩, hrest⟩
  · rintro ⟨hsame, rfl⟩
    simp only [preimage, hsame.contract, hsame.path, hsame.slot, hsame.offset, hsame.type]

/-- Entries laid one behind the other are read back one by one. -/
theorem flatMap_preimage_inj {rs qs : List SlotRecord} (hr : ∀ r ∈ rs, r.EntryFits)
    (hq : ∀ q ∈ qs, q.EntryFits) :
    rs.flatMap (·.preimage) = qs.flatMap (·.preimage) ↔ List.Forall₂ SameEntry rs qs := by
  induction rs generalizing qs with
  | nil =>
    cases qs with
    | nil => simp
    | cons q qs => simp [q.preimage_ne_nil]
  | cons r rs ih =>
    cases qs with
    | nil => simp [r.preimage_ne_nil]
    | cons q qs =>
      obtain ⟨hr, hrs⟩ := List.forall_mem_cons.1 hr
      obtain ⟨hq, hqs⟩ := List.forall_mem_cons.1 hq
      rw [List.flatMap_cons, List.flatMap_cons, preimage_append_inj hr hq, ih hrs hqs,
        List.forall₂_cons]

/-- The record with another state of reading. -/
def reread (r : SlotRecord) (status : Status) (raw : Option Bytes) (value : Option Value) :
    SlotRecord :=
  { r with status, raw, value }

@[simp] theorem preimage_reread (r : SlotRecord) (status : Status) (raw : Option Bytes)
    (value : Option Value) : (r.reread status raw value).preimage = r.preimage := rfl

end SlotRecord

namespace LayoutStore

/-- Each text that the commitment frames has a length that four bytes can hold. -/
def EntriesFit (s : LayoutStore) : Prop := ∀ r ∈ s.records, r.EntryFits

/-- The store with other states of reading; those of a record may depend on all that it says. -/
def reread (s : LayoutStore) (status : SlotRecord → Status) (raw : SlotRecord → Option Bytes)
    (value : SlotRecord → Option Value) : LayoutStore :=
  ⟨s.records.map fun r => r.reread (status r) (raw r) (value r)⟩

theorem preimage_reread (s : LayoutStore) (status : SlotRecord → Status)
    (raw : SlotRecord → Option Bytes) (value : SlotRecord → Option Value) :
    (s.reread status raw value).preimage = s.preimage := by
  simp only [preimage, size, reread, List.length_map, List.flatMap_map,
    SlotRecord.preimage_reread]

/-- **A commitment is unambiguous**: what it hashes of two layouts is the same exactly if they
have equally many records and, one by one, the same contract, path, slot, offset and type. States
of reading, bytes and values never enter into it. -/
theorem preimage_unambiguous (s t : LayoutStore) (hs : s.EntriesFit) (ht : t.EntriesFit) :
    (s.preimage = t.preimage ↔ List.Forall₂ SlotRecord.SameEntry s.records t.records) ∧
      ∀ status raw value, (s.reread status raw value).preimage = s.preimage := by
  refine ⟨?_, s.preimage_reread⟩
  rw [← SlotRecord.flatMap_preimage_inj hs ht]
  constructor
  · intro h
    exact List.append_inj_right h (by simp)
  · intro h
    have hlength := (SlotRecord.flatMap_preimage_inj hs ht).1 h |>.length_eq
    simp only [preimage, size, h, hlength]

/-- A layout of one mapping. -/
def single (contract path : String) : LayoutStore :=
  { records := [{ contract, path := ⟨path, []⟩, declaredIn := contract, location := ⟨7, 0⟩,
                  size := 32, type := .mapping (.elementary .address) (.elementary .bool) }] }

/-- Two layouts whose texts run into the same characters are told apart by the lengths. -/
theorem preimage_unambiguous_adjoining :
    (single "Vault" "owners").EntriesFit ∧ (single "Vaulto" "wners").EntriesFit ∧
      (single "Vault" "owners").preimage ≠ (single "Vaulto" "wners").preimage ∧
      ((single "Vault" "owners").reread (fun _ => .readFailed "node unavailable")
        (fun _ => some [1]) (fun _ => none)).preimage = (single "Vault" "owners").preimage := by
  have fits : (single "Vault" "owners").EntriesFit :=
    List.forall_mem_singleton.2 ⟨by decide, by decide, by decide⟩
  have fits' : (single "Vaulto" "wners").EntriesFit :=
    List.forall_mem_singleton.2 ⟨by decide, by decide, by decide⟩
  obtain ⟨hiff, hstate⟩ := preimage_unambiguous _ _ fits fits'
  refine ⟨fits, fits', fun h => ?_, hstate _ _ _⟩
  have hsame := (List.forall₂_cons.1 (hiff.1 h)).1
  exact absurd hsame.contract (by decide)

end LayoutStore

end StorageAtlas
