import Mathlib.Data.List.Perm.Basic
import StorageAtlas.Proofs.Nesting

/-!
# Which stores pass the check

The check compares the bytes of variables pair by pair, contract by contract, counting positions
modulo 2 ^ 256. `LayoutStore.validate_exact`: as long as no variable ends behind the last byte that
there is, a store passes exactly if no variable leaves its slot and no two variables of a contract
have a byte in common. Neither the order of the records nor those of parts have a say in that, and
no contract has one in what becomes of another (`validate_eq_ok_iff`).
-/

namespace StorageAtlas

namespace ByteRange

instance : Membership Nat ByteRange := ⟨fun a byte => a.start ≤ byte ∧ byte < a.stop⟩

/-- Ranges lie apart exactly if they have no byte in common, unless one of them is empty. -/
theorem apart_iff {a b : ByteRange} (ha : a.start < a.stop) (hb : b.start < b.stop) :
    a.Apart b ↔ ∀ byte ∈ a, byte ∉ b := by
  constructor
  · rintro (h | h) byte ⟨hfrom, hto⟩ ⟨hfrom', hto'⟩
    · exact absurd (Nat.lt_of_lt_of_le hto h) (Nat.not_lt.2 hfrom')
    · exact absurd (Nat.lt_of_lt_of_le hto' h) (Nat.not_lt.2 hfrom)
  · intro h
    by_contra hoverlap
    obtain ⟨hab, hba⟩ := not_or.1 hoverlap
    -- the later of the two beginnings lies in both
    refine h (max a.start b.start) ⟨Nat.le_max_left _ _, ?_⟩ ⟨Nat.le_max_right _ _, ?_⟩
    · exact Nat.max_lt.2 ⟨ha, Nat.lt_of_not_le hab⟩
    · exact Nat.max_lt.2 ⟨Nat.lt_of_not_le hba, hb⟩

end ByteRange

/-! ## Two records -/

namespace SlotRecord

variable {r q : SlotRecord}

/-- The bytes that the check takes a record to have: at least one. -/
def checkedBytes (r : SlotRecord) : ByteRange := .of r.location (max 1 r.size)

theorem checkedBytes_nonempty (r : SlotRecord) : r.checkedBytes.start < r.checkedBytes.stop :=
  Nat.lt_add_of_pos_right (Nat.lt_of_lt_of_le Nat.zero_lt_one (Nat.le_max_left _ _))

theorem toNat_firstByte (h : r.location.position < 2 ^ 256) :
    r.firstByte.toNat = r.location.position := by
  have hbyte := r.location.offset.toNat_lt
  have h32 : (Word.ofNat slotBytes).toNat = 32 := by decide
  have hoff : (Word.ofNat r.location.offset.toNat).toNat = r.location.offset.toNat :=
    Word.toNat_ofNat_of_lt (by omega)
  simp only [Location.position, slotBytes] at h ⊢
  have hslot : (r.location.slot * Word.ofNat slotBytes).toNat = r.location.slot.toNat * 32 := by
    rw [BitVec.toNat_mul, h32]
    exact Nat.mod_eq_of_lt (by omega)
  rw [firstByte, Word.toNat_add_of_lt (by rw [hslot, hoff]; omega), hslot, hoff, Nat.mul_comm]

theorem toNat_endByte (h : r.checkedBytes.stop < 2 ^ 256) :
    r.endByte.toNat = r.checkedBytes.stop := by
  have h : r.location.position + max 1 r.size < 2 ^ 256 := h
  have hfirst := toNat_firstByte (Nat.lt_of_le_of_lt (Nat.le_add_right _ _) h)
  have hsize : (Word.ofNat (max 1 r.size)).toNat = max 1 r.size :=
    Word.toNat_ofNat_of_lt (Nat.lt_of_le_of_lt (Nat.le_add_left _ _) h)
  rw [endByte, Word.toNat_add_of_lt (by rw [hfirst, hsize]; exact h), hfirst, hsize]
  rfl

theorem overlaps_comm (r q : SlotRecord) : r.overlaps q = q.overlaps r := Bool.and_comm _ _

/-- **Below the last byte, records overlap exactly if they do not lie apart.** -/
theorem overlaps_eq_false_iff (hr : r.checkedBytes.stop < 2 ^ 256)
    (hq : q.checkedBytes.stop < 2 ^ 256) :
    r.overlaps q = false ↔ r.checkedBytes.Apart q.checkedBytes := by
  have hrfirst := toNat_firstByte (Nat.lt_of_le_of_lt (Nat.le_add_right _ _) hr)
  have hqfirst := toNat_firstByte (Nat.lt_of_le_of_lt (Nat.le_add_right _ _) hq)
  simp only [overlaps, BitVec.lt_def, hrfirst, hqfirst, toNat_endByte hr, toNat_endByte hq,
    Bool.and_eq_false_iff, decide_eq_false_iff_not, Nat.not_lt]
  exact or_comm

theorem fitsSlot_iff : r.fitsSlot ↔ r.location.offset.toNat < slotBytes ∧
    (r.size < slotBytes → r.location.offset.toNat + r.size ≤ slotBytes) := by
  simp only [fitsSlot, Bool.and_eq_true, Bool.or_eq_true, decide_eq_true_eq, ← Nat.not_lt,
    or_iff_not_imp_left, not_not]

end SlotRecord

/-- A value that lies in its slot leaves no slot. -/
theorem Node.InSlot.fitsSlot {n : Node} (h : n.InSlot) (contract declaredIn : String)
    (status : Status) : (n.record contract declaredIn status).fitsSlot := by
  refine SlotRecord.fitsSlot_iff.2 ⟨?_, h.offset_add_size⟩
  have hpos := n.type.footprint_fits.1
  have hoff : n.location.offset.toNat < slotBytes := by
    unfold InSlot at h
    omega
  exact hoff

/-! ## The check -/

/-- A map made of entries has their keys. -/
theorem SortedMap.mem_keys_ofEntries {α : Type} {key : String} {entries : List (String × α)} :
    key ∈ (ofEntries entries).map (·.1) ↔ key ∈ entries.map (·.1) := by
  have hinsert {k : String} {value : α} {map : SortedMap α} :
      key ∈ (insert k value map).map (·.1) ↔ key = k ∨ key ∈ map.map (·.1) := by
    rw [← isSome_lookup_iff_keys, ← isSome_lookup_iff_keys]
    by_cases hkey : key = k
    · simp [hkey, lookup_insert_self]
    · simp [hkey, lookup_insert_of_ne hkey]
  have hfold {map : SortedMap α} : key ∈ (entries.foldl (fun map e => insert e.1 e.2 map) map).map
      (·.1) ↔ key ∈ entries.map (·.1) ∨ key ∈ map.map (·.1) := by
    induction entries generalizing map with
    | nil => simp
    | cons e entries ih =>
      rw [List.foldl_cons, ih, hinsert, List.map_cons, List.mem_cons, or_left_comm, or_assoc]
  rw [ofEntries, hfold]
  exact or_iff_left List.not_mem_nil

namespace LayoutStore

theorem firstOverlap?_eq_none_iff {rs : List SlotRecord} :
    firstOverlap? rs = none ↔ rs.Pairwise fun r q => r.overlaps q = false := by
  induction rs with
  | nil => exact iff_of_true rfl .nil
  | cons r rs ih =>
    rw [firstOverlap?, List.pairwise_cons, ← ih]
    cases hfind : rs.find? (r.overlaps ·) with
    | none =>
      refine ⟨fun hrest => ⟨fun q hq => ?_, hrest⟩, And.right⟩
      exact Bool.eq_false_iff.2 (List.find?_eq_none.1 hfind q hq)
    | some q =>
      refine iff_of_false nofun fun ⟨hnone, _⟩ => ?_
      have hfalse := hnone q (List.mem_of_find?_eq_some hfind)
      exact nomatch hfalse.symm.trans (List.find?_some hfind)

theorem overlapAmong?_eq_none_iff {top : List SlotRecord} {contracts : List String} :
    overlapAmong? top contracts = none ↔ ∀ contract ∈ contracts,
      (top.filter (·.contract == contract)).Pairwise fun r q => r.overlaps q = false := by
  induction contracts with
  | nil => exact iff_of_true rfl nofun
  | cons contract contracts ih =>
    rw [overlapAmong?, List.forall_mem_cons, ← firstOverlap?_eq_none_iff, ← ih]
    cases firstOverlap? (top.filter (·.contract == contract)) with
    | none => exact ⟨fun hrest => ⟨rfl, hrest⟩, And.right⟩
    | some _ => exact iff_of_false nofun nofun

/-- The check fails for a contradiction, and for nothing else. -/
theorem validate_conflict {s : LayoutStore} {e : Error} (h : s.validate = .error e) :
    ∃ fault, e = .conflict fault := by
  have hamong {top : List SlotRecord} {e : Error} : ∀ {contracts : List String},
      overlapAmong? top contracts = some e → ∃ fault, e = .conflict fault := by
    intro contracts
    induction contracts with
    | nil => exact nofun
    | cons contract contracts ih =>
      intro h
      unfold overlapAmong? at h
      split at h
      · exact ⟨_, (Option.some.inj h).symm⟩
      · exact ih h
  unfold validate at h
  simp only at h
  split at h
  · exact ⟨_, (Except.error.inj h).symm⟩
  · split at h
    · next hsome =>
      obtain rfl := Except.error.inj h
      exact hamong hsome
    · exact nomatch h

variable {s t : LayoutStore}

/-- A relation between the records of each contract is one between records of equal contracts. -/
theorem pairwise_ofContract {top : List SlotRecord} {R : SlotRecord → SlotRecord → Prop} :
    (∀ contract, (top.filter (·.contract == contract)).Pairwise R) ↔
      top.Pairwise fun r q => r.contract = q.contract → R r q := by
  simp only [List.pairwise_filter, beq_iff_eq]
  refine ⟨fun h => ?_, fun h contract => ?_⟩
  · refine List.pairwise_iff_forall_sublist.2 fun {r q} hsub hsame => ?_
    exact List.pairwise_iff_forall_sublist.1 (h r.contract) hsub rfl hsame.symm
  · exact h.imp fun hpair hr hq => hpair (hr.trans hq.symm)

/-- **What the check looks for**: variables outside of a slot, two of a contract that overlap. -/
theorem validate_eq_ok_iff : s.validate = .ok () ↔ (∀ r ∈ s.topLevel, r.fitsSlot) ∧
    s.topLevel.Pairwise fun r q => r.contract = q.contract → r.overlaps q = false := by
  have hamong : overlapAmong? s.topLevel
      ((SortedMap.ofEntries (s.topLevel.map fun r => (r.contract, ()))).map (·.1)) = none ↔
      s.topLevel.Pairwise fun r q => r.contract = q.contract → r.overlaps q = false := by
    rw [overlapAmong?_eq_none_iff, ← pairwise_ofContract]
    refine ⟨fun h contract => ?_, fun h contract _ => h contract⟩
    by_cases hname : ∃ r ∈ s.topLevel, r.contract = contract
    · obtain ⟨r, hr, rfl⟩ := hname
      refine h r.contract (SortedMap.mem_keys_ofEntries.2 ?_)
      rw [List.map_map]
      exact List.mem_map_of_mem hr
    · have hnone : s.topLevel.filter (·.contract == contract) = [] := by simpa using hname
      rw [hnone]
      exact .nil
  rw [← hamong, validate]
  cases hfind : s.topLevel.find? (!·.fitsSlot) with
  | none =>
    have hfits : ∀ r ∈ s.topLevel, r.fitsSlot := by simpa using hfind
    dsimp only
    split
    · next hsome => exact iff_of_false nofun fun ⟨_, hnone⟩ => nomatch hsome.symm.trans hnone
    · next hnone => exact iff_of_true rfl ⟨hfits, hnone⟩
  | some r =>
    refine iff_of_false nofun fun ⟨hfits, _⟩ => ?_
    have hr := List.find?_some hfind
    rw [hfits r (List.mem_of_find?_eq_some hfind)] at hr
    exact nomatch hr

/-- The order of the variables is without meaning. -/
theorem validate_perm (h : t.topLevel.Perm s.topLevel) :
    t.validate = .ok () ↔ s.validate = .ok () := by
  have hsymm {r q : SlotRecord} (h : r.contract = q.contract → r.overlaps q = false)
      (hsame : q.contract = r.contract) : q.overlaps r = false :=
    (q.overlaps_comm r).trans (h hsame.symm)
  rw [validate_eq_ok_iff, validate_eq_ok_iff, h.pairwise_iff hsymm]
  simp only [h.mem_iff]

/-- The store of the records of one contract. -/
def ofContract (s : LayoutStore) (contract : String) : LayoutStore := ⟨s.forContract contract⟩

theorem topLevel_ofContract (s : LayoutStore) (contract : String) :
    (s.ofContract contract).topLevel = s.topLevel.filter (·.contract == contract) :=
  List.filter_comm _ _ _

/-- **Every contract is checked for itself.** -/
theorem validate_iff_ofContract :
    s.validate = .ok () ↔ ∀ contract, (s.ofContract contract).validate = .ok () := by
  have hfits : (∀ contract, ∀ r ∈ s.topLevel.filter (·.contract == contract), r.fitsSlot) ↔
      ∀ r ∈ s.topLevel, r.fitsSlot := by
    refine ⟨fun h r hr => ?_, fun h contract r hr => h r (List.mem_of_mem_filter hr)⟩
    exact h r.contract r (List.mem_filter.2 ⟨hr, beq_self_eq_true _⟩)
  -- within the records of one contract all contracts are equal
  have hpairs : ∀ contract, ((s.topLevel.filter (·.contract == contract)).Pairwise
      fun r q => r.contract = q.contract → r.overlaps q = false) ↔
      (s.topLevel.filter (·.contract == contract)).Pairwise fun r q => r.overlaps q = false := by
    refine fun contract => List.Pairwise.iff_of_mem fun {r q} hr hq => ?_
    have hr : r.contract = contract := eq_of_beq (List.mem_filter.1 hr).2
    have hq : q.contract = contract := eq_of_beq (List.mem_filter.1 hq).2
    exact imp_iff_right (hr.trans hq.symm)
  simp only [validate_eq_ok_iff, topLevel_ofContract, forall_and, hfits, hpairs,
    pairwise_ofContract]

/-- **The check is exact** for variables that end before the last byte that there is: it passes if
none leaves its slot and no two of a contract have a byte in common, and only then. It passes
whatever the order is in which the records were added, does not look at records of parts, and looks
at each contract for itself. -/
theorem validate_exact {s : LayoutStore}
    (hend : ∀ r ∈ s.topLevel, r.checkedBytes.stop < 2 ^ 256) :
    (s.validate = .ok () ↔
      (∀ r ∈ s.topLevel, r.location.offset.toNat < slotBytes ∧
        (r.size < slotBytes → r.location.offset.toNat + r.size ≤ slotBytes)) ∧
      s.topLevel.Pairwise fun r q =>
        r.contract = q.contract → ∀ byte ∈ r.checkedBytes, byte ∉ q.checkedBytes) ∧
    ((s.records.map (·.key)).Nodup → ∀ rs, rs.Perm s.records →
      ∃ t, insertAll {} rs = (t, none) ∧ (t.validate = .ok () ↔ s.validate = .ok ())) ∧
    (∀ t : LayoutStore, t.topLevel = s.topLevel → t.validate = s.validate) ∧
    (s.validate = .ok () ↔ ∀ contract, (s.ofContract contract).validate = .ok ()) := by
  refine ⟨?_, fun hkeys rs hperm => ?_, fun t htop => ?_, validate_iff_ofContract⟩
  · rw [validate_eq_ok_iff]
    refine and_congr (forall₂_congr fun r _ => SlotRecord.fitsSlot_iff) ?_
    refine List.Pairwise.iff_of_mem fun {r q} hr hq => imp_congr_right fun _ => ?_
    rw [SlotRecord.overlaps_eq_false_iff (hend r hr) (hend q hq),
      ByteRange.apart_iff r.checkedBytes_nonempty q.checkedBytes_nonempty]
  · have hnodup : ((({} : LayoutStore).records ++ rs).map (·.key)).Nodup :=
      (hperm.map _).nodup_iff.2 hkeys
    exact ⟨⟨rs⟩, insertAll_of_nodup hnodup, validate_perm (hperm.filter _)⟩
  · rw [validate, validate, htop]

end LayoutStore

namespace Sample

def half (contract name : String) (offset : UInt8) : SlotRecord :=
  { contract, path := ⟨name, []⟩, declaredIn := contract, location := ⟨0, offset⟩, size := 16,
    type := .uint 128 }

/-- Two variables of one contract, and one of another contract under the first of them. -/
def halves (offset : UInt8) : LayoutStore := ⟨[half "A" "x" 0, half "A" "y" offset, half "B" "x" 0]⟩

theorem halves_pairwise {offset : UInt8} {R : SlotRecord → SlotRecord → Prop} :
    ((halves offset).topLevel.Pairwise fun r q => r.contract = q.contract → R r q) ↔
      R (half "A" "x" 0) (half "A" "y" offset) := by
  have htop : (halves offset).topLevel = (halves offset).records := rfl
  rw [htop]
  simp [halves, half]

end Sample

/-- Variables may touch, but the last byte of one may not be the first of another. -/
theorem LayoutStore.validate_exact_halves :
    (∀ r ∈ (Sample.halves 16).topLevel, r.checkedBytes.stop < 2 ^ 256) ∧
    (∀ r ∈ (Sample.halves 15).topLevel, r.checkedBytes.stop < 2 ^ 256) ∧
    ((Sample.halves 16).records.map (·.key)).Nodup ∧
    (∃ t, insertAll {} (Sample.halves 16).records.reverse = (t, none) ∧ t.validate = .ok ()) ∧
    (Sample.halves 15).validate ≠ .ok () := by
  have hend : ∀ r ∈ (Sample.halves 16).topLevel, r.checkedBytes.stop < 2 ^ 256 := by decide
  have hend' : ∀ r ∈ (Sample.halves 15).topLevel, r.checkedBytes.stop < 2 ^ 256 := by decide
  have hkeys : ((Sample.halves 16).records.map (·.key)).Nodup := by decide
  refine ⟨hend, hend', hkeys, ?_, fun hok => ?_⟩
  · obtain ⟨hiff, horder, -, -⟩ := validate_exact hend
    obtain ⟨t, ht, hvalid⟩ := horder hkeys _ (List.reverse_perm _)
    refine ⟨t, ht, hvalid.2 (hiff.2 ⟨by decide, Sample.halves_pairwise.2 ?_⟩)⟩
    exact (ByteRange.apart_iff (by decide) (by decide)).1 (.inl (by decide))
  · have hapart := Sample.halves_pairwise.1 ((validate_exact hend').1.1 hok).2
    exact hapart 15 ⟨by decide, by decide⟩ ⟨by decide, by decide⟩

end StorageAtlas
