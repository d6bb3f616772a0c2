import StorageAtlas.Proofs.Nesting
import StorageAtlas.Proofs.Writes

/-!
# Where things lie, as long as there are slots

Sizes stop at the largest number of 64 bits, and what is known from them stops there too. Here the
room of a type is counted in full (`Node.room`), and a layout is held against the slots that there
are: one whose variables end before the slot 2 ^ 251 (`Spans`) has them apart from each other
(`Model.placements_spans`), with everything in a variable inside its room (`Below.room_within`).
-/

namespace StorageAtlas

/-! ## Types that take room -/

/-- Arrays in the type are not empty, as far as they are arrays of each other. -/
def Ty.NeverEmpty : Ty → Prop
  | .fixedArray element length => 0 < length.toNat ∧ element.NeverEmpty
  | .userDefined _ _ underlying => underlying.NeverEmpty
  | _ => True

theorem structSlots_pos (fs : List Footprint) : 0 < (structSlots fs).toNat := by
  unfold structSlots
  generalize ((Cursor.mk 0 0).placeAll fs).2.slotsUsed = used
  by_cases h : used = 0
  · simp [h]
  · simp only [h, ↓reduceIte]
    refine Nat.pos_of_ne_zero fun h0 => h ?_
    exact BitVec.eq_of_toNat_eq h0

theorem Footprint.arraySlots_pos {f : Footprint} (hf : f.Fits) (hx : 0 < f.extent) {length : UInt64}
    (h : 0 < length.toNat) : 0 < (f.arraySlots length.toNat).toNat := by
  have hlt := length.toNat_lt
  have hlen : (Word.ofNat length.toNat).toNat = length.toNat := Word.toNat_ofNat_of_lt (by omega)
  have hwhole {g : Footprint} (hg : g.startsNewSlot) (hx : 0 < g.extent) :
      0 < (Word.mulSat (Word.ofNat length.toNat) g.slotCount).toNat := by
    rw [extent_of_startsNewSlot hg] at hx
    have hpos := Nat.mul_pos h (Nat.pos_of_mul_pos_left hx)
    rw [Word.toNat_mulSat, hlen]
    omega
  cases f with
  | packed n =>
    have hper := perSlot_pos hf
    have hpos : 0 < (length.toNat + (packed n).perSlot - 1) / (packed n).perSlot :=
      Nat.div_pos (by omega) hper
    have hle : (packed n).perSlot ≤ slotBytes := Nat.div_le_self _ _
    have hdiv := Nat.div_le_self (length.toNat + (packed n).perSlot - 1) (packed n).perSlot
    simp only [slotBytes] at hle
    rw [arraySlots, Word.toNat_ofNat_of_lt (by omega)]
    exact hpos
  | slots n => exact hwhole (g := slots n) rfl hx
  | dynamic => exact hwhole (g := dynamic) rfl hx

/-- **What is not empty takes room.** -/
theorem Ty.extent_pos : ∀ {t : Ty}, t.NeverEmpty → 0 < t.footprint.extent
  | .elementary e, _ => e.byteWidth_pos
  | .function external, _ => by cases external <;> decide
  | .fixedArray element length, ⟨hlength, helement⟩ => by
    have hslots := Footprint.arraySlots_pos element.footprint_fits (extent_pos helement) hlength
    exact Nat.mul_pos (by decide) hslots
  | .struct _ members, _ => Nat.mul_pos (by decide) (structSlots_pos (footprints members))
  | .userDefined _ _ underlying, h => extent_pos (t := underlying) h
  | .dynamicArray _, _ | .mapping _ _, _ | .bytes, _ | .string, _ | .structRef _, _ =>
    (by decide : 0 < slotBytes)

namespace Footprint

theorem size_le_extent (f : Footprint) : f.size ≤ f.extent := by
  cases f with
  | packed n => exact Nat.le_refl _
  | dynamic => exact Nat.le_refl _
  | slots n =>
    have h32 : (Word.ofNat slotBytes).toNat = 32 := by decide
    simp only [size, extent, Word.clamp64, Word.toNat_mulSat, h32, slotBytes]
    omega

theorem size_pos {f : Footprint} (h : 0 < f.extent) : 0 < f.size := by
  cases f with
  | packed n => exact h
  | dynamic => decide
  | slots n =>
    have h32 : (Word.ofNat slotBytes).toNat = 32 := by decide
    simp only [extent, slotBytes] at h
    simp only [size, Word.clamp64, Word.toNat_mulSat, h32, UInt64.size]
    omega

/-- Elements that do not share slots are as far apart as their slots say. -/
theorem mul_slotCount_le {f : Footprint} {i count : Nat}
    (h : f.elementPosition i ≤ slotBytes * count) : i * f.slotCount.toNat ≤ max i count := by
  have hwhole {g : Footprint} (hg : g.startsNewSlot) (h : i * g.extent ≤ slotBytes * count) :
      i * g.slotCount.toNat ≤ max i count := by
    rw [extent_of_startsNewSlot hg, Nat.mul_left_comm] at h
    exact Nat.le_trans (Nat.le_of_mul_le_mul_left h (by decide)) (Nat.le_max_right _ _)
  cases f with
  | packed n => exact Nat.le_trans (Nat.le_of_eq (Nat.mul_one i)) (Nat.le_max_left _ _)
  | slots n => exact hwhole (g := slots n) rfl h
  | dynamic => exact hwhole (g := dynamic) rfl h

end Footprint

/-! ## Runs -/

/-- **A cursor places one behind the other**, as long as there are slots. -/
theorem Cursor.placeAll_spans {fs : List Footprint} (hfit : ∀ f ∈ fs, f.Fits) : ∀ {c : Cursor},
    c.offset ≤ slotBytes → Footprint.endFrom c.position fs ≤ slotBytes * (2 ^ 256 - 1) →
    ((c.placeAll fs).1.zip fs).Pairwise (fun p q => p.1.position + p.2.extent ≤ q.1.position) ∧
      ∀ p ∈ (c.placeAll fs).1.zip fs, c.position ≤ p.1.position ∧
        p.1.position + p.2.extent ≤ Footprint.endFrom c.position fs ∧
        p.1.offset.toNat + p.2.bytes ≤ slotBytes := by
  induction fs with
  | nil => intro c _ _; exact ⟨.nil, nofun⟩
  | cons f fs ih =>
    intro c hc hend
    obtain ⟨hf, hfs⟩ := List.forall_mem_cons.1 hfit
    have hle := Footprint.le_endFrom fs (f.startFrom c.position + f.extent)
    obtain ⟨hat, hin, hnext, hoff⟩ := place_startFrom hc hf (Nat.le_trans hle hend)
    have hstart := f.le_startFrom c.position
    rw [Footprint.endFrom, ← hnext] at hend
    obtain ⟨hapart, hrest⟩ := ih hfs hoff hend
    have hzip : (c.placeAll (f :: fs)).1.zip (f :: fs) =
        ((c.place f).1, f) :: ((c.place f).2.placeAll fs).1.zip fs := rfl
    rw [hzip]
    refine ⟨List.pairwise_cons.2 ⟨fun q hq => ?_, hapart⟩, List.forall_mem_cons.2 ⟨?_, ?_⟩⟩
    · rw [hat, ← hnext]
      exact (hrest q hq).1
    · refine ⟨hat ▸ hstart, ?_, hin⟩
      rw [hat]
      exact hle
    · intro q hq
      obtain ⟨hfrom, hto, hin⟩ := hrest q hq
      rw [hnext] at hfrom hto
      exact ⟨by omega, hto, hin⟩

/-! ## Nodes -/

def Node.room (n : Node) : ByteRange := .of n.location n.type.footprint.extent

theorem MembersFitStorage.of_mem {ms : List Member} (h : MembersFitStorage ms) {m : Member}
    (hm : m ∈ ms) : m.2.FitsStorage := by
  induction ms with
  | nil => exact absurd hm List.not_mem_nil
  | cons m' ms ih =>
    rcases List.mem_cons.1 hm with rfl | hm
    · exact h.1
    · exact ih h.2 hm

namespace Node

variable {structs : StructTable} {n k m : Node} {d : Declarations} {e : TypeExpr}

/-- Making a spelled-out type ready changes at most what its elements elsewhere are like. -/
theorem Settles.fitsStorage (h : n.Settles structs k) (hsp : n.type.SpelledOut)
    (hfits : n.type.FitsStorage) : k.type.FitsStorage := by
  obtain ⟨t, ht, rfl⟩ := h
  rcases eq_of_materialize hsp ht with rfl | ⟨element, element', -, rfl⟩
  · exact hfits
  · trivial

theorem Settles.room_eq (hs : d.Defines structs) (h : n.Settles structs k)
    (hn : n.type.Reads d e) (hsp : n.type.SpelledOut) : k.room = n.room := by
  rw [room, room, h.location_eq, h.footprint_eq hs hn hsp]

theorem members_room {name : String} {ms : List Member} (htype : n.type = .struct name ms)
    (hslot : n.InSlot) (hfits : n.type.FitsStorage) (hend : n.room.stop < slotBytes * 2 ^ 251)
    (hm : m ∈ n.members ms) :
    m.InSlot ∧ m.type.FitsStorage ∧ m.room.Within n.room := by
  have hstart : n.room.start = slotBytes * n.location.slot.toNat :=
    hslot.bytes_start (by rw [htype]; rfl)
  rw [htype] at hfits
  obtain ⟨hmembers, hcount⟩ := hfits
  obtain ⟨hlast, hoffset⟩ := Cursor.placeAll_endFrom (c := ⟨0, 0⟩)
    (fun _ hf => footprints_fit hf) (Nat.zero_le _) hcount
  have hslots := Cursor.position_le_structSlots hoffset (hlast ▸ hcount)
  obtain ⟨-, hrun⟩ := Cursor.placeAll_spans (c := ⟨0, 0⟩) (fun f hf => footprints_fit hf)
    (Nat.zero_le _) hcount
  have hstop : n.room.stop = n.room.start + slotBytes * (structSlots (footprints ms)).toNat := by
    simp only [room, htype]
    rfl
  obtain ⟨p, hp, rfl⟩ := mem_members.1 hm
  have hroom : (p.location, p.type.footprint) ∈ (memberLocations ms).zip (footprints ms) := by
    rw [← placeMembers_rooms]
    exact List.mem_map_of_mem (f := fun m : PlacedMember => (m.location, m.type.footprint)) hp
  obtain ⟨-, hto, hin⟩ := hrun _ hroom
  have hbelow : n.location.slot.toNat + p.location.slot.toNat < 2 ^ 256 := by
    simp only [Location.position, slotBytes] at *
    omega
  have hat := Location.within_position hbelow
  refine ⟨hin, hmembers.of_mem (mem_of_mem_placeMembers hp), ?_, ?_⟩
  · show n.room.start ≤ (p.location.within n.location.slot).position
    omega
  · show (p.location.within n.location.slot).position + p.type.footprint.extent ≤ n.room.stop
    simp only at hto hat
    omega

theorem elements_room {element : Ty} {length : UInt64} (htype : n.type = .fixedArray element length)
    (hslot : n.InSlot) (hfits : n.type.FitsStorage) (hend : n.room.stop < slotBytes * 2 ^ 251)
    (hm : m ∈ n.elements element length.toNat) :
    m.InSlot ∧ m.type.FitsStorage ∧ m.room.Within n.room := by
  have hstart : n.room.start = slotBytes * n.location.slot.toNat :=
    hslot.bytes_start (by rw [htype]; rfl)
  rw [htype] at hfits
  obtain ⟨helement, hcount⟩ := hfits
  have hstop : n.room.stop =
      n.room.start + slotBytes * (element.footprint.arraySlots length.toNat).toNat := by
    simp only [room, htype]
    rfl
  obtain ⟨i, hi, rfl⟩ := mem_elements.1 hm
  have hlength := length.toNat_lt
  have hlast := Footprint.elementPosition_le_arraySlots_of_lt element.footprint_fits hlength
    hcount hi
  have hbelow : n.location.slot.toNat + i * element.footprint.slotCount.toNat < 2 ^ 256 := by
    have hle := Footprint.mul_slotCount_le (Nat.le_trans (Nat.le_add_right _ _) hlast)
    simp only [slotBytes] at *
    omega
  obtain ⟨hat, hin⟩ := elementLocation_position_of_lt (by omega : i < 2 ^ 256) hbelow
  refine ⟨hin, helement, ?_, ?_⟩
  · show n.room.start ≤ Location.position _
    rw [hat, hstart]
    exact Nat.le_add_right _ _
  · show Location.position _ + element.footprint.extent ≤ n.room.stop
    rw [hat, hstop, hstart]
    omega

/-- The children of a node lie inside it. -/
theorem children_room (hn : n.type.Reads d e) (hslot : n.InSlot) (hfits : n.type.FitsStorage)
    (hend : n.room.stop < slotBytes * 2 ^ 251) (hm : m ∈ n.children) :
    m.InSlot ∧ m.type.FitsStorage ∧ m.room.Within n.room := by
  have hst := stored_of_mem_children hn hm
  rcases mem_children hm with ⟨name, ms, htype, hm⟩ | ⟨element, length, htype, hm⟩
  · exact members_room (hst.symm.trans htype) hslot hfits hend hm
  · exact elements_room (hst.symm.trans htype) hslot hfits hend hm

end Node

/-- **Everything in a variable lies inside its room**, if that ends where there are slots. -/
theorem Below.room_within {d : Declarations} {structs : StructTable} {shown : Node → Prop}
    {root k : Node} {e : TypeExpr} (hs : d.Defines structs) (hr : root.type.Reads d e)
    (hset : root.type.Settled) (hslot : root.InSlot) (hfits : root.type.FitsStorage)
    (hend : root.room.stop < slotBytes * 2 ^ 251) (h : Below structs shown root k) :
    k.InSlot ∧ k.type.FitsStorage ∧ k.room.Within root.room := by
  induction h with
  | root => exact ⟨hslot, hfits, .refl _⟩
  | @child n m k hn hm hk _ ih =>
    obtain ⟨hslot, hfits, hwithin⟩ := ih
    obtain ⟨f, hf, hfs⟩ := hn.reads hs hr hset
    obtain ⟨g, hg, hsp⟩ := Node.children_read hf hfs.spelledOut hm
    obtain ⟨hmslot, hmfits, hmwithin⟩ :=
      Node.children_room hf hslot hfits (Nat.lt_of_le_of_lt hwithin.2 hend) hm
    refine ⟨hk.inSlot hs hg hsp hmslot, hk.fitsStorage hsp hmfits, ?_⟩
    rw [hk.room_eq hs hg hsp]
    exact hmwithin.trans hwithin

/-! ## Variables -/

/-- The variables, counted in full, end within so many slots. -/
structure Spans (ps : List Placement) (slots : Nat) : Prop where
  fits : ∀ p ∈ ps, p.type.FitsStorage
  ends : Footprint.endFrom 0 (ps.map (·.type.footprint)) ≤ slotBytes * slots

/-- **Variables lie apart from each other**, as long as there are slots. -/
theorem Model.placements_spans {m : Model} {contract : String} {ps : List Placement}
    (h : m.placements contract = .ok ps) {slots : Nat} (hslots : slots < 2 ^ 251)
    (hspans : Spans ps slots) :
    ps.Pairwise (fun p q => p.node.room.Apart q.node.room) ∧
      ∀ p ∈ ps, p.node.InSlot ∧ p.node.room.stop ≤ slotBytes * slots := by
  have hends := hspans.ends
  have hzero : (Cursor.mk 0 0).position = 0 := rfl
  have hrooms : ((Cursor.mk 0 0).placeAll (ps.map (·.type.footprint))).1.zip
      (ps.map (·.type.footprint)) = ps.map fun p => (p.location, p.type.footprint) := by
    rw [← Model.placements_locations h, List.zip_map']
  have hfit : ∀ f ∈ ps.map (·.type.footprint), f.Fits :=
    List.forall_mem_map.2 fun p _ => p.type.footprint_fits
  have hcounted : Footprint.endFrom (Cursor.mk 0 0).position (ps.map (·.type.footprint)) ≤
      slotBytes * (2 ^ 256 - 1) := by
    simp only [hzero, slotBytes] at *
    omega
  obtain ⟨hapart, hall⟩ := Cursor.placeAll_spans hfit (Nat.zero_le _) hcounted
  rw [hrooms, List.pairwise_map] at hapart
  rw [hrooms, List.forall_mem_map] at hall
  refine ⟨hapart.imp .inl, fun p hp => ?_⟩
  obtain ⟨-, hto, hin⟩ := hall p hp
  exact ⟨hin, Nat.le_trans hto hends⟩

end StorageAtlas
