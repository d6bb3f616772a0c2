import Mathlib.Algebra.Group.Nat.Defs
import Mathlib.Data.List.Zip
import StorageAtlas.Footprint

/-!
# Declarations lie one behind the other

Places are compared as byte positions in the natural numbers, where nothing wraps around
(`Location.position`). Words and record sizes do wrap or stop; all statements are therefore made
under a limit that the places, as they were computed, stay below. The limit is never assumed of the
exact sum, so that a layout which wraps around cannot pass for a small one.

* `Cursor.placeAll_run`: what a cursor places begins behind what it placed before.
* `elementLocation_position`: elements of an array follow each other at equal distances, as many to
  a slot as fit.
-/

namespace StorageAtlas

/-- The first byte of a place, counted from slot zero. -/
def Location.position (l : Location) : Nat := slotBytes * l.slot.toNat + l.offset.toNat

/-- The next free byte, counted from slot zero. -/
def Cursor.position (c : Cursor) : Nat := slotBytes * c.slot.toNat + c.offset

namespace Word

/-- Multiplication that stops at the largest word, in the natural numbers. -/
theorem toNat_mulSat (a b : Word) :
    (mulSat a b).toNat = min (a.toNat * b.toNat) (2 ^ 256 - 1) := by
  unfold mulSat BitVec.umulOverflow
  by_cases h : a.toNat * b.toNat ≥ 2 ^ 256
  · rw [if_pos (by simpa using h), BitVec.toNat_allOnes]
    exact (Nat.min_eq_right (Nat.le_trans (Nat.sub_le _ _) h)).symm
  · rw [if_neg (by simpa using h), BitVec.toNat_mul, Nat.mod_eq_of_lt (by omega)]
    exact (Nat.min_eq_left (Nat.le_sub_one_of_lt (Nat.lt_of_not_ge h))).symm

theorem toNat_add_of_lt {a b : Word} (h : a.toNat + b.toNat < 2 ^ 256) :
    (a + b).toNat = a.toNat + b.toNat := by
  rw [BitVec.toNat_add]
  exact Nat.mod_eq_of_lt h

theorem toNat_ofNat_of_lt {n : Nat} (h : n < 2 ^ 256) : (Word.ofNat n).toNat = n := by
  rw [BitVec.toNat_ofNat]
  exact Nat.mod_eq_of_lt h

end Word

namespace Footprint

/-- Values that are packed take at least a byte and at most a slot. -/
def Fits (f : Footprint) : Prop := 0 < f.bytes ∧ f.bytes ≤ slotBytes

/-- The bytes really taken, of which `size` tells as many as 64 bits can. -/
def extent : Footprint → Nat
  | packed n => n
  | slots n => slotBytes * n.toNat
  | dynamic => slotBytes

theorem bytes_of_startsNewSlot {f : Footprint} (h : f.startsNewSlot) : f.bytes = slotBytes := by
  cases f with
  | packed n => exact nomatch h
  | slots n => rfl
  | dynamic => rfl

theorem fits_of_startsNewSlot {f : Footprint} (h : f.startsNewSlot) : f.Fits := by
  have hb := bytes_of_startsNewSlot h
  exact ⟨hb ▸ Nat.succ_pos _, Nat.le_of_eq hb⟩

theorem extent_of_startsNewSlot {f : Footprint} (h : f.startsNewSlot) :
    f.extent = slotBytes * f.slotCount.toNat := by
  cases f with
  | packed n => exact nomatch h
  | slots n => rfl
  | dynamic => rfl

theorem extent_of_not_startsNewSlot {f : Footprint} (h : ¬f.startsNewSlot) :
    f.extent = f.bytes := by
  cases f with
  | packed n => rfl
  | slots n => exact absurd rfl h
  | dynamic => rfl

/-- A size that is told in full is the room that is taken. -/
theorem extent_eq_size {f : Footprint} (h : f.size < UInt64.size - 1) : f.extent = f.size := by
  cases f with
  | packed n => rfl
  | dynamic => rfl
  | slots n =>
    have h32 : (Word.ofNat slotBytes).toNat = 32 := by decide
    simp only [size, Word.clamp64, Word.toNat_mulSat, h32, UInt64.size] at h ⊢
    simp only [extent, slotBytes]
    omega

end Footprint

theorem Elementary.byteWidth_fits (e : Elementary) : (Footprint.packed e.byteWidth).Fits :=
  ⟨e.byteWidth_pos, e.byteWidth_le⟩

theorem Ty.footprint_fits : ∀ t : Ty, t.footprint.Fits
  | .elementary e => e.byteWidth_fits
  | .function external => by cases external <;> exact ⟨by decide, by decide⟩
  | .userDefined _ _ u => footprint_fits u
  | .fixedArray _ _ | .struct _ _ | .dynamicArray _ | .mapping _ _ | .bytes | .string
  | .structRef _ => Footprint.fits_of_startsNewSlot rfl

/-! ## One declaration -/

namespace Cursor

variable {c : Cursor} {f : Footprint}

theorem seek_position (hc : c.offset ≤ slotBytes) (hf : f.Fits)
    (hslot : c.slot.toNat + 1 < 2 ^ 256) :
    c.position ≤ (c.seek f).position ∧ (c.seek f).offset + f.bytes ≤ slotBytes ∧
      (c.seek f).slot.toNat ≤ c.slot.toNat + 1 := by
  have hnext : (c.slot + 1).toNat = c.slot.toNat + 1 := Word.toNat_add_of_lt hslot
  obtain ⟨hpos, hle⟩ := hf
  simp only [seek, freshSlot, slotBytes, position] at *
  split
  · split
    · next h0 => omega
    · simp only [hnext]; omega
  · next h =>
    simp only [not_or, Nat.not_lt] at h
    omega

theorem location_offset (hc : c.offset ≤ slotBytes) : c.location.offset.toNat = c.offset := by
  show (UInt8.ofNat c.offset).toNat = c.offset
  rw [UInt8.toNat_ofNat']
  exact Nat.mod_eq_of_lt (Nat.lt_of_le_of_lt hc (by decide))

/-- **A declaration begins behind the cursor**, in a slot that holds all of it or from the start of
a slot on. -/
theorem place_position (hc : c.offset ≤ slotBytes) (hf : f.Fits)
    (hslot : c.slot.toNat + 1 < 2 ^ 256) :
    c.position ≤ (c.place f).1.position ∧
      (c.place f).1.offset.toNat + f.bytes ≤ slotBytes ∧
      (c.place f).1.slot.toNat ≤ c.slot.toNat + 1 := by
  obtain ⟨hpos, hoff, hs⟩ := seek_position hc hf hslot
  have hbyte := location_offset (Nat.le_trans (Nat.le_add_right _ _) hoff)
  simp only [place, Location.position, hbyte]
  exact ⟨hpos, hoff, hs⟩

/-- The cursor ends up behind the declaration. -/
theorem place_next (hc : c.offset ≤ slotBytes) (hf : f.Fits)
    (hslot : c.slot.toNat + 1 < 2 ^ 256)
    (hend : (c.place f).1.position + f.extent < slotBytes * 2 ^ 256) :
    (c.place f).2.position = (c.place f).1.position + f.extent ∧
      (c.place f).2.offset ≤ slotBytes := by
  obtain ⟨-, hoff, -⟩ := seek_position hc hf hslot
  have hbyte := location_offset (Nat.le_trans (Nat.le_add_right _ _) hoff)
  have hslot' : (c.seek f).location.slot = (c.seek f).slot := rfl
  simp only [place, Location.position, hbyte, hslot'] at hend ⊢
  by_cases hn : f.startsNewSlot
  · have hx := f.extent_of_startsNewSlot hn
    have hb := f.bytes_of_startsNewSlot hn
    simp only [slotBytes] at *
    have h0 : (c.seek f).offset = 0 := by omega
    have hadd : ((c.seek f).slot + f.slotCount).toNat = (c.seek f).slot.toNat + f.slotCount.toNat :=
      Word.toNat_add_of_lt (by omega)
    simp only [advance, hn, ↓reduceIte, position, hadd, h0, hx, slotBytes]
    omega
  · have hx := f.extent_of_not_startsNewSlot hn
    simp only [advance, hn, Bool.false_eq_true, ↓reduceIte, position, hx, slotBytes] at *
    omega

end Cursor

/-! ## A run of declarations -/

theorem Location.within_position {l : Location} {base : Word}
    (h : base.toNat + l.slot.toNat < 2 ^ 256) :
    (l.within base).position = slotBytes * base.toNat + l.position := by
  simp only [within, position, Word.toNat_add_of_lt h, slotBytes]
  omega

namespace Cursor

@[simp] theorem length_placeAll (c : Cursor) (fs : List Footprint) :
    (c.placeAll fs).1.length = fs.length := by
  induction fs generalizing c with
  | nil => rfl
  | cons f fs ih => simp only [placeAll, List.length_cons, ih]

/-- What was placed from a cursor on, taken from the slot `base`: one behind the other, between the
cursor and where it ends up below `most`, and never across the end of a slot. -/
structure Run (base : Word) (most : Nat) (c : Cursor) (fs : List Footprint) : Prop where
  apart : ((c.placeAll fs).1.zip fs).Pairwise fun p q =>
    (p.1.within base).position + p.2.size ≤ (q.1.within base).position
  behind : ∀ p ∈ (c.placeAll fs).1.zip fs,
    slotBytes * base.toNat + c.position ≤ (p.1.within base).position
  before : ∀ p ∈ (c.placeAll fs).1.zip fs, (p.1.within base).position + p.2.size ≤
    slotBytes * base.toNat + (c.placeAll fs).2.position
  inSlot : ∀ p ∈ (c.placeAll fs).1.zip fs, p.1.offset.toNat + p.2.bytes ≤ slotBytes
  forward : c.position ≤ (c.placeAll fs).2.position
  offset_le : (c.placeAll fs).2.offset ≤ slotBytes
  limit : slotBytes * base.toNat + (c.placeAll fs).2.position ≤ most

/-- **A cursor places one behind the other**, as long as everything it placed ends below a limit
that sizes can tell. -/
theorem placeAll_run {base : Word} {most : Nat} (hmost : most < UInt64.size - 1)
    {fs : List Footprint} (hfit : ∀ f ∈ fs, f.Fits) : ∀ {c : Cursor}, c.offset ≤ slotBytes →
      slotBytes * base.toNat + c.position ≤ most →
      (∀ p ∈ (c.placeAll fs).1.zip fs, (p.1.within base).position + p.2.size ≤ most) →
      Run base most c fs := by
  induction fs with
  | nil =>
    intro c hc hstart _
    exact ⟨.nil, nofun, nofun, nofun, Nat.le_refl _, hc, hstart⟩
  | cons f fs ih =>
    intro c hc hstart hends
    have hends' : ∀ p ∈ ((c.place f).1, f) :: ((c.place f).2.placeAll fs).1.zip fs,
      (p.1.within base).position + p.2.size ≤ most := hends
    obtain ⟨hhere, hrest⟩ := List.forall_mem_cons.1 hends'
    have hf : f.Fits := hfit f List.mem_cons_self
    simp only [position, slotBytes, UInt64.size] at hstart hmost
    have hslot : c.slot.toNat + 1 < 2 ^ 256 := by omega
    obtain ⟨hle, hin, hs⟩ := place_position hc hf hslot
    have hat : ((c.place f).1.within base).position =
        slotBytes * base.toNat + (c.place f).1.position :=
      Location.within_position (by omega)
    simp only [hat, slotBytes] at hhere
    have hsize : f.extent = f.size :=
      Footprint.extent_eq_size (by simp only [UInt64.size]; omega)
    obtain ⟨hnext, hoff⟩ := place_next hc hf hslot (by simp only [hsize, slotBytes]; omega)
    rw [hsize] at hnext
    have hgo : slotBytes * base.toNat + (c.place f).2.position ≤ most := by
      simp only [hnext, slotBytes]
      omega
    have hrun := ih (fun g hg => hfit g (List.mem_cons_of_mem _ hg)) hoff hgo hrest
    have hend : ((c.place f).1.within base).position + f.size =
        slotBytes * base.toNat + (c.place f).2.position := by
      rw [hat, hnext, Nat.add_assoc]
    have hforward : (c.place f).2.position ≤ (c.placeAll (f :: fs)).2.position := hrun.forward
    refine ⟨?_, ?_, ?_, ?_, by omega, hrun.offset_le, hrun.limit⟩
    · refine List.pairwise_cons.2 ⟨fun q hq => ?_, hrun.apart⟩
      exact hend ▸ hrun.behind q hq
    · refine List.forall_mem_cons.2 ⟨hat ▸ Nat.add_le_add_left hle _, fun q hq => ?_⟩
      have := hrun.behind q hq
      omega
    · exact List.forall_mem_cons.2 ⟨hend ▸ Nat.add_le_add_left hforward _, hrun.before⟩
    · exact List.forall_mem_cons.2 ⟨hin, hrun.inSlot⟩

/-- The slots of a struct hold all of its members, if they can be counted. -/
theorem position_le_structSlots {fs : List Footprint}
    (hoff : ((Cursor.mk 0 0).placeAll fs).2.offset ≤ slotBytes)
    (hend : ((Cursor.mk 0 0).placeAll fs).2.position ≤ slotBytes * (2 ^ 256 - 1)) :
    ((Cursor.mk 0 0).placeAll fs).2.position ≤ slotBytes * (structSlots fs).toNat := by
  unfold structSlots
  generalize ((Cursor.mk 0 0).placeAll fs).2 = last at hoff hend
  simp only [position, slotsUsed, slotBytes] at *
  by_cases h0 : last.offset = 0
  · by_cases hz : last.slot = 0
    · simp [h0, hz]
    · simp only [h0, ↓reduceIte, hz]
      omega
  · have hnext : (last.slot + 1).toNat = last.slot.toNat + 1 :=
      Word.toNat_add_of_lt (b := 1) (by rw [show (1 : Word).toNat = 1 from rfl]; omega)
    have hne : last.slot + 1 ≠ 0 := by
      intro hz
      rw [hz] at hnext
      exact absurd hnext.symm (Nat.succ_ne_zero _)
    simp only [h0, ↓reduceIte, hne, hnext]
    omega

theorem Run.le_structSlots {base : Word} {most : Nat} (hmost : most < UInt64.size - 1)
    {fs : List Footprint} (h : Run base most ⟨0, 0⟩ fs) :
    ((Cursor.mk 0 0).placeAll fs).2.position ≤ slotBytes * (structSlots fs).toNat := by
  have hlimit := h.limit
  refine position_le_structSlots h.offset_le ?_
  simp only [slotBytes, UInt64.size] at *
  omega

end Cursor

/-! ## Members of a struct -/

theorem footprints_eq_map (ms : List Member) : footprints ms = ms.map (·.2.footprint) := by
  induction ms with
  | nil => rfl
  | cons m ms ih => simp only [footprints, ih, List.map_cons]

theorem footprints_fit {ms : List Member} {f : Footprint} (hf : f ∈ footprints ms) : f.Fits := by
  rw [footprints_eq_map] at hf
  obtain ⟨m, -, rfl⟩ := List.mem_map.1 hf
  exact m.2.footprint_fits

/-- The places of the members, in order. -/
def memberLocations (ms : List Member) : List Location :=
  ((Cursor.mk 0 0).placeAll (footprints ms)).1

@[simp] theorem length_memberLocations (ms : List Member) :
    (memberLocations ms).length = ms.length := by
  rw [memberLocations, Cursor.length_placeAll, footprints_eq_map, List.length_map]

theorem placeMembers_eq (ms : List Member) :
    placeMembers ms = (ms.zip (memberLocations ms)).map fun p => ⟨p.1.1, p.1.2, p.2⟩ :=
  List.map_uncurry_zip_eq_zipWith.symm

/-- Placing keeps the members and their order. -/
theorem placeMembers_members (ms : List Member) :
    (placeMembers ms).map (fun m => (m.name, m.type)) = ms := by
  rw [placeMembers_eq, List.map_map]
  exact List.map_fst_zip (Nat.le_of_eq (length_memberLocations ms).symm)

theorem placeMembers_names (ms : List Member) :
    (placeMembers ms).map (·.name) = ms.map Prod.fst := by
  have h := congrArg (List.map Prod.fst) (placeMembers_members ms)
  rwa [List.map_map] at h

theorem placeMembers_places (ms : List Member) :
    (placeMembers ms).map (fun m => (m.name, m.location)) =
      (ms.map Prod.fst).zip (memberLocations ms) := by
  rw [placeMembers_eq, List.map_map, List.zip_map_left]
  rfl

theorem placeMembers_rooms (ms : List Member) :
    (placeMembers ms).map (fun m => (m.location, m.type.footprint)) =
      (memberLocations ms).zip (footprints ms) := by
  rw [placeMembers_eq, List.map_map, footprints_eq_map, List.zip_map_right, ← List.zip_swap,
    List.map_map]
  rfl

/-! ## Elements of an array -/

namespace Footprint

/-- The first byte of an element, counted from the first byte of the array. -/
def elementPosition (f : Footprint) (i : Nat) : Nat :=
  match f with
  | packed n => slotBytes * (i / f.perSlot) + i % f.perSlot * n
  | slots _ | dynamic => i * f.extent

theorem perSlot_mul_le {n : Nat} (hn : 0 < n) : (packed n).perSlot * n ≤ slotBytes := by
  simp only [perSlot, Nat.max_eq_left hn]
  exact Nat.div_mul_le_self _ _

theorem perSlot_pos {f : Footprint} (hf : f.Fits) : 0 < f.perSlot := by
  cases f with
  | packed n =>
    have hn : 0 < n := hf.1
    have hle : n ≤ slotBytes := hf.2
    simp only [perSlot, Nat.max_eq_left hn]
    exact Nat.div_pos hle hn
  | slots _ => exact Nat.one_pos
  | dynamic => exact Nat.one_pos

/-- An element in a slot ends within the slot. -/
theorem element_inSlot {n : Nat} (hf : (packed n).Fits) (i : Nat) :
    i % (packed n).perSlot * n + n ≤ slotBytes := by
  have hlt : i % (packed n).perSlot + 1 ≤ (packed n).perSlot := Nat.mod_lt _ (perSlot_pos hf)
  calc i % (packed n).perSlot * n + n
      = (i % (packed n).perSlot + 1) * n := (Nat.succ_mul _ _).symm
    _ ≤ (packed n).perSlot * n := Nat.mul_le_mul_right n hlt
    _ ≤ slotBytes := perSlot_mul_le hf.1

/-- Each element ends before the next ones begin. -/
theorem elementPosition_add_extent_le {f : Footprint} (hf : f.Fits) {i j : Nat} (h : i < j) :
    f.elementPosition i + f.extent ≤ f.elementPosition j := by
  cases f with
  | packed n =>
    simp only [elementPosition, extent]
    have hdiv : i / (packed n).perSlot ≤ j / (packed n).perSlot :=
      Nat.div_le_div_right (Nat.le_of_lt h)
    rcases Nat.lt_or_eq_of_le hdiv with hlt | heq
    · have hin := element_inSlot hf i
      simp only [slotBytes] at *
      omega
    · -- both elements lie in one slot, so they differ in their place within it
      have hi := Nat.div_add_mod i (packed n).perSlot
      have hj := Nat.div_add_mod j (packed n).perSlot
      rw [heq] at hi
      have hmod : i % (packed n).perSlot + 1 ≤ j % (packed n).perSlot := by omega
      have hmul := Nat.mul_le_mul_right n hmod
      rw [Nat.succ_mul] at hmul
      rw [heq]
      omega
  | slots n =>
    simp only [elementPosition]
    rw [← Nat.succ_mul]
    exact Nat.mul_le_mul_right _ h
  | dynamic =>
    simp only [elementPosition]
    rw [← Nat.succ_mul]
    exact Nat.mul_le_mul_right _ h

/-- The slots of an array hold all of its elements, if they can be counted. -/
theorem elementPosition_le_arraySlots_of_lt {f : Footprint} (hf : f.Fits) {i length : Nat}
    (hlength : length < UInt64.size) (hcount : length * f.slotCount.toNat < 2 ^ 256)
    (h : i < length) :
    f.elementPosition i + f.extent ≤ slotBytes * (f.arraySlots length).toNat := by
  simp only [UInt64.size] at hlength
  have hlen : (Word.ofNat length).toNat = length := Word.toNat_ofNat_of_lt (by omega)
  have hwhole {g : Footprint} (hg : g.startsNewSlot) (hc : length * g.slotCount.toNat < 2 ^ 256)
      (hpos : g.elementPosition i = i * g.extent) :
      g.elementPosition i + g.extent ≤
        slotBytes * (Word.mulSat (Word.ofNat length) g.slotCount).toNat := by
    rw [Word.toNat_mulSat, hlen, Nat.min_eq_left (by omega), hpos, ← Nat.succ_mul,
      extent_of_startsNewSlot hg, ← Nat.mul_assoc, Nat.mul_comm _ slotBytes, Nat.mul_assoc]
    exact Nat.mul_le_mul_left _ (Nat.mul_le_mul_right _ h)
  cases f with
  | packed n =>
    have hper := perSlot_pos hf
    have hin := element_inSlot hf i
    have hdiv : i / (packed n).perSlot < (length + (packed n).perSlot - 1) / (packed n).perSlot :=
      calc i / (packed n).perSlot
          < (i + (packed n).perSlot) / (packed n).perSlot := by
            rw [Nat.add_div_right _ hper]
            exact Nat.lt_succ_self _
        _ ≤ (length + (packed n).perSlot - 1) / (packed n).perSlot :=
            Nat.div_le_div_right (by omega)
    have hle : (packed n).perSlot ≤ slotBytes := Nat.div_le_self _ _
    have hslots : ((packed n).arraySlots length).toNat =
        (length + (packed n).perSlot - 1) / (packed n).perSlot := by
      refine Word.toNat_ofNat_of_lt (Nat.lt_of_le_of_lt (Nat.div_le_self _ _) ?_)
      simp only [slotBytes] at hle
      omega
    rw [hslots]
    simp only [elementPosition, extent, slotBytes] at *
    omega
  | slots n => exact hwhole (g := slots n) rfl hcount rfl
  | dynamic => exact hwhole (g := dynamic) rfl hcount rfl

theorem elementPosition_le_arraySlots {f : Footprint} (hf : f.Fits)
    (hcount : f.slotCount.toNat < UInt64.size) {i length : Nat} (hlength : length < UInt64.size)
    (h : i < length) :
    f.elementPosition i + f.extent ≤ slotBytes * (f.arraySlots length).toNat := by
  have hmul : length * f.slotCount.toNat < UInt64.size * UInt64.size :=
    Nat.mul_lt_mul'' hlength hcount
  exact elementPosition_le_arraySlots_of_lt hf hlength (Nat.lt_trans hmul (by decide)) h

end Footprint

/-- **Elements follow each other** from the first byte of the array's data on, as far as their slots
can be counted. -/
theorem elementLocation_position_of_lt {base : Word} {element : Ty} {i : Nat} (hi : i < 2 ^ 256)
    (hcount : base.toNat + i * element.footprint.slotCount.toNat < 2 ^ 256) :
    (elementLocation base element (Word.ofNat i)).position =
      slotBytes * base.toNat + element.footprint.elementPosition i ∧
    (elementLocation base element (Word.ofNat i)).offset.toNat + element.footprint.bytes ≤
      slotBytes := by
  have hfit := element.footprint_fits
  have hidx : (Word.ofNat i).toNat = i := Word.toNat_ofNat_of_lt hi
  have hwhole {f : Footprint} (hf : f.startsNewSlot)
      (hc : base.toNat + i * f.slotCount.toNat < 2 ^ 256) :
      (Location.mk (base + Word.ofNat i * f.slotCount) 0).position =
        slotBytes * base.toNat + i * f.extent := by
    have hprod : (Word.ofNat i * f.slotCount).toNat = i * f.slotCount.toNat := by
      rw [BitVec.toNat_mul, hidx]
      exact Nat.mod_eq_of_lt (Nat.lt_of_le_of_lt (Nat.le_add_left _ _) hc)
    rw [Location.position, Word.toNat_add_of_lt (by rw [hprod]; exact hc), hprod,
      Footprint.extent_of_startsNewSlot hf, Nat.mul_add, Nat.mul_left_comm]
    rfl
  unfold elementLocation
  generalize element.footprint = f at hfit hcount
  cases f with
  | packed n =>
    have hin := Footprint.element_inSlot hfit i
    have hdiv : i / (Footprint.packed n).perSlot ≤ i := Nat.div_le_self _ _
    have hone : (Footprint.packed n).slotCount.toNat = 1 := rfl
    rw [hone, Nat.mul_one] at hcount
    have hslot : (Word.ofNat (i / (Footprint.packed n).perSlot)).toNat =
        i / (Footprint.packed n).perSlot := Word.toNat_ofNat_of_lt (by omega)
    have hbyte : (UInt8.ofNat (i % (Footprint.packed n).perSlot * n)).toNat =
        i % (Footprint.packed n).perSlot * n := by
      rw [UInt8.toNat_ofNat']
      exact Nat.mod_eq_of_lt (by simp only [slotBytes] at hin; omega)
    simp only [hidx, Location.position, hbyte, Footprint.elementPosition, Footprint.bytes]
    rw [Word.toNat_add_of_lt (by rw [hslot]; omega), hslot]
    refine ⟨?_, hin⟩
    rw [Nat.mul_add, Nat.add_assoc]
  | slots n => exact ⟨hwhole (f := .slots n) rfl hcount, Nat.le_refl _⟩
  | dynamic => exact ⟨hwhole (f := .dynamic) rfl hcount, Nat.le_refl _⟩

theorem elementLocation_position {base : Word} {element : Ty} {i : Nat} (hi : i < UInt64.size)
    (hbase : base.toNat < UInt64.size) (hcount : element.footprint.slotCount.toNat < UInt64.size) :
    (elementLocation base element (Word.ofNat i)).position =
      slotBytes * base.toNat + element.footprint.elementPosition i ∧
    (elementLocation base element (Word.ofNat i)).offset.toNat + element.footprint.bytes ≤
      slotBytes := by
  have hmul : i * element.footprint.slotCount.toNat < UInt64.size * UInt64.size :=
    Nat.mul_lt_mul'' hi hcount
  simp only [UInt64.size] at hi hbase hmul
  exact elementLocation_position_of_lt (by omega) (by omega)

end StorageAtlas
