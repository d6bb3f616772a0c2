import StorageAtlas.Proofs.Packing
import StorageAtlas.Proofs.Windows

/-!
# Where the leaves of a value are written

A value that lies in place is written leaf by leaf, each into the window that the layouts of the
structs and arrays around it give (`Ty.writes`). The windows of one value keep to the room of its
type, and no two of them meet (`Ty.writes_occupy`).

Slots are counted modulo 2 ^ 256, and a product of slots stops at the largest word. A type for which
either happens has no layout to speak of, as there are not that many slots; `Ty.FitsStorage` says
that the slots of a type, counted in the natural numbers, are fewer.
-/

namespace StorageAtlas

/-! ## Types and their values -/

namespace Footprint

/-- Where a declaration begins that comes behind others. -/
def startFrom (f : Footprint) (position : Nat) : Nat :=
  if f.startsNewSlot ∨ slotBytes < position % slotBytes + f.bytes then
    slotBytes * ((position + (slotBytes - 1)) / slotBytes)
  else position

/-- Where declarations end that come behind others. -/
def endFrom (position : Nat) : List Footprint → Nat
  | [] => position
  | f :: fs => endFrom (f.startFrom position + f.extent) fs

theorem le_startFrom (f : Footprint) (position : Nat) : position ≤ f.startFrom position := by
  unfold startFrom
  split
  · simp only [slotBytes]
    omega
  · exact Nat.le_refl _

theorem le_endFrom (fs : List Footprint) : ∀ position, position ≤ endFrom position fs := by
  induction fs with
  | nil => exact Nat.le_refl
  | cons f fs ih =>
    intro position
    have hstart := f.le_startFrom position
    have hrest := ih (f.startFrom position + f.extent)
    simp only [endFrom]
    omega

end Footprint

mutual
/-- All slots of the type can be counted in a word. -/
def Ty.FitsStorage : Ty → Prop
  | .fixedArray element length =>
    element.FitsStorage ∧ length.toNat * element.footprint.slotCount.toNat < 2 ^ 256
  | .struct _ members =>
    MembersFitStorage members ∧
      Footprint.endFrom 0 (footprints members) ≤ slotBytes * (2 ^ 256 - 1)
  | .userDefined _ _ underlying => underlying.FitsStorage
  | _ => True

def MembersFitStorage : List Member → Prop
  | [] => True
  | (_, t) :: rest => t.FitsStorage ∧ MembersFitStorage rest
end

mutual
/-- Types whose values lie in place: value types, structs of them, and static arrays that are not
empty. -/
def Ty.InPlace : Ty → Prop
  | .elementary e => e.Legal
  | .userDefined _ _ underlying => underlying.InPlace
  | .fixedArray element length => element.InPlace ∧ 0 < length.toNat
  | .struct _ members => MembersInPlace members
  | _ => False

def MembersInPlace : List Member → Prop
  | [] => True
  | (_, t) :: rest => t.InPlace ∧ MembersInPlace rest
end

mutual
/-- The values of a type, each part under its name and in its place. -/
def Ty.Holds : Ty → Value → Prop
  | .elementary e, v => e.Holds v
  | .userDefined _ _ underlying, v => underlying.Holds v
  | .fixedArray element length, .composite vs => vs.length = length.toNat ∧
    ∀ m ∈ vs.zipIdx, m.1.1 = "[" ++ Text.decimal m.2 ++ "]" ∧
      ∃ v, m.1.2 = some v ∧ element.Holds v
  | .struct _ members, .composite vs => MembersHold members vs
  | _, _ => False

def MembersHold : List Member → List (String × Option Value) → Prop
  | [], [] => True
  | (name, t) :: ms, (name', some v) :: vs => name' = name ∧ t.Holds v ∧ MembersHold ms vs
  | _, _ => False
end

/-! ## Writes -/

/-- Bytes for a window of a word among several. -/
structure Write where
  slot : Nat
  offset : Nat
  bytes : Bytes

namespace Write

/-- The first byte, counted from the first word on. -/
def start (w : Write) : Nat := slotBytes * w.slot + w.offset

def stop (w : Write) : Nat := w.start + w.bytes.length

/-- The window lies within its word, and is not empty. -/
def InSlot (w : Write) : Prop := 0 < w.bytes.length ∧ w.offset + w.bytes.length ≤ slotBytes

def Apart (v w : Write) : Prop := v.stop ≤ w.start ∨ w.stop ≤ v.start

def apply (words : List Word) (w : Write) : List Word :=
  words.modify w.slot fun word => word.overwrite w.offset w.bytes

end Write

mutual
/-- The leaves of a value that begins at a slot and an offset. -/
def Ty.writes : Ty → Value → Nat → Nat → List Write
  | .elementary e, v, slot, offset => [⟨slot, offset, e.encode v⟩]
  | .userDefined _ _ underlying, v, slot, offset => underlying.writes v slot offset
  | .fixedArray element _, .composite vs, slot, _ =>
    vs.zipIdx.flatMap fun m =>
      let l := elementLocation 0 element (Word.ofNat m.2)
      match m.1.2 with
      | some v => element.writes v (slot + l.slot.toNat) l.offset.toNat
      | none => []
  | .struct _ members, .composite vs, slot, _ =>
    memberWrites slot members (memberLocations members) vs
  | _, _, _, _ => []

def memberWrites (slot : Nat) :
    List Member → List Location → List (String × Option Value) → List Write
  | (_, t) :: ms, l :: ls, (_, some v) :: vs =>
    t.writes v (slot + l.slot.toNat) l.offset.toNat ++ memberWrites slot ms ls vs
  | _, _, _ => []
end

/-! ## Room -/

/-- The writes keep to the bytes from `start` to `stop`, and to themselves. -/
structure Occupies (ws : List Write) (start stop : Nat) : Prop where
  within : ∀ w ∈ ws, start ≤ w.start ∧ w.stop ≤ stop
  inSlot : ∀ w ∈ ws, w.InSlot
  apart : ws.Pairwise Write.Apart

namespace Occupies

variable {ws ws' : List Write} {a b c d : Nat}

theorem nil : Occupies [] a b := ⟨nofun, nofun, .nil⟩

theorem singleton {w : Write} (h : w.InSlot) : Occupies [w] w.start w.stop :=
  ⟨List.forall_mem_singleton.2 ⟨Nat.le_refl _, Nat.le_refl _⟩, List.forall_mem_singleton.2 h,
    List.pairwise_singleton _ _⟩

theorem mono (h : Occupies ws b c) (hab : a ≤ b) (hcd : c ≤ d) : Occupies ws a d :=
  ⟨fun w hw => ⟨Nat.le_trans hab (h.within w hw).1, Nat.le_trans (h.within w hw).2 hcd⟩,
    h.inSlot, h.apart⟩

/-- One behind the other. -/
theorem append (h : Occupies ws a b) (h' : Occupies ws' c d) (hab : a ≤ b) (hbc : b ≤ c)
    (hcd : c ≤ d) : Occupies (ws ++ ws') a d where
  within := by
    have hleft := h.mono (Nat.le_refl a) (Nat.le_trans hbc hcd)
    have hright := h'.mono (Nat.le_trans hab hbc) (Nat.le_refl d)
    exact List.forall_mem_append.2 ⟨hleft.within, hright.within⟩
  inSlot := List.forall_mem_append.2 ⟨h.inSlot, h'.inSlot⟩
  apart := by
    refine List.pairwise_append.2 ⟨h.apart, h'.apart, fun w hw w' hw' => .inl ?_⟩
    exact Nat.le_trans (h.within w hw).2 (Nat.le_trans hbc (h'.within w' hw').1)

/-- Many of them at growing places. -/
theorem flatMap {α : Type} {f : α × Nat → List Write} {place : Nat → Nat} {extent top : Nat}
    (hnext : ∀ i, place i + extent ≤ place (i + 1)) {l : List α} : ∀ {k : Nat},
      (∀ m ∈ l.zipIdx k, Occupies (f m) (place m.2) (place m.2 + extent)) →
      (∀ i < k + l.length, place i + extent ≤ top) →
      Occupies ((l.zipIdx k).flatMap f) (place k) top := by
  induction l with
  | nil => intro k _ _; exact nil
  | cons x l ih =>
    intro k hf htop
    rw [List.zipIdx_cons, List.flatMap_cons]
    have hhead := hf (x, k) (by rw [List.zipIdx_cons]; exact List.mem_cons_self)
    have htail := ih (k := k + 1)
      (fun m hm => hf m (by rw [List.zipIdx_cons]; exact List.mem_cons_of_mem _ hm))
      (fun i hi => htop i (by rw [List.length_cons]; omega))
    cases l with
    | nil =>
      rw [List.zipIdx_nil, List.flatMap_nil, List.append_nil]
      exact hhead.mono (Nat.le_refl _) (htop k (by simp))
    | cons y l =>
      refine hhead.append htail (Nat.le_add_right _ _) (hnext k) ?_
      exact Nat.le_trans (Nat.le_add_right _ _) (htop (k + 1) (by simp))

end Occupies

/-! ## Cursors without end -/

namespace Cursor

variable {c : Cursor} {f : Footprint}

/-- A fresh slot begins at the next multiple of its size. -/
theorem freshSlot_position (hc : c.offset ≤ slotBytes)
    (hend : slotBytes * ((c.position + (slotBytes - 1)) / slotBytes) ≤ slotBytes * (2 ^ 256 - 1)) :
    c.freshSlot.position = slotBytes * ((c.position + (slotBytes - 1)) / slotBytes) ∧
      c.freshSlot.offset = 0 := by
  simp only [position, slotBytes] at *
  by_cases h0 : c.offset = 0
  · rw [freshSlot, if_pos h0]
    omega
  · have hnext : (c.slot + 1).toNat = c.slot.toNat + 1 :=
      Word.toNat_add_of_lt (b := 1) (by rw [show (1 : Word).toNat = 1 from rfl]; omega)
    simp only [freshSlot, if_neg h0, hnext, and_true]
    omega

theorem seek_startFrom (hc : c.offset ≤ slotBytes) (hf : f.Fits)
    (hend : f.startFrom c.position ≤ slotBytes * (2 ^ 256 - 1)) :
    (c.seek f).position = f.startFrom c.position ∧ (c.seek f).offset + f.bytes ≤ slotBytes := by
  obtain ⟨hpos, hle⟩ := hf
  by_cases hn : f.startsNewSlot
  · have hstart : f.startFrom c.position =
        slotBytes * ((c.position + (slotBytes - 1)) / slotBytes) := if_pos (.inl hn)
    rw [hstart] at hend ⊢
    obtain ⟨hfresh, h0⟩ := freshSlot_position hc hend
    rw [seek, if_pos (.inl hn), h0]
    exact ⟨hfresh, by omega⟩
  · by_cases hcross : slotBytes < c.position % slotBytes + f.bytes
    · have hstart : f.startFrom c.position =
          slotBytes * ((c.position + (slotBytes - 1)) / slotBytes) := if_pos (.inr hcross)
      rw [hstart] at hend ⊢
      obtain ⟨hfresh, h0⟩ := freshSlot_position hc hend
      have hmod : c.position % slotBytes ≤ c.offset := by
        simp only [position, slotBytes]
        omega
      rw [seek, if_pos (.inr (by omega)), h0]
      exact ⟨hfresh, by omega⟩
    · have hstart : f.startFrom c.position = c.position :=
        if_neg (not_or.2 ⟨hn, hcross⟩)
      rw [hstart] at hend ⊢
      by_cases hfull : slotBytes < c.offset + f.bytes
      · -- a full slot ends where the next one begins
        obtain ⟨hfresh, h0⟩ := freshSlot_position hc (by
          simp only [position, slotBytes] at *
          omega)
        rw [seek, if_pos (.inr hfull), hfresh, h0]
        simp only [position, slotBytes] at *
        omega
      · rw [seek, if_neg (not_or.2 ⟨hn, hfull⟩)]
        exact ⟨rfl, by omega⟩

/-- **A cursor goes where the natural numbers say**, as long as there are slots. -/
theorem place_startFrom (hc : c.offset ≤ slotBytes) (hf : f.Fits)
    (hend : f.startFrom c.position + f.extent ≤ slotBytes * (2 ^ 256 - 1)) :
    (c.place f).1.position = f.startFrom c.position ∧
      (c.place f).1.offset.toNat + f.bytes ≤ slotBytes ∧
      (c.place f).2.position = f.startFrom c.position + f.extent ∧
      (c.place f).2.offset ≤ slotBytes := by
  obtain ⟨hpos, hoff⟩ := seek_startFrom hc hf (Nat.le_trans (Nat.le_add_right _ _) hend)
  have hbyte := location_offset (Nat.le_trans (Nat.le_add_right _ _) hoff)
  have hplace : (c.place f).1.position = (c.seek f).position := by
    simp only [place, Location.position, hbyte]
    rfl
  refine ⟨hplace.trans hpos, by simpa only [place, hbyte] using hoff, ?_⟩
  rw [← hpos] at hend ⊢
  show ((c.seek f).advance f).position = _ ∧ ((c.seek f).advance f).offset ≤ _
  by_cases hn : f.startsNewSlot
  · have hx := f.extent_of_startsNewSlot hn
    have hb := f.bytes_of_startsNewSlot hn
    simp only [slotBytes, position] at *
    have hadd : ((c.seek f).slot + f.slotCount).toNat = (c.seek f).slot.toNat + f.slotCount.toNat :=
      Word.toNat_add_of_lt (by omega)
    simp only [advance, hn, ↓reduceIte, hadd, hx]
    omega
  · have hx := f.extent_of_not_startsNewSlot hn
    simp only [advance, hn, Bool.false_eq_true, ↓reduceIte, position, hx, slotBytes] at *
    omega

theorem placeAll_endFrom {fs : List Footprint} (hfit : ∀ f ∈ fs, f.Fits) : ∀ {c : Cursor},
    c.offset ≤ slotBytes → Footprint.endFrom c.position fs ≤ slotBytes * (2 ^ 256 - 1) →
      (c.placeAll fs).2.position = Footprint.endFrom c.position fs ∧
        (c.placeAll fs).2.offset ≤ slotBytes := by
  induction fs with
  | nil => intro c hc _; exact ⟨rfl, hc⟩
  | cons f fs ih =>
    intro c hc hend
    obtain ⟨hf, hfs⟩ := List.forall_mem_cons.1 hfit
    obtain ⟨-, -, hnext, hoff⟩ :=
      place_startFrom hc hf (Nat.le_trans (Footprint.le_endFrom fs _) hend)
    have hrest := ih hfs hoff (by rw [hnext]; exact hend)
    rw [hnext] at hrest
    exact hrest

end Cursor

/-- A place counted from a slot on. -/
theorem Location.position_from (l : Location) (slot : Nat) :
    slotBytes * (slot + l.slot.toNat) + l.offset.toNat = slotBytes * slot + l.position := by
  rw [position, Nat.mul_add, Nat.add_assoc]

/-- Where an element lies in its array. -/
theorem element_place {element : Ty} {length : UInt64}
    (h : length.toNat * element.footprint.slotCount.toNat < 2 ^ 256) {i : Nat}
    (hi : i < length.toNat) :
    (elementLocation 0 element (Word.ofNat i)).position = element.footprint.elementPosition i ∧
      (elementLocation 0 element (Word.ofNat i)).offset.toNat + element.footprint.bytes ≤
        slotBytes ∧
      element.footprint.elementPosition i + element.footprint.extent ≤
        slotBytes * (element.footprint.arraySlots length.toNat).toNat := by
  have hlength : length.toNat < UInt64.size := length.toNat_lt
  have hi256 : i < 2 ^ 256 := by
    simp only [UInt64.size] at hlength
    omega
  have hcount : i * element.footprint.slotCount.toNat < 2 ^ 256 :=
    Nat.lt_of_le_of_lt (Nat.mul_le_mul_right _ (Nat.le_of_lt hi)) h
  have hbase : (0 : Word).toNat = 0 := rfl
  have hroom : (0 : Word).toNat + i * element.footprint.slotCount.toNat < 2 ^ 256 := by
    rwa [hbase, Nat.zero_add]
  obtain ⟨hposition, hoff⟩ := elementLocation_position_of_lt hi256 hroom
  rw [hbase, Nat.mul_zero, Nat.zero_add] at hposition
  exact ⟨hposition, hoff, Footprint.elementPosition_le_arraySlots_of_lt element.footprint_fits
    hlength h hi⟩

/-! ## The writes of a value -/

mutual
/-- **The writes of a value** keep to the room of its type, and to themselves. -/
theorem Ty.writes_occupy : ∀ (t : Ty) {v : Value} {slot offset : Nat}, t.InPlace → t.FitsStorage →
    t.Holds v → offset + t.footprint.bytes ≤ slotBytes →
    Occupies (t.writes v slot offset) (slotBytes * slot + offset)
      (slotBytes * slot + offset + t.footprint.extent)
  | .elementary e, v, slot, offset, he, _, hv, hoff => by
    have hlength := Elementary.length_encode he hv
    have hslot : Write.InSlot ⟨slot, offset, e.encode v⟩ :=
      ⟨hlength ▸ e.byteWidth_pos, hlength ▸ hoff⟩
    have hstop : Write.stop ⟨slot, offset, e.encode v⟩ =
        slotBytes * slot + offset + e.byteWidth := by rw [← hlength]; rfl
    exact hstop ▸ Occupies.singleton hslot
  | .userDefined _ _ underlying, v, slot, offset, ht, hfits, hv, hoff =>
    underlying.writes_occupy ht hfits hv hoff
  | .fixedArray element length, v, slot, offset, ht, hfits, hv, hoff => by
    cases v with
    | composite vs =>
      obtain ⟨hlength, hvs⟩ := hv
      obtain ⟨hfits, hcount⟩ := hfits
      have hoff0 : offset + slotBytes ≤ slotBytes := hoff
      have hfirst : element.footprint.elementPosition 0 = 0 := by
        cases element.footprint <;> simp [Footprint.elementPosition]
      have hnext (i : Nat) : slotBytes * slot + element.footprint.elementPosition i +
          element.footprint.extent ≤
            slotBytes * slot + element.footprint.elementPosition (i + 1) := by
        have h := Footprint.elementPosition_add_extent_le element.footprint_fits (Nat.lt_add_one i)
        omega
      have hplaced : Occupies ((Ty.fixedArray element length).writes (.composite vs) slot offset)
          (slotBytes * slot + element.footprint.elementPosition 0)
          (slotBytes * slot + slotBytes * (element.footprint.arraySlots length.toNat).toNat) := by
        refine Occupies.flatMap hnext (fun m hm => ?_) fun i hi => ?_
        · obtain ⟨-, v, hsome, hv⟩ := hvs m hm
          have hi : m.2 < length.toNat := by
            rw [← hlength]
            exact (List.getElem?_eq_some_iff.1 (List.mem_zipIdx_iff_getElem?.1 hm)).1
          obtain ⟨hposition, hinSlot, -⟩ := element_place hcount hi
          simp only [hsome]
          have helement : Occupies (element.writes v
              (slot + (elementLocation 0 element (Word.ofNat m.2)).slot.toNat)
              (elementLocation 0 element (Word.ofNat m.2)).offset.toNat) _ _ :=
            element.writes_occupy ht.1 hfits hv hinSlot
          rwa [Location.position_from, hposition] at helement
        · obtain ⟨-, -, hend⟩ := element_place hcount (by omega : i < length.toNat)
          omega
      rw [hfirst] at hplaced
      refine hplaced.mono (by omega) ?_
      simp only [Ty.footprint, Footprint.extent]
      omega
    | _ => exact hv.elim
  | .struct name members, v, slot, offset, ht, hfits, hv, hoff => by
    cases v with
    | composite vs =>
      have hoff0 : offset + slotBytes ≤ slotBytes := hoff
      obtain ⟨hfits, hend⟩ := hfits
      have hfirst : (Cursor.mk 0 0).position = 0 := rfl
      have hmembers : Occupies (memberWrites slot members (memberLocations members) vs) _ _ :=
        memberWrites_occupy members (c := ⟨0, 0⟩) ht hfits hv (Nat.zero_le _) hend
      obtain ⟨hlast, hoffset⟩ := Cursor.placeAll_endFrom (c := ⟨0, 0⟩)
        (fun _ hf => footprints_fit hf) (Nat.zero_le _) hend
      have hslots := Cursor.position_le_structSlots hoffset (hlast ▸ hend)
      rw [hlast, hfirst] at hslots
      refine hmembers.mono (by omega) ?_
      simp only [Ty.footprint, Footprint.extent, hfirst]
      omega
    | _ => exact hv.elim
  | .dynamicArray _, _, _, _, ht, _, _, _ | .mapping _ _, _, _, _, ht, _, _, _
  | .bytes, _, _, _, ht, _, _, _ | .string, _, _, _, ht, _, _, _
  | .function _, _, _, _, ht, _, _, _ | .structRef _, _, _, _, ht, _, _, _ => ht.elim

/-- The members of a struct, from the cursor on. -/
theorem memberWrites_occupy : ∀ (ms : List Member) {vs : List (String × Option Value)} {slot : Nat}
    {c : Cursor}, MembersInPlace ms → MembersFitStorage ms → MembersHold ms vs →
    c.offset ≤ slotBytes →
    Footprint.endFrom c.position (footprints ms) ≤ slotBytes * (2 ^ 256 - 1) →
    Occupies (memberWrites slot ms (c.placeAll (footprints ms)).1 vs)
      (slotBytes * slot + c.position)
      (slotBytes * slot + Footprint.endFrom c.position (footprints ms))
  | [], vs, slot, c, _, _, hvs, _, _ => by
    cases vs with
    | nil => exact Occupies.nil
    | cons v vs => exact hvs.elim
  | (name, t) :: ms, vs, slot, c, ht, hfits, hvs, hc, hend => by
    obtain ⟨ht, hms⟩ := ht
    obtain ⟨hf, hfs⟩ := hfits
    rcases vs with _ | ⟨⟨name', _ | v⟩, vs⟩
    · exact hvs.elim
    · exact hvs.elim
    · obtain ⟨-, hv, hvs⟩ := hvs
      have hle := Footprint.le_endFrom (footprints ms)
        (t.footprint.startFrom c.position + t.footprint.extent)
      obtain ⟨hplace, hin, hnext, hoff⟩ :=
        Cursor.place_startFrom hc t.footprint_fits (Nat.le_trans hle hend)
      have hstart := t.footprint.le_startFrom c.position
      have hhead : Occupies (t.writes v (slot + (c.place t.footprint).1.slot.toNat)
          (c.place t.footprint).1.offset.toNat) _ _ := t.writes_occupy ht hf hv hin
      have hrest : Occupies (memberWrites slot ms
          ((c.place t.footprint).2.placeAll (footprints ms)).1 vs) _ _ :=
        memberWrites_occupy ms hms hfs hvs hoff (by rw [hnext]; exact hend)
      rw [Location.position_from, hplace] at hhead
      rw [hnext] at hrest
      have hboth := hhead.append hrest (Nat.le_add_right _ _) (by omega) (by omega)
      exact hboth.mono (Nat.add_le_add_left hstart _) (Nat.le_refl _)
end

end StorageAtlas
