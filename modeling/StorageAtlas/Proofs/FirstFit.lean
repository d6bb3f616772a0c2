import Mathlib.Order.Bounds.Basic
import StorageAtlas.Proofs.SlotFit
import StorageAtlas.Proofs.Spans

/-!
# First fit

The rule of the compiler says where a declaration goes, and not how that place is found: at the
first byte behind the declarations before it at which its type may begin (`FirstFit`). A value type
may begin wherever it does not cross into the next slot, anything else at a slot only.

The cursor keeps a slot and an offset instead of a byte position, a full slot as the offset 32, and
it only ever looks at the slot it stands in. It follows the rule all the same, and its offsets stay
within a byte (`Cursor.placeAll_firstFit`). The elements of an array are located by a division
instead; they lie where the rule would put as many members of a struct (`elementLocation_members`).

All positions are exact, in the natural numbers, and so is the number of slots that is asked to
stay below 2 ^ 256: a layout that wraps around does not count as a small one.
-/

namespace StorageAtlas

/-! ## The rule -/

/-- Bytes at which a declaration may begin: a value type has its first and its last byte in one
slot, anything else begins with a slot. -/
def Ty.LegalAt (t : Ty) (position : Nat) : Prop :=
  if t.isValueType then
    position / slotBytes = (position + t.footprint.bytes - 1) / slotBytes
  else slotBytes ∣ position

/-- Where a declaration ends: behind its packed bytes, or with the last of its slots. -/
def Ty.endAt (t : Ty) (start : Nat) : Nat :=
  if t.isValueType then start + t.footprint.bytes
  else start + slotBytes * t.footprint.slotCount.toNat

/-- Declarations behind a position begin at `starts`, each at the first legal byte that is not
before the end of the one in front of it, and the last of them ends at `stop`. -/
inductive FirstFit : Nat → List Ty → List Nat → Nat → Prop
  | nil (position : Nat) : FirstFit position [] [] position
  | cons {position start stop : Nat} {t : Ty} {ts : List Ty} {starts : List Nat}
      (least : IsLeast {p | position ≤ p ∧ t.LegalAt p} start)
      (rest : FirstFit (t.endAt start) ts starts stop) :
      FirstFit position (t :: ts) (start :: starts) stop

/-- The rule leaves no choice. -/
theorem FirstFit.unique {position stop stop' : Nat} {ts : List Ty} {starts starts' : List Nat}
    (h : FirstFit position ts starts stop) (h' : FirstFit position ts starts' stop') :
    starts = starts' ∧ stop = stop' := by
  induction h generalizing starts' with
  | nil position =>
    cases h'
    exact ⟨rfl, rfl⟩
  | cons least rest ih =>
    cases h' with
    | cons least' rest' =>
      obtain rfl := least.unique least'
      obtain ⟨rfl, rfl⟩ := ih rest'
      exact ⟨rfl, rfl⟩

/-! ## The places the rule gives -/

theorem Ty.startsNewSlot_footprint : ∀ t : Ty, t.footprint.startsNewSlot = !t.isValueType
  | .userDefined _ _ underlying => startsNewSlot_footprint underlying
  | .elementary _ | .fixedArray _ _ | .dynamicArray _ | .mapping _ _ | .struct _ _ | .bytes
  | .string | .function _ | .structRef _ => rfl

theorem Ty.endAt_eq (t : Ty) (start : Nat) : t.endAt start = start + t.footprint.extent := by
  unfold endAt
  have hkind := t.startsNewSlot_footprint
  split
  · next h =>
    rw [h] at hkind
    rw [Footprint.extent_of_not_startsNewSlot (by rw [hkind]; decide)]
  · next h =>
    rw [Bool.eq_false_of_not_eq_true h] at hkind
    rw [Footprint.extent_of_startsNewSlot hkind]

theorem Ty.legalAt_startFrom (t : Ty) (position : Nat) :
    t.LegalAt (t.footprint.startFrom position) := by
  obtain ⟨hpos, hle⟩ := t.footprint_fits
  have hkind := t.startsNewSlot_footprint
  unfold LegalAt Footprint.startFrom
  simp only [slotBytes] at *
  split
  · next h =>
    simp only [h, Bool.not_true] at hkind
    split <;> omega
  · next h =>
    simp only [h, Bool.not_false] at hkind
    rw [if_pos (.inl hkind)]
    exact Nat.dvd_mul_right _ _

theorem Ty.startFrom_le {t : Ty} {position p : Nat} (hp : position ≤ p) (hlegal : t.LegalAt p) :
    t.footprint.startFrom position ≤ p := by
  obtain ⟨hpos, hle⟩ := t.footprint_fits
  have hkind := t.startsNewSlot_footprint
  unfold LegalAt at hlegal
  unfold Footprint.startFrom
  simp only [slotBytes] at *
  split at hlegal
  · next h =>
    simp only [h, Bool.not_true] at hkind
    simp only [hkind, Bool.false_eq_true, false_or]
    split <;> omega
  · next h =>
    simp only [h, Bool.not_false] at hkind
    obtain ⟨k, rfl⟩ := hlegal
    rw [if_pos (.inl hkind)]
    omega

/-- **The first legal byte** behind a position. -/
theorem Ty.startFrom_isLeast (t : Ty) (position : Nat) :
    IsLeast {p | position ≤ p ∧ t.LegalAt p} (t.footprint.startFrom position) :=
  ⟨⟨t.footprint.le_startFrom position, t.legalAt_startFrom position⟩,
    fun _ hp => startFrom_le hp.1 hp.2⟩

/-- Where declarations begin that come behind others. -/
def Footprint.starts (position : Nat) : List Footprint → List Nat
  | [] => []
  | f :: fs => f.startFrom position :: starts (f.startFrom position + f.extent) fs

theorem FirstFit.of_starts (ts : List Ty) : ∀ position, FirstFit position ts
    (Footprint.starts position (ts.map Ty.footprint))
    (Footprint.endFrom position (ts.map Ty.footprint)) := by
  induction ts with
  | nil => exact .nil
  | cons t ts ih =>
    intro position
    refine .cons (t.startFrom_isLeast position) ?_
    rw [t.endAt_eq]
    exact ih _

/-! ## The cursor -/

namespace Cursor

theorem placeAll_starts {fs : List Footprint} (hfit : ∀ f ∈ fs, f.Fits) : ∀ {c : Cursor},
    c.offset ≤ slotBytes → Footprint.endFrom c.position fs ≤ slotBytes * (2 ^ 256 - 1) →
      (c.placeAll fs).1.map Location.position = Footprint.starts c.position fs := by
  induction fs with
  | nil => intro c _ _; rfl
  | cons f fs ih =>
    intro c hc hend
    obtain ⟨hf, hfs⟩ := List.forall_mem_cons.1 hfit
    obtain ⟨hat, -, hnext, hoff⟩ :=
      place_startFrom hc hf (Nat.le_trans (Footprint.le_endFrom fs _) hend)
    have hrest := ih hfs hoff (by rw [hnext]; exact hend)
    rw [hnext] at hrest
    show (c.place f).1.position :: ((c.place f).2.placeAll fs).1.map Location.position = _
    rw [hat, hrest, Footprint.starts]

/-- Slots that are touched are counted as a whole. -/
theorem toNat_slotsUsed {c : Cursor} (hc : c.offset ≤ slotBytes)
    (hend : c.position ≤ slotBytes * (2 ^ 256 - 1)) :
    c.slotsUsed.toNat = (c.position + (slotBytes - 1)) / slotBytes := by
  unfold slotsUsed
  simp only [position, slotBytes] at *
  split
  · next h0 => omega
  · next h0 =>
    have hnext : (c.slot + 1).toNat = c.slot.toNat + 1 :=
      Word.toNat_add_of_lt (b := 1) (by rw [show (1 : Word).toNat = 1 from rfl]; omega)
    rw [hnext]
    omega

/-- The bytes of a slot that are counted when a declaration is placed: those that are compared with
a slot, and those behind which the cursor moves on. -/
def StaysInByte (c : Cursor) (f : Footprint) : Prop :=
  c.offset + f.bytes < UInt8.size ∧ (c.seek f).offset + f.bytes < UInt8.size

theorem advance_offset_le (c : Cursor) {f : Footprint} (hf : f.Fits) :
    ((c.seek f).advance f).offset ≤ slotBytes := by
  have hseek := c.seek_offset_le hf
  unfold advance
  split
  · exact Nat.zero_le _
  · exact hseek

/-- However far slots wrap around, an offset is at most that of a full slot. -/
theorem placeAll_offset_le {fs : List Footprint} (hfit : ∀ f ∈ fs, f.Fits) : ∀ {c : Cursor},
    c.offset ≤ slotBytes → (c.placeAll fs).2.offset ≤ slotBytes := by
  induction fs with
  | nil => intro c hc; exact hc
  | cons f fs ih =>
    intro c _
    obtain ⟨hf, hfs⟩ := List.forall_mem_cons.1 hfit
    exact ih hfs (c.advance_offset_le hf)

theorem staysInByte {c : Cursor} {f : Footprint} (hc : c.offset ≤ slotBytes) (hf : f.Fits) :
    c.StaysInByte f := by
  have hseek := c.seek_offset_le hf
  have hbytes := hf.2
  simp only [StaysInByte, slotBytes, UInt8.size] at *
  omega

theorem placeAll_offset_lt {fs : List Footprint} (hfit : ∀ f ∈ fs, f.Fits) (c : Cursor) :
    ∀ l ∈ (c.placeAll fs).1, l.offset.toNat < slotBytes := by
  intro l hl
  obtain ⟨i, hi, rfl⟩ := List.getElem_of_mem hl
  have hi' : i < fs.length := by rwa [length_placeAll] at hi
  have hpair : ((c.placeAll fs).1[i], fs[i]) ∈ (c.placeAll fs).1.zip fs := by
    rw [← List.getElem_zip (i := i) (h := by rw [List.length_zip]; omega)]
    exact List.getElem_mem _
  have hin := placeAll_fitsAt hfit _ hpair
  have hpos := (hfit _ (List.getElem_mem hi')).1
  simp only [Footprint.FitsAt] at hin
  omega

/-- **The cursor follows the rule.** For any declarations there are places that the rule gives, and
as long as the slots they take stay below 2 ^ 256 the cursor gives the same ones and counts the
slots up to the end of the last. Offsets that are reported lie in a slot, and no sum of bytes
leaves a byte. -/
theorem placeAll_firstFit (ts : List Ty) :
    ∃ starts stop, FirstFit 0 ts starts stop ∧
      ((stop + (slotBytes - 1)) / slotBytes < 2 ^ 256 →
        ((Cursor.mk 0 0).placeAll (ts.map Ty.footprint)).1.map Location.position = starts ∧
          ((Cursor.mk 0 0).placeAll (ts.map Ty.footprint)).2.slotsUsed.toNat =
            (stop + (slotBytes - 1)) / slotBytes) ∧
      (∀ l ∈ ((Cursor.mk 0 0).placeAll (ts.map Ty.footprint)).1, l.offset.toNat < slotBytes) ∧
      ∀ before t, before ++ [t] <+: ts →
        ((Cursor.mk 0 0).placeAll (before.map Ty.footprint)).2.StaysInByte t.footprint := by
  have hfit (us : List Ty) : ∀ f ∈ us.map Ty.footprint, f.Fits :=
    List.forall_mem_map.2 fun u _ => u.footprint_fits
  refine ⟨_, _, FirstFit.of_starts ts 0, fun hslots => ?_, placeAll_offset_lt (hfit ts) _,
    fun before t _ => ?_⟩
  · have hend : Footprint.endFrom (Cursor.mk 0 0).position (ts.map Ty.footprint) ≤
        slotBytes * (2 ^ 256 - 1) := by
      show Footprint.endFrom 0 _ ≤ _
      simp only [slotBytes] at *
      omega
    obtain ⟨hlast, hoff⟩ := placeAll_endFrom (hfit ts) (Nat.zero_le _) hend
    refine ⟨placeAll_starts (hfit ts) (Nat.zero_le _) hend, ?_⟩
    rw [toNat_slotsUsed hoff (hlast ▸ hend), hlast]
    rfl
  · exact staysInByte (placeAll_offset_le (hfit before) (Nat.zero_le _)) t.footprint_fits

/-- The rule as the tests of the compiler know it: two halves of a slot, a byte that needs a fresh
one, an array of two words behind it, and a flag after that. -/
theorem placeAll_firstFit_halves :
    ((Cursor.mk 0 0).placeAll ([.uint 128, .uint 128, .uint 8, .fixedArray (.uint 256) 2,
        .bool].map Ty.footprint)).1.map Location.position = [0, 16, 32, 64, 128] ∧
      ((Cursor.mk 0 0).placeAll ([.uint 128, .uint 128, .uint 8, .fixedArray (.uint 256) 2,
        .bool].map Ty.footprint)).2.slotsUsed.toNat = 5 := by
  obtain ⟨starts, stop, hrule, hplaced, -⟩ := placeAll_firstFit [.uint 128, .uint 128, .uint 8,
    .fixedArray (.uint 256) 2, .bool]
  obtain ⟨rfl, rfl⟩ := hrule.unique (FirstFit.of_starts _ 0)
  exact hplaced (by decide)

end Cursor

/-! ## Arrays are laid out like structs -/

namespace Footprint

theorem lt_perSlot_mul_add {n : Nat} (hn : 0 < n) : slotBytes < (packed n).perSlot * n + n := by
  simp only [perSlot, Nat.max_eq_left hn]
  exact Nat.lt_div_mul_add hn

/-- Behind one element comes the next. -/
theorem startFrom_elementPosition {f : Footprint} (hf : f.Fits) (i : Nat) :
    f.startFrom (f.elementPosition i + f.extent) = f.elementPosition (i + 1) := by
  have hwhole {g : Footprint} (hg : g.startsNewSlot) :
      g.startFrom (i * g.extent + g.extent) = (i + 1) * g.extent := by
    rw [← Nat.succ_mul, startFrom, if_pos (.inl hg), extent_of_startsNewSlot hg, Nat.mul_left_comm]
    simp only [slotBytes]
    omega
  cases f with
  | slots n => exact hwhole (g := slots n) rfl
  | dynamic => exact hwhole (g := dynamic) rfl
  | packed n =>
    have hpos : 0 < n := hf.1
    have hper := perSlot_pos hf
    have hin := element_inSlot hf i
    have hfull := perSlot_mul_le hpos
    have hover := lt_perSlot_mul_add hpos
    have hsplit := Nat.div_add_mod i (packed n).perSlot
    have hmod := Nat.mod_lt i hper
    simp only [elementPosition, extent, startFrom, startsNewSlot, bytes, Bool.false_eq_true,
      false_or]
    generalize (packed n).perSlot = per at *
    generalize i / per = q at *
    generalize i % per = r at *
    by_cases hlast : r + 1 = per
    · -- no further element fits into the slot
      have hnext : i + 1 = per * (q + 1) := by rw [Nat.mul_succ]; omega
      rw [hnext, Nat.mul_div_cancel_left _ hper, Nat.mul_mod_right, Nat.zero_mul]
      rw [← hlast, Nat.succ_mul] at hfull hover
      simp only [slotBytes] at *
      split <;> omega
    · have hnext : i + 1 = per * q + (r + 1) := by omega
      have hdiv : (per * q + (r + 1)) / per = q := by
        rw [Nat.mul_add_div hper, Nat.div_eq_of_lt (by omega), Nat.add_zero]
      have hlt : r + 1 < per := by omega
      have hrest : (per * q + (r + 1)) % per = r + 1 := by
        rw [Nat.mul_add_mod, Nat.mod_eq_of_lt hlt]
      have hroom : (r + 1) * n + n ≤ slotBytes := by
        rw [← Nat.succ_mul]
        exact Nat.le_trans (Nat.mul_le_mul_right n (by omega)) hfull
      rw [hnext, hdiv, hrest]
      rw [Nat.succ_mul r n] at hroom ⊢
      simp only [slotBytes] at *
      split <;> omega

@[simp] theorem elementPosition_zero (f : Footprint) : f.elementPosition 0 = 0 := by
  cases f with
  | packed n => simp [elementPosition]
  | slots n => exact Nat.zero_mul _
  | dynamic => exact Nat.zero_mul _

theorem startFrom_zero {f : Footprint} (hf : f.Fits) : f.startFrom 0 = 0 := by
  have hle := hf.2
  unfold startFrom
  split
  · rfl
  · rfl

/-- Copies of one declaration lie where the elements of an array do. -/
theorem starts_replicate {f : Footprint} (hf : f.Fits) (n : Nat) : ∀ {position k : Nat},
    f.startFrom position = f.elementPosition k →
      starts position (List.replicate n f) = (List.range' k n).map f.elementPosition := by
  induction n with
  | zero => intro _ _ _; rfl
  | succ n ih =>
    intro position k h
    rw [List.replicate_succ, starts, h, ih (startFrom_elementPosition hf k)]
    rfl

theorem endFrom_replicate {f : Footprint} (hf : f.Fits) (n : Nat) : ∀ {position k : Nat},
    f.startFrom position = f.elementPosition k →
      endFrom position (List.replicate (n + 1) f) = f.elementPosition (k + n) + f.extent := by
  induction n with
  | zero => intro _ _ h; rw [List.replicate_succ, endFrom, h]; rfl
  | succ n ih =>
    intro position k h
    rw [List.replicate_succ, endFrom, h, ih (startFrom_elementPosition hf k), Nat.add_assoc,
      Nat.add_comm 1 n]

/-- Elements end within as many slots as each of them alone would take. -/
theorem elementPosition_add_extent_le_mul {f : Footprint} (hf : f.Fits) (i : Nat) :
    f.elementPosition i + f.extent ≤ slotBytes * ((i + 1) * f.slotCount.toNat) := by
  have hwhole {g : Footprint} (hg : g.startsNewSlot) :
      i * g.extent + g.extent ≤ slotBytes * ((i + 1) * g.slotCount.toNat) := by
    rw [← Nat.succ_mul, extent_of_startsNewSlot hg, Nat.mul_left_comm]
  cases f with
  | slots n => exact hwhole (g := slots n) rfl
  | dynamic => exact hwhole (g := dynamic) rfl
  | packed n =>
    have hin := element_inSlot hf i
    have hdiv : i / (packed n).perSlot ≤ i := Nat.div_le_self _ _
    have hone : (packed n).slotCount.toNat = 1 := rfl
    simp only [elementPosition, extent, slotBytes, hone] at *
    omega

theorem slotCount_pos (f : Footprint) (hx : 0 < f.extent) : 0 < f.slotCount.toNat := by
  cases f with
  | packed _ => exact Nat.one_pos
  | slots n => exact Nat.pos_of_mul_pos_left hx
  | dynamic => exact Nat.one_pos

/-- The slots of an array are those up to the end of its last element. -/
theorem toNat_arraySlots {f : Footprint} (hf : f.Fits) (hx : 0 < f.extent) {n : Nat}
    (hslots : (n + 1) * f.slotCount.toNat < 2 ^ 256) :
    (f.arraySlots (n + 1)).toNat =
      (f.elementPosition n + f.extent + (slotBytes - 1)) / slotBytes := by
  have hwhole {g : Footprint} (hg : g.startsNewSlot) (hx : 0 < g.extent)
      (hslots : (n + 1) * g.slotCount.toNat < 2 ^ 256) :
      (Word.mulSat (Word.ofNat (n + 1)) g.slotCount).toNat =
        (n * g.extent + g.extent + (slotBytes - 1)) / slotBytes := by
    have hn : n + 1 < 2 ^ 256 :=
      Nat.lt_of_le_of_lt (Nat.le_mul_of_pos_right _ (g.slotCount_pos hx)) hslots
    rw [extent_of_startsNewSlot hg, Word.toNat_mulSat, Word.toNat_ofNat_of_lt hn,
      Nat.min_eq_left (by omega), ← Nat.succ_mul, Nat.mul_left_comm, Nat.succ_eq_add_one]
    simp only [slotBytes]
    omega
  cases f with
  | slots n => exact hwhole (g := slots n) rfl hx hslots
  | dynamic => exact hwhole (g := dynamic) rfl hx hslots
  | packed w =>
    have hper := perSlot_pos hf
    have hin := element_inSlot hf n
    have hone : (packed w).slotCount.toNat = 1 := rfl
    have hround : (n + 1 + (packed w).perSlot - 1) / (packed w).perSlot =
        n / (packed w).perSlot + 1 := by
      rw [Nat.add_right_comm, Nat.add_sub_cancel, Nat.add_div_right _ hper]
    have hdiv : n / (packed w).perSlot ≤ n := Nat.div_le_self _ _
    rw [hone, Nat.mul_one] at hslots
    rw [arraySlots, hround, Word.toNat_ofNat_of_lt (by omega)]
    simp only [elementPosition, extent, slotBytes] at *
    omega

end Footprint

/-- A place is told by its first byte. -/
theorem Location.eq_of_position {l m : Location} (hl : l.offset.toNat < slotBytes)
    (hm : m.offset.toNat < slotBytes) (h : l.position = m.position) : l = m := by
  obtain ⟨slot, offset⟩ := l
  obtain ⟨slot', offset'⟩ := m
  simp only [position, slotBytes] at *
  obtain rfl : slot = slot' := BitVec.eq_of_toNat_eq (by omega)
  obtain rfl : offset = offset' := UInt8.toNat_inj.1 (by omega)
  rfl

theorem Location.map_position_inj {ls ms : List Location}
    (hl : ∀ l ∈ ls, l.offset.toNat < slotBytes) (hm : ∀ m ∈ ms, m.offset.toNat < slotBytes)
    (h : ls.map position = ms.map position) : ls = ms := by
  induction ls generalizing ms with
  | nil => exact (List.map_eq_nil_iff.1 h.symm).symm
  | cons l ls ih =>
    cases ms with
    | nil => cases h
    | cons m ms =>
      obtain ⟨hhead, htail⟩ := List.cons.inj h
      obtain ⟨hl, hls⟩ := List.forall_mem_cons.1 hl
      obtain ⟨hm, hms⟩ := List.forall_mem_cons.1 hm
      rw [eq_of_position hl hm hhead, ih hls hms htail]

theorem elementLocation_offset_lt (base : Word) (element : Ty) (i : Word) :
    (elementLocation base element i).offset.toNat < slotBytes := by
  have hfits : _ + _ ≤ _ := elementLocation_fitsAt base element i
  have hpos := element.footprint_fits.1
  omega

/-- The elements of an array at slot zero lie where their positions say. -/
theorem elementLocation_zero_position {T : Ty} (hx : 0 < T.footprint.extent) {i : Nat}
    (hslots : (i + 1) * T.footprint.slotCount.toNat < 2 ^ 256) :
    (elementLocation 0 T (Word.ofNat i)).position = T.footprint.elementPosition i := by
  have hcount := T.footprint.slotCount_pos hx
  have hi : i < 2 ^ 256 :=
    Nat.lt_of_succ_lt (Nat.lt_of_le_of_lt (Nat.le_mul_of_pos_right _ hcount) hslots)
  have hzero : (0 : Word).toNat = 0 := rfl
  have hbelow : (0 : Word).toNat + i * T.footprint.slotCount.toNat < 2 ^ 256 := by
    rw [hzero, Nat.zero_add]
    exact Nat.lt_of_le_of_lt (Nat.mul_le_mul_right _ (Nat.le_succ i)) hslots
  obtain ⟨hposition, -⟩ := elementLocation_position_of_lt hi hbelow
  rw [hposition, hzero, Nat.mul_zero, Nat.zero_add]

/-- An array elsewhere is the array at slot zero, moved. -/
theorem elementLocation_within (base : Word) (element : Ty) (i : Word) :
    elementLocation base element i = (elementLocation 0 element i).within base := by
  unfold elementLocation
  split <;> simp only [Location.within, BitVec.ofNat_eq_ofNat, BitVec.zero_add]

section Copies

variable {T : Ty} {n : Nat} {members : List Member}

/-- What a struct of copies looks like to the cursor. -/
theorem footprints_copies (h : members.map Prod.snd = List.replicate n T) :
    footprints members = List.replicate n T.footprint := by
  rw [footprints_eq_map, ← List.map_replicate, ← h, List.map_map]
  rfl

theorem startFrom_start (T : Ty) : T.footprint.startFrom (Cursor.mk 0 0).position =
    T.footprint.elementPosition 0 := by
  show T.footprint.startFrom 0 = _
  rw [Footprint.startFrom_zero T.footprint_fits, Footprint.elementPosition_zero]

/-- A struct of copies ends where the last element of an array does. -/
theorem endFrom_copies (h : members.map Prod.snd = List.replicate (n + 1) T) :
    Footprint.endFrom (Cursor.mk 0 0).position (footprints members) =
      T.footprint.elementPosition n + T.footprint.extent := by
  rw [footprints_copies h, Footprint.endFrom_replicate T.footprint_fits n (startFrom_start T),
    Nat.zero_add]

theorem endFrom_copies_le (h : members.map Prod.snd = List.replicate (n + 1) T)
    (hslots : (n + 1) * T.footprint.slotCount.toNat < 2 ^ 256) :
    Footprint.endFrom (Cursor.mk 0 0).position (footprints members) ≤
      slotBytes * (2 ^ 256 - 1) := by
  rw [endFrom_copies h]
  exact Nat.le_trans (Footprint.elementPosition_add_extent_le_mul T.footprint_fits n)
    (Nat.mul_le_mul_left _ (Nat.le_sub_one_of_lt hslots))

theorem memberLocations_copies (hx : 0 < T.footprint.extent)
    (h : members.map Prod.snd = List.replicate (n + 1) T)
    (hslots : (n + 1) * T.footprint.slotCount.toNat < 2 ^ 256) :
    memberLocations members =
      (List.range (n + 1)).map fun i => elementLocation 0 T (Word.ofNat i) := by
  have hfit : ∀ f ∈ footprints members, f.Fits := fun _ hf => footprints_fit hf
  refine Location.map_position_inj (Cursor.placeAll_offset_lt hfit _)
    (List.forall_mem_map.2 fun i _ => elementLocation_offset_lt 0 T _) ?_
  rw [memberLocations, Cursor.placeAll_starts hfit (Nat.zero_le _) (endFrom_copies_le h hslots),
    footprints_copies h, Footprint.starts_replicate T.footprint_fits (n + 1) (startFrom_start T),
    ← List.range_eq_range', List.map_map]
  refine List.map_congr_left fun i hi => ?_
  have hin : i < n + 1 := List.mem_range.1 hi
  have hbelow := Nat.lt_of_le_of_lt (Nat.mul_le_mul_right _ hin) hslots
  exact (elementLocation_zero_position hx hbelow).symm

theorem memberSlots_copies (hx : 0 < T.footprint.extent)
    (h : members.map Prod.snd = List.replicate (n + 1) T)
    (hslots : (n + 1) * T.footprint.slotCount.toNat < 2 ^ 256) :
    memberSlots members = T.footprint.arraySlots (n + 1) := by
  have hfit : ∀ f ∈ footprints members, f.Fits := fun _ hf => footprints_fit hf
  have hend := endFrom_copies_le h hslots
  obtain ⟨hposition, hoff⟩ := Cursor.placeAll_endFrom (c := ⟨0, 0⟩) hfit (Nat.zero_le _) hend
  have hused := Cursor.toNat_slotsUsed hoff (hposition ▸ hend)
  rw [hposition, endFrom_copies h, ← Footprint.toNat_arraySlots T.footprint_fits hx hslots] at hused
  have hused := BitVec.eq_of_toNat_eq hused
  have hpos := Footprint.toNat_arraySlots T.footprint_fits hx hslots
  rw [memberSlots, structSlots, hused, if_neg]
  intro h0
  rw [h0, show (0 : Word).toNat = 0 from rfl] at hpos
  simp only [slotBytes] at hpos
  omega

end Copies

/-- **An array is laid out like a struct of copies** of its element, each member at the place of the
element of its number, and takes as many slots; wherever the array lies, its elements lie the same
way from its first slot on. -/
theorem elementLocation_members (T : Ty) :
    (0 < T.footprint.extent → ∀ n : Nat, 0 < n → n * T.footprint.slotCount.toNat < 2 ^ 256 →
      ∀ members : List Member, members.map Prod.snd = List.replicate n T →
        (placeMembers members).map (·.location) =
            (List.range n).map (fun i => elementLocation 0 T (Word.ofNat i)) ∧
          T.footprint.arraySlots n = memberSlots members) ∧
      ∀ base index : Word,
        elementLocation base T index = (elementLocation 0 T index).within base ∧
          (elementLocation base T index).offset.toNat < slotBytes := by
  refine ⟨fun hx n hn hslots members hmembers => ?_, fun base index =>
    ⟨elementLocation_within base T index, elementLocation_offset_lt base T index⟩⟩
  obtain ⟨n, rfl⟩ := Nat.exists_eq_add_one.2 hn
  have hplaces : (placeMembers members).map (·.location) = memberLocations members := by
    rw [placeMembers_eq, List.map_map]
    exact List.map_snd_zip (Nat.le_of_eq (length_memberLocations members))
  rw [hplaces]
  exact ⟨memberLocations_copies hx hmembers hslots, (memberSlots_copies hx hmembers hslots).symm⟩

/-- Two elements of twelve bytes to a slot, with eight bytes left over in it, as members and as
elements. -/
theorem elementLocation_members_bytes12 :
    (placeMembers [("a", .fixedBytes 12), ("b", .fixedBytes 12), ("c", .fixedBytes 12)]).map
        (·.location) = [⟨0, 0⟩, ⟨0, 12⟩, ⟨1, 0⟩] ∧
      (Footprint.packed 12).arraySlots 3 =
        memberSlots [("a", .fixedBytes 12), ("b", .fixedBytes 12), ("c", .fixedBytes 12)] := by
  obtain ⟨hplaces, hslots⟩ := (elementLocation_members (.fixedBytes 12)).1 (by decide) 3
    (by decide) (by decide) [("a", .fixedBytes 12), ("b", .fixedBytes 12), ("c", .fixedBytes 12)]
    rfl
  exact ⟨hplaces, hslots⟩

end StorageAtlas
