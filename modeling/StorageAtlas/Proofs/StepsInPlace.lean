import StorageAtlas.Proofs.FirstFit
import StorageAtlas.Proofs.Parts

/-!
# What lies in place in a value

Which parts a value has, in which order and where, is said here without the functions that list
them. The parts of a struct are its members as they were declared, those of a static array its
elements by their indices (`Ty.stepsInPlace`). They lie where the rule of first fit puts them,
counted from the first slot of the value, and slots wrap around at 2 ^ 256 (`Node.partsAt`). A type
that names structs is spelled out one level deep, and so are the elements of a dynamic array
(`Ty.MadeReady`).

The functions agree with all of this, whatever the size of the value: `materialize_eq_ok_iff` and
`Node.children_eq_partsAt`.
-/

namespace StorageAtlas

/-! ## Spelling out named structs -/

/-- Neither a named struct nor made of parts. -/
def Ty.IsSimple : Ty → Prop
  | .structRef _ | .fixedArray _ _ | .struct _ _ => False
  | _ => True

mutual
/-- The second type is the first with the structs spelled out that are named in place in it, one
level deep. -/
inductive Ty.SpellsOut (structs : StructTable) : Ty → Ty → Prop
  | named {name : String} {members : List Member} (h : structs.lookup name = some members) :
    Ty.SpellsOut structs (.structRef name) (.struct name members)
  | fixedArray {element element' : Ty} {length : UInt64}
    (h : Ty.SpellsOut structs element element') :
    Ty.SpellsOut structs (.fixedArray element length) (.fixedArray element' length)
  | struct {name : String} {members members' : List Member}
    (h : MembersSpellOut structs members members') :
    Ty.SpellsOut structs (.struct name members) (.struct name members')
  | simple {t : Ty} (h : t.IsSimple) : Ty.SpellsOut structs t t

/-- Members are spelled out one by one under their names. -/
inductive MembersSpellOut (structs : StructTable) : List Member → List Member → Prop
  | nil : MembersSpellOut structs [] []
  | cons {name : String} {t u : Ty} {members members' : List Member}
    (ht : Ty.SpellsOut structs t u) (h : MembersSpellOut structs members members') :
    MembersSpellOut structs ((name, t) :: members) ((name, u) :: members')
end

/-- The second type is the first made ready for its place. -/
inductive Ty.MadeReady (structs : StructTable) : Ty → Ty → Prop
  | elements {element element' : Ty} (h : element.SpellsOut structs element') :
    Ty.MadeReady structs (.dynamicArray element) (.dynamicArray element')
  | whole {t u : Ty} (ht : ∀ element, t ≠ .dynamicArray element) (h : t.SpellsOut structs u) :
    Ty.MadeReady structs t u

section SpellingOut

variable {structs : StructTable}

mutual
theorem Ty.SpellsOut.of_expandInPlace : ∀ {t u : Ty}, t.expandInPlace structs = .ok u →
    t.SpellsOut structs u
  | .structRef name, u, h => by
    unfold Ty.expandInPlace at h
    split at h
    · next members hms =>
      obtain rfl := Except.ok.inj h
      exact .named hms
    · cases h
  | .fixedArray element length, u, h => by
    unfold Ty.expandInPlace at h
    split at h
    · next element' he =>
      obtain rfl := Except.ok.inj h
      exact .fixedArray (Ty.SpellsOut.of_expandInPlace he)
    · cases h
  | .struct name members, u, h => by
    unfold Ty.expandInPlace at h
    split at h
    · next members' hms =>
      obtain rfl := Except.ok.inj h
      exact .struct (MembersSpellOut.of_expandMembers hms)
    · cases h
  | .elementary _, _, h | .dynamicArray _, _, h | .mapping _ _, _, h | .bytes, _, h
  | .string, _, h | .userDefined _ _ _, _, h | .function _, _, h =>
    Except.ok.inj h ▸ .simple trivial

theorem MembersSpellOut.of_expandMembers : ∀ {ms us : List Member},
    expandMembers structs ms = .ok us → MembersSpellOut structs ms us
  | [], us, h => Except.ok.inj h ▸ .nil
  | (name, t) :: ms, us, h => by
    unfold expandMembers at h
    split at h
    · cases h
    · next u hu =>
      split at h
      · cases h
      · next rest hrest =>
        obtain rfl := Except.ok.inj h
        exact .cons (Ty.SpellsOut.of_expandInPlace hu) (MembersSpellOut.of_expandMembers hrest)
end

mutual
theorem Ty.SpellsOut.expandInPlace_eq : ∀ {t u : Ty}, t.SpellsOut structs u →
    t.expandInPlace structs = .ok u
  | _, _, .named h => by simp only [Ty.expandInPlace, h]
  | _, _, .fixedArray h => by simp only [Ty.expandInPlace, Ty.SpellsOut.expandInPlace_eq h]
  | _, _, .struct h => by simp only [Ty.expandInPlace, MembersSpellOut.expandMembers_eq h]
  | t, _, .simple h => by
    cases t with
    | structRef _ => exact h.elim
    | fixedArray _ _ => exact h.elim
    | struct _ _ => exact h.elim
    | _ => rfl

theorem MembersSpellOut.expandMembers_eq : ∀ {ms us : List Member}, MembersSpellOut structs ms us →
    expandMembers structs ms = .ok us
  | _, _, .nil => rfl
  | _, _, .cons ht h => by
    simp only [expandMembers, Ty.SpellsOut.expandInPlace_eq ht, MembersSpellOut.expandMembers_eq h]
end

/-- **A type is made ready by spelling out** what is named in place. -/
theorem materialize_eq_ok_iff {t u : Ty} : materialize structs t = .ok u ↔
    t.MadeReady structs u := by
  constructor
  · intro h
    by_cases harray : ∃ element, t = .dynamicArray element
    · obtain ⟨element, rfl⟩ := harray
      rw [materialize] at h
      split at h
      · next element' he =>
        obtain rfl := Except.ok.inj h
        exact .elements (Ty.SpellsOut.of_expandInPlace he)
      · cases h
    · have hne : ∀ element, t ≠ .dynamicArray element := fun element ht => harray ⟨element, ht⟩
      rw [materialize_eq structs hne] at h
      split at h
      · next u' hu =>
        obtain rfl := Except.ok.inj h
        exact .whole hne (Ty.SpellsOut.of_expandInPlace hu)
      · cases h
  · rintro (h | ⟨hne, h⟩)
    · simp only [materialize, h.expandInPlace_eq]
    · rw [materialize_eq structs hne, h.expandInPlace_eq]

end SpellingOut

/-! ## Places that wrap around -/

/-- The byte so many behind the first one of a slot; slots wrap around. -/
def Location.ofPosition (base : Word) (position : Nat) : Location :=
  ⟨base + Word.ofNat (position / slotBytes), UInt8.ofNat (position % slotBytes)⟩

theorem Location.ofPosition_within (base : Word) (position : Nat) :
    (ofPosition 0 position).within base = ofPosition base position := by
  simp only [ofPosition, within, BitVec.ofNat_eq_ofNat, BitVec.zero_add]

namespace Cursor

variable {c : Cursor} {position : Nat}

/-- The cursor stands at a byte, but for slots that wrapped around. -/
def StandsAt (c : Cursor) (position : Nat) : Prop :=
  c.offset ≤ slotBytes ∧ ∃ slot, c.slot = Word.ofNat slot ∧ slotBytes * slot + c.offset = position

theorem seek_standsAt (hc : c.StandsAt position) {f : Footprint} (hf : f.Fits) :
    (c.seek f).StandsAt (f.startFrom position) ∧ (c.seek f).offset < slotBytes ∧
      (f.startsNewSlot → (c.seek f).offset = 0) := by
  obtain ⟨hoffset, slot, hslot, hposition⟩ := hc
  obtain ⟨hpos, hle⟩ := hf
  have hnext : c.slot + 1 = Word.ofNat (slot + 1) := by
    rw [hslot]
    exact (BitVec.ofNat_add _ _).symm
  unfold StandsAt seek freshSlot Footprint.startFrom
  simp only [slotBytes] at *
  by_cases hfresh : f.startsNewSlot ∨ 32 < c.offset + f.bytes
  · rw [if_pos hfresh]
    by_cases hzero : c.offset = 0
    · have hnew : f.startsNewSlot := hfresh.resolve_right (by omega)
      rw [if_pos hzero, if_pos (.inl hnew)]
      exact ⟨⟨hoffset, slot, hslot, by omega⟩, by omega, fun _ => hzero⟩
    · rw [if_neg hzero]
      refine ⟨⟨Nat.zero_le _, slot + 1, hnext, ?_⟩, Nat.succ_pos _, fun _ => rfl⟩
      show 32 * (slot + 1) + 0 = _
      split
      · omega
      · next hstay =>
        -- a full slot is not told from the start of the next one
        rw [not_or, Nat.not_lt] at hstay
        have hover := hfresh.resolve_left hstay.1
        omega
  · rw [if_neg hfresh]
    rw [not_or, Nat.not_lt] at hfresh
    have hstay : ¬(f.startsNewSlot ∨ 32 < position % 32 + f.bytes) := by
      rw [not_or, Nat.not_lt]
      exact ⟨hfresh.1, by omega⟩
    rw [if_neg hstay]
    exact ⟨⟨hoffset, slot, hslot, hposition⟩, by omega, fun h => absurd h hfresh.1⟩

/-- A declaration goes to the first byte at which it may begin, and the cursor behind it. -/
theorem place_standsAt (hc : c.StandsAt position) {f : Footprint} (hf : f.Fits) :
    (c.place f).1 = .ofPosition 0 (f.startFrom position) ∧
      (c.place f).2.StandsAt (f.startFrom position + f.extent) := by
  obtain ⟨⟨-, slot, hslot, hstart⟩, hlt, hnew⟩ := seek_standsAt hc hf
  have hend := c.seek_offset_le hf
  rw [← hstart]
  constructor
  · show (c.seek f).location = _
    have hdiv : (slotBytes * slot + (c.seek f).offset) / slotBytes = slot := by
      rw [Nat.mul_add_div (by decide), Nat.div_eq_of_lt hlt, Nat.add_zero]
    have hmod : (slotBytes * slot + (c.seek f).offset) % slotBytes = (c.seek f).offset := by
      rw [Nat.mul_add_mod, Nat.mod_eq_of_lt hlt]
    rw [Location.ofPosition, hdiv, hmod, location, hslot]
    simp only [BitVec.ofNat_eq_ofNat, BitVec.zero_add]
  · show ((c.seek f).advance f).StandsAt _
    unfold advance
    split
    · next h =>
      refine ⟨Nat.zero_le _, slot + f.slotCount.toNat, ?_, ?_⟩
      · show (c.seek f).slot + f.slotCount = _
        rw [hslot, Word.ofNat, Word.ofNat, BitVec.ofNat_add, BitVec.ofNat_toNat,
          BitVec.setWidth_eq]
      · rw [hnew h, Footprint.extent_of_startsNewSlot h, Nat.mul_add]
        rfl
    · next h =>
      refine ⟨hend, slot, hslot, ?_⟩
      rw [Footprint.extent_of_not_startsNewSlot h, Nat.add_assoc]

/-- **The cursor follows the rule of first fit**, also where slots wrap around. -/
theorem placeAll_ofPosition {fs : List Footprint} (hfit : ∀ f ∈ fs, f.Fits) :
    ∀ {c : Cursor} {position : Nat}, c.StandsAt position →
      (c.placeAll fs).1 = (Footprint.starts position fs).map (.ofPosition 0) := by
  induction fs with
  | nil => intro _ _ _; rfl
  | cons f fs ih =>
    intro c position hc
    obtain ⟨hf, hfs⟩ := List.forall_mem_cons.1 hfit
    obtain ⟨hat, hnext⟩ := place_standsAt hc hf
    show (c.place f).1 :: ((c.place f).2.placeAll fs).1 = _
    rw [hat, ih hfs hnext, Footprint.starts, List.map_cons]

end Cursor

/-- An element lies where its position says, counted from the first slot of the array. -/
theorem elementLocation_eq_ofPosition (base : Word) (element : Ty) {i : Nat} (hi : i < 2 ^ 256) :
    elementLocation base element (Word.ofNat i) =
      .ofPosition base (element.footprint.elementPosition i) := by
  have hfit := element.footprint_fits
  have hi : (Word.ofNat i).toNat = i := Word.toNat_ofNat_of_lt hi
  unfold elementLocation
  generalize element.footprint = f at hfit
  have hwhole {g : Footprint} (hg : g.startsNewSlot) :
      (⟨base + Word.ofNat i * g.slotCount, 0⟩ : Location) =
        .ofPosition base (i * g.extent) := by
    have hcount : Word.ofNat i * g.slotCount = Word.ofNat (i * g.slotCount.toNat) := by
      rw [Word.ofNat, Word.ofNat, BitVec.ofNat_mul, BitVec.ofNat_toNat, BitVec.setWidth_eq]
    rw [Footprint.extent_of_startsNewSlot hg, Nat.mul_left_comm, Location.ofPosition,
      Nat.mul_div_cancel_left _ (by decide), Nat.mul_mod_right, hcount]
    rfl
  cases f with
  | slots n => exact hwhole (g := .slots n) rfl
  | dynamic => exact hwhole (g := .dynamic) rfl
  | packed n =>
    have hin := Footprint.element_inSlot hfit i
    have hlt : i % (Footprint.packed n).perSlot * n < slotBytes :=
      Nat.lt_of_lt_of_le (Nat.lt_add_of_pos_right hfit.1) hin
    simp only [hi, Footprint.elementPosition, Location.ofPosition]
    rw [Nat.mul_add_div (by decide), Nat.div_eq_of_lt hlt, Nat.add_zero, Nat.mul_add_mod,
      Nat.mod_eq_of_lt hlt]

/-! ## Parts -/

/-- The parts that lie in place in a value, each behind the step that leads to it: members in the
order of their declaration, elements in that of their indices. -/
def Ty.stepsInPlace : Ty → List (AccessStep × Ty)
  | .struct _ members => members.map fun m => (.field m.1, m.2)
  | .fixedArray element length =>
    (List.range length.toNat).map fun i => (.index (Word.ofNat i), element)
  | .userDefined _ _ underlying => underlying.stepsInPlace
  | _ => []

theorem Ty.stepsInPlace_stored : ∀ t : Ty, t.stored.stepsInPlace = t.stepsInPlace
  | .userDefined _ _ underlying => stepsInPlace_stored underlying
  | .elementary _ | .fixedArray _ _ | .dynamicArray _ | .mapping _ _ | .struct _ _ | .bytes
  | .string | .function _ | .structRef _ => rfl

namespace Node

/-- The parts of a node that begin at the given bytes, counted from the slot of the node. -/
def partsAt (n : Node) (starts : List Nat) : List Node :=
  List.zipWith
    (fun part start => ⟨n.path.child part.1, .ofPosition n.location.slot start, part.2⟩)
    n.type.stepsInPlace starts

theorem members_eq (n : Node) (ms : List Member) : n.members ms =
    List.zipWith (fun m start => ⟨n.path.child (.field m.1),
      .ofPosition n.location.slot start, m.2⟩) ms (Footprint.starts 0 (footprints ms)) := by
  have hplaces : memberLocations ms =
      (Footprint.starts 0 (footprints ms)).map (.ofPosition 0) :=
    Cursor.placeAll_ofPosition (fun f hf => footprints_fit hf) ⟨Nat.zero_le _, 0, rfl, rfl⟩
  rw [members, placeMembers_eq, hplaces, List.map_map, List.zip_map_right, List.map_map,
    ← List.map_uncurry_zip_eq_zipWith]
  exact List.map_congr_left fun _ _ =>
    congrArg (Node.mk _ · _) (Location.ofPosition_within _ _)

theorem elements_eq (n : Node) (element : Ty) {length : Nat} (hlength : length < 2 ^ 256) :
    n.elements element length =
      List.zipWith (fun i start => ⟨n.path.child (.index (Word.ofNat i)),
          .ofPosition n.location.slot start, element⟩)
        (List.range length) (Footprint.starts 0 (List.replicate length element.footprint)) := by
  have hstart : element.footprint.startFrom 0 = element.footprint.elementPosition 0 := by
    rw [Footprint.startFrom_zero element.footprint_fits, Footprint.elementPosition_zero]
  rw [Footprint.starts_replicate element.footprint_fits length hstart, ← List.range_eq_range',
    List.zipWith_map_right, List.zipWith_self, elements]
  refine List.map_congr_left fun i hi => congrArg (Node.mk _ · _) ?_
  exact elementLocation_eq_ofPosition _ _ (Nat.lt_trans (List.mem_range.1 hi) hlength)

/-- **The children of a node are its parts**, in their order and in the places of the rule. -/
theorem children_eq_partsAt (n : Node) {starts : List Nat} {stop : Nat}
    (h : FirstFit 0 (n.type.stepsInPlace.map Prod.snd) starts stop) :
    n.children = n.partsAt starts := by
  obtain ⟨rfl, -⟩ := h.unique (FirstFit.of_starts _ 0)
  unfold children partsAt
  rw [← Ty.stepsInPlace_stored]
  cases hs : n.type.stored with
  | struct name ms =>
    simp only [Ty.stepsInPlace, List.map_map, List.zipWith_map_left]
    rw [members_eq, footprints_eq_map]
    rfl
  | fixedArray element length =>
    have hlength : length.toNat < 2 ^ 256 := Nat.lt_trans length.toNat_lt (by decide)
    simp only [Ty.stepsInPlace, List.map_map, List.zipWith_map_left]
    rw [elements_eq n element hlength]
    have hcopies : (List.range length.toNat).map
          (Ty.footprint ∘ Prod.snd ∘ fun i => (AccessStep.index (Word.ofNat i), element)) =
        List.replicate length.toNat element.footprint := by
      rw [← List.length_range (n := length.toNat), ← List.map_const', List.length_range]
      rfl
    rw [hcopies]
  | userDefined name kind underlying => exact absurd hs (Ty.stored_ne_userDefined n.type)
  | _ => rfl

end Node

end StorageAtlas
