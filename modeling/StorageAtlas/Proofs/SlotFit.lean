import StorageAtlas.Decode
import StorageAtlas.Proofs.Nesting
import StorageAtlas.Proofs.StoreOrder
import StorageAtlas.Proofs.Windows

/-!
# No value crosses its slot

Places are given by cursors, by the positions of elements and by hashes, and none of them lets a
packed value reach over the end of a slot, whatever the model says and however far slots wrap around
(`Footprint.FitsAt`). So every record that a resolver gives lies in its slot
(`Resolver.Makes.fitsAt`), and where a type cannot be decoded from its words, that is for the type
and not for the window (`decode_error`).
-/

namespace StorageAtlas

/-- What is packed ends within the slot, and anything else begins with one. -/
def Footprint.FitsAt (f : Footprint) (l : Location) : Prop :=
  l.offset.toNat + f.bytes ≤ slotBytes

/-! ## Places -/

theorem Footprint.fitsAt_zero {f : Footprint} (hf : f.Fits) (slot : Word) : f.FitsAt ⟨slot, 0⟩ := by
  show 0 + f.bytes ≤ slotBytes
  rw [Nat.zero_add]
  exact hf.2

theorem Cursor.seek_offset_le (c : Cursor) {f : Footprint} (hf : f.Fits) :
    (c.seek f).offset + f.bytes ≤ slotBytes := by
  have hbytes := hf.2
  unfold seek freshSlot
  split
  · split
    · next h0 => rwa [h0, Nat.zero_add]
    · rwa [Nat.zero_add]
  · next h => omega

theorem Cursor.place_fitsAt (c : Cursor) {f : Footprint} (hf : f.Fits) :
    f.FitsAt (c.place f).1 := by
  have hseek := c.seek_offset_le hf
  have hbyte := location_offset (Nat.le_trans (Nat.le_add_right _ _) hseek)
  show (c.seek f).location.offset.toNat + f.bytes ≤ slotBytes
  rwa [hbyte]

theorem Cursor.placeAll_fitsAt {fs : List Footprint} (hfit : ∀ f ∈ fs, f.Fits) : ∀ {c : Cursor},
    ∀ p ∈ (c.placeAll fs).1.zip fs, p.2.FitsAt p.1 := by
  induction fs with
  | nil => intro c p hp; simp at hp
  | cons f fs ih =>
    intro c
    obtain ⟨hf, hfs⟩ := List.forall_mem_cons.1 hfit
    exact List.forall_mem_cons.2 ⟨c.place_fitsAt hf, ih hfs⟩

theorem placeMembers_fitsAt {ms : List Member} :
    ∀ m ∈ placeMembers ms, m.type.footprint.FitsAt m.location := by
  have hall : ∀ p ∈ (placeMembers ms).map (fun m => (m.location, m.type.footprint)),
      p.2.FitsAt p.1 := by
    rw [placeMembers_rooms]
    exact Cursor.placeAll_fitsAt fun f hf => footprints_fit hf
  exact List.forall_mem_map.1 hall

/-- Elements share a slot only as far as they fit into it. -/
theorem elementLocation_fitsAt (base : Word) (element : Ty) (i : Word) :
    element.footprint.FitsAt (elementLocation base element i) := by
  have hfit := element.footprint_fits
  unfold elementLocation
  generalize element.footprint = f at hfit
  cases f with
  | packed n =>
    have hin := Footprint.element_inSlot hfit i.toNat
    have hbyte : (UInt8.ofNat (i.toNat % (Footprint.packed n).perSlot * n)).toNat =
        i.toNat % (Footprint.packed n).perSlot * n := by
      rw [UInt8.toNat_ofNat']
      exact Nat.mod_eq_of_lt (by simp only [slotBytes] at hin; omega)
    simp only [Footprint.FitsAt, hbyte]
    exact hin
  | slots n => exact Footprint.fitsAt_zero hfit _
  | dynamic => exact Footprint.fitsAt_zero hfit _

theorem Model.placements_fitsAt {m : Model} {contract : String} {ps : List Placement}
    (h : m.placements contract = .ok ps) : ∀ p ∈ ps, p.type.footprint.FitsAt p.location := by
  have hall : ∀ p ∈ ps.map (fun p => (p.location, p.type.footprint)), p.2.FitsAt p.1 := by
    rw [← List.zip_map', placements_locations h]
    exact Cursor.placeAll_fitsAt (List.forall_mem_map.2 fun p _ => p.type.footprint_fits)
  exact List.forall_mem_map.1 hall

/-! ## Along a path -/

section Path

variable {structs : StructTable}

/-- A named struct takes a whole slot already before it is spelled out. -/
theorem Ty.bytes_of_expandInPlace {t u : Ty} (h : t.expandInPlace structs = .ok u) :
    u.footprint.bytes = t.footprint.bytes := by
  unfold expandInPlace at h
  split at h
  · split at h
    · obtain rfl := Except.ok.inj h; rfl
    · cases h
  · split at h
    · obtain rfl := Except.ok.inj h; rfl
    · cases h
  · split at h
    · obtain rfl := Except.ok.inj h; rfl
    · cases h
  · obtain rfl := Except.ok.inj h; rfl

theorem bytes_of_materialize {t u : Ty} (h : materialize structs t = .ok u) :
    u.footprint.bytes = t.footprint.bytes := by
  unfold materialize at h
  split at h
  · split at h
    · obtain rfl := Except.ok.inj h; rfl
    · cases h
  · split at h
    · next hu =>
      obtain rfl := Except.ok.inj h
      exact Ty.bytes_of_expandInPlace hu
    · cases h

theorem Leads.fitsAt {here : Location} {t : Ty} {step : AccessStep}
    {r : Location × Ty × AccessStep} (h : Leads here t step r) : r.2.1.footprint.FitsAt r.1 := by
  cases h with
  | key h => exact Footprint.fitsAt_zero (Ty.footprint_fits _) _
  | number h => exact Footprint.fitsAt_zero (Ty.footprint_fits _) _
  | item h => exact elementLocation_fitsAt _ _ _
  | element h hi => exact elementLocation_fitsAt _ _ _
  | member h => exact placeMembers_fitsAt _ (List.mem_of_find?_eq_some h)

theorem walk_fitsAt {steps : List AccessStep} : ∀ {here : Location} {t : Ty} {d : Derived},
    walk structs here t steps = .ok d → t.footprint.FitsAt here →
      d.type.footprint.FitsAt d.location := by
  induction steps with
  | nil =>
    intro here t d h ht
    obtain rfl := Except.ok.inj h
    exact ht
  | cons step steps ih =>
    intro here t d h _
    obtain ⟨next, u, taken, v, d', hstep, hv, hd', rfl⟩ := walk_cons h
    have hu : u.footprint.FitsAt next := (Leads.of_applyStep hstep).fitsAt
    have hd : d'.type.footprint.FitsAt d'.location :=
      ih hd' (by rwa [Footprint.FitsAt, bytes_of_materialize hv])
    exact hd

theorem derive_fitsAt {base : Location} {t : Ty} {steps : List AccessStep} {limit : Nat}
    {d : Derived} (h : derive base t steps limit structs = .ok d) (ht : t.footprint.FitsAt base) :
    d.type.footprint.FitsAt d.location := by
  unfold derive at h
  split at h
  · exact nomatch h
  · next u hu =>
    refine walk_fitsAt h ?_
    rwa [Footprint.FitsAt, bytes_of_materialize hu]

end Path

/-! ## Records -/

theorem Node.children_inSlot {n m : Node} (h : m ∈ n.children) : m.InSlot := by
  rcases mem_children h with ⟨name, ms, -, hm⟩ | ⟨element, length, -, hm⟩
  · obtain ⟨p, hp, rfl⟩ := mem_members.1 hm
    exact placeMembers_fitsAt p hp
  · obtain ⟨i, -, rfl⟩ := mem_elements.1 hm
    exact elementLocation_fitsAt _ _ _

namespace SlotRecord

def FitsAt (r : SlotRecord) : Prop := r.type.footprint.FitsAt r.location

end SlotRecord

theorem Listing.ofNode_fitsAt {structs : StructTable} {config : ResolverConfig}
    {contract declaredIn : String} {room : Nat} : ∀ {budget : Nat} {n : Node}, n.InSlot →
      ∀ r ∈ (ofNode structs config contract declaredIn room budget n).records, r.FitsAt := by
  induction room using Nat.strongRecOn with
  | ind room ih =>
    intro budget n hn
    rcases ofNode_records_cases structs config contract declaredIn room budget n with
      hnil | ⟨k, status, rest, ⟨t, ht, rfl⟩, hrecords, hrest⟩
    · rw [hnil]
      exact nofun
    · rw [hrecords]
      refine List.forall_mem_cons.2 ⟨?_, ?_⟩
      · show n.location.offset.toNat + t.footprint.bytes ≤ slotBytes
        rw [bytes_of_materialize ht]
        exact hn
      · rcases hrest with rfl | ⟨below, left, rfl, rfl⟩
        · exact nofun
        · exact ofNodes_induction (P := fun rs => ∀ r ∈ rs, r.FitsAt) nofun
            (fun h h' => List.forall_mem_append.2 ⟨h, h'⟩) fun m hm budget =>
              ih below (Nat.lt_succ_self _) (Node.children_inSlot hm)

namespace Resolver

variable {r : Resolver} {s : LayoutStore}

theorem fullLayout_fitsAt {contracts : List String} (h : r.fullLayout contracts = .ok s) :
    ∀ q ∈ s.records, q.FitsAt := by
  intro q hq
  obtain ⟨c, hc, ps, hps, p, hp, hq⟩ := (fullLayout_laysOut h).source q hq
  exact Listing.ofNode_fitsAt (n := p.node) (Model.placements_fitsAt hps p hp) q hq

theorem path_fitsAt {contract : String} {asked : VariablePath}
    (h : r.path contract asked = .ok s) : ∀ q ∈ s.records, q.FitsAt := by
  unfold path at h
  split at h
  · exact nomatch h
  · next ps hps =>
    split at h
    · exact nomatch h
    · next p hp =>
      split at h
      · exact nomatch h
      · next d hd =>
        have hplace := Model.placements_fitsAt hps p (List.mem_of_find?_eq_some hp)
        have hreached : d.type.footprint.FitsAt d.location := derive_fitsAt hd hplace
        split at h
        · obtain rfl := Except.ok.inj h
          exact List.forall_mem_singleton.2 hreached
        · intro q hq
          have hsource := (LayoutStore.insertListing_grows h).2.source q hq
          exact Listing.ofNode_fitsAt (n := ⟨⟨p.name, d.steps⟩, d.location, d.type⟩) hreached q
            (hsource.resolve_left nofun)

/-- **No record crosses its slot** in a store that a resolver gives. -/
theorem Makes.fitsAt (h : r.Makes s) : ∀ q ∈ s.records, q.FitsAt := by
  cases h with
  | fullLayout h => exact fullLayout_fitsAt h
  | path h => exact path_fitsAt h

end Resolver

/-! ## Decoding -/

theorem Ty.footprint_stored : ∀ t : Ty, t.stored.footprint = t.footprint
  | .userDefined _ _ underlying => footprint_stored underlying
  | .elementary _ | .fixedArray _ _ | .dynamicArray _ | .mapping _ _ | .struct _ _ | .bytes
  | .string | .function _ | .structRef _ => rfl

/-- An error that is about the type, not about its place or its words. -/
def Error.IsOfType (e : Error) : Prop := ∃ cause, e = .unresolvedType cause

theorem decodeValueType_error {t : Ty} {w : Word} {offset : Nat} {e : Error}
    (hfit : offset + t.footprint.bytes ≤ slotBytes) (h : decodeValueType t w offset = .error e) :
    e.IsOfType := by
  unfold decodeValueType at h
  split at h
  · next a ha =>
    have hbytes : t.footprint.bytes = a.byteWidth := by rw [← t.footprint_stored, ha]; rfl
    rw [windowBytes_eq (hbytes ▸ hfit)] at h
    exact nomatch h
  · exact ⟨_, (Except.error.inj h).symm⟩
  · exact ⟨_, (Except.error.inj h).symm⟩

theorem classifyBytes_error {w : Word} {e : Error} (h : classifyBytes w = .error e) :
    e.IsOfType := by
  unfold classifyBytes at h
  simp only at h
  split at h
  · exact nomatch h
  · split at h
    · exact ⟨_, (Except.error.inj h).symm⟩
    · exact nomatch h

theorem decodeSimple_error {t : Ty} {head : Word} {offset : Nat} {e : Error}
    (hfit : offset + t.footprint.bytes ≤ slotBytes) (h : decodeSimple t head offset = .error e) :
    e.IsOfType := by
  unfold decodeSimple at h
  split at h
  case h_1 | h_2 =>
    split at h
    · exact nomatch h
    · next he => exact Except.error.inj h ▸ decodeValueType_error hfit he
  case h_3 | h_4 =>
    split at h
    · exact nomatch h
    · exact nomatch h
    · next he => exact Except.error.inj h ▸ classifyBytes_error he
  case h_5 => exact nomatch h
  case h_6 => exact ⟨_, (Except.error.inj h).symm⟩
  case h_7 => exact nomatch h

/-- What cannot be decoded of a value type is left out, so only byte strings are in the way. -/
theorem decodePart_error {t : Ty} {words : List Word} {slot offset : Nat} {e : Error}
    (h : decodePart t words slot offset = .error e) : e.IsOfType := by
  unfold decodePart at h
  split at h
  · exact nomatch h
  · split at h
    · refine decodeSimple_error ?_ h
      rw [Nat.zero_add]
      exact t.footprint_fits.2
    · exact nomatch h

theorem mapM_error {ε α β : Type} {f : α → Except ε β} {l : List α} {e : ε}
    (h : l.mapM f = .error e) : ∃ a ∈ l, f a = .error e := by
  induction l with
  | nil => exact nomatch h
  | cons a l ih =>
    rw [List.mapM_cons] at h
    cases ha : f a with
    | error e' =>
      rw [ha] at h
      obtain rfl := Except.error.inj h
      exact ⟨a, List.mem_cons_self, ha⟩
    | ok b =>
      rw [ha] at h
      cases hl : l.mapM f with
      | error e' =>
        rw [hl] at h
        obtain rfl := Except.error.inj h
        obtain ⟨a', ha', hfailed⟩ := ih hl
        exact ⟨a', List.mem_cons_of_mem _ ha', hfailed⟩
      | ok bs =>
        rw [hl] at h
        exact nomatch h

mutual
theorem Ty.decodeInPlace_error {words : List Word} : ∀ {t : Ty} {slot offset : Nat} {e : Error},
    decodeInPlace words t slot offset = .error e → e.IsOfType
  | .struct _ members, slot, _, e, h => by
    simp only [decodeInPlace] at h
    split at h
    · exact nomatch h
    · next he => exact Except.error.inj h ▸ decodeMembers_error he
  | .fixedArray element length, slot, _, e, h => by
    simp only [decodeInPlace] at h
    split at h
    · exact nomatch h
    · next he =>
      obtain ⟨i, -, hi⟩ := mapM_error he
      split at hi
      · exact nomatch hi
      · next hi' =>
        obtain rfl := Except.error.inj h
        exact Except.error.inj hi ▸ element.decodeInPlace_error hi'
  | .userDefined _ _ underlying, slot, offset, e, h => by
    simp only [decodeInPlace] at h
    exact underlying.decodeInPlace_error h
  | .elementary _, _, _, _, h | .dynamicArray _, _, _, _, h | .mapping _ _, _, _, _, h
  | .bytes, _, _, _, h | .string, _, _, _, h | .function _, _, _, _, h
  | .structRef _, _, _, _, h => by
    simp only [decodeInPlace] at h
    exact decodePart_error h

theorem decodeMembers_error {words : List Word} : ∀ {ms : List Member} {ls : List Location}
    {slot : Nat} {e : Error}, decodeMembers words slot ms ls = .error e → e.IsOfType
  | [], ls, slot, e, h => by cases ls <;> exact nomatch h
  | (name, t) :: ms, [], slot, e, h => nomatch h
  | (name, t) :: ms, l :: ls, slot, e, h => by
    simp only [decodeMembers] at h
    split at h
    · next he => exact Except.error.inj h ▸ t.decodeInPlace_error he
    · split at h
      · next he => exact Except.error.inj h ▸ decodeMembers_error he
      · exact nomatch h
end

/-- **A decoding only fails for its type**, if there are words and the place fits its slot. -/
theorem decode_error {t : Ty} {words : List Word} {offset : Nat} {e : Error} (hwords : words ≠ [])
    (hfit : offset + t.footprint.bytes ≤ slotBytes) (h : decode t words offset = .error e) :
    e.IsOfType := by
  unfold decode at h
  split at h
  · exact absurd rfl hwords
  · split at h
    · split at h
      · exact nomatch h
      · next he =>
        obtain rfl := Except.error.inj h
        unfold decodeComposite at he
        split at he
        · next he' => exact Except.error.inj he ▸ Ty.decodeInPlace_error he'
        · exact nomatch he
        · exact ⟨_, (Except.error.inj he).symm⟩
    · exact decodeSimple_error hfit h

end StorageAtlas
