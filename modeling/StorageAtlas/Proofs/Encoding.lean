import Mathlib.Data.List.Perm.Basic
import StorageAtlas.Proofs.Writes

/-!
# Decoding undoes the encoding

`decode_writes`: the leaves of a value, written in any order into the words of its type, are decoded
to the value. As the windows keep apart, each is found as it was written, whatever stood in the
words before and whatever is written later (`Write.stands_foldl`); and the decoder goes down a type
the same way as the writer (`Ty.decodeInPlace_eq`).
-/

namespace StorageAtlas

/-! ## What stands in the words -/

namespace Write

variable {words : List Word} {v w : Write}

/-- The bytes of the write are found in its window. -/
def Stands (words : List Word) (w : Write) : Prop :=
  ∃ word, words[w.slot]? = some word ∧ windowBytes word w.offset w.bytes.length = .ok w.bytes

@[simp] theorem length_apply : (apply words w).length = words.length := List.length_modify _ _ _

theorem length_foldl (ws : List Write) : ∀ words, (ws.foldl apply words).length = words.length := by
  induction ws with
  | nil => intro words; rfl
  | cons w ws ih => intro words; rw [List.foldl_cons, ih, length_apply]

theorem stands_apply (hw : w.InSlot) (hslot : w.slot < words.length) :
    w.Stands (apply words w) := by
  refine ⟨words[w.slot].overwrite w.offset w.bytes, ?_, windowBytes_overwrite hw.2⟩
  rw [apply, List.getElem?_modify_eq, List.getElem?_eq_getElem hslot]
  rfl

/-- **A write leaves alone** what stands apart from it. -/
theorem Stands.apply (h : w.Stands words) (hv : v.InSlot) (hw : w.InSlot) (hapart : v.Apart w) :
    w.Stands (v.apply words) := by
  obtain ⟨word, hword, hwindow⟩ := h
  by_cases hslot : v.slot = w.slot
  · refine ⟨word.overwrite v.offset v.bytes, ?_, ?_⟩
    · rw [Write.apply, hslot, List.getElem?_modify_eq, hword]
      rfl
    · rw [windowBytes_overwrite_of_apart hv.2 hw.2, hwindow]
      simp only [Apart, stop, start, hslot] at hapart
      omega
  · refine ⟨word, ?_, hwindow⟩
    rw [Write.apply, List.getElem?_modify_ne _ _ hslot, hword]

theorem stands_foldl {ws : List Write} : ∀ {words : List Word}, (∀ w ∈ ws, w.InSlot) →
    (∀ w ∈ ws, w.slot < words.length) → ws.Pairwise Apart →
    ∀ w ∈ ws, w.Stands (ws.foldl apply words) := by
  have hkeep {v : Write} (hv : v.InSlot) {ws : List Write} : ∀ {words : List Word}, v.Stands words →
      (∀ w ∈ ws, w.InSlot) → (∀ w ∈ ws, v.Apart w) → v.Stands (ws.foldl Write.apply words) := by
    induction ws with
    | nil => intro words h _ _; exact h
    | cons w ws ih =>
      intro words h hws hapart
      obtain ⟨hw, hws⟩ := List.forall_mem_cons.1 hws
      obtain ⟨haw, hapart⟩ := List.forall_mem_cons.1 hapart
      exact ih (h.apply hw hv haw.symm) hws hapart
  induction ws with
  | nil => intro words _ _ _; exact nofun
  | cons v ws ih =>
    intro words hws hslots hapart
    obtain ⟨hv, hws⟩ := List.forall_mem_cons.1 hws
    obtain ⟨hslot, hslots⟩ := List.forall_mem_cons.1 hslots
    obtain ⟨hvs, hapart⟩ := List.pairwise_cons.1 hapart
    have hfirst : v.Stands (ws.foldl apply (apply words v)) :=
      hkeep hv (stands_apply hv hslot) hws hvs
    have hrest : ∀ w ∈ ws, w.Stands (ws.foldl apply (apply words v)) :=
      ih hws (fun w hw => by rw [length_apply]; exact hslots w hw) hapart
    exact List.forall_mem_cons.2 ⟨hfirst, hrest⟩

end Write

/-! ## Down the type -/

theorem mapM_range_eq_ok {ε α : Type} {f : Nat → Except ε α} {l : List α} : ∀ {k : Nat},
    (∀ m ∈ l.zipIdx k, f m.2 = .ok m.1) → (List.range' k l.length).mapM f = .ok l := by
  induction l with
  | nil => intro k _; rfl
  | cons x l ih =>
    intro k h
    rw [List.zipIdx_cons] at h
    obtain ⟨hx, hl⟩ := List.forall_mem_cons.1 h
    rw [List.length_cons, List.range'_succ, List.mapM_cons, show f k = .ok x from hx, ih hl]
    rfl

mutual
/-- **What is written is decoded**, at every place of a type. -/
theorem Ty.decodeInPlace_eq : ∀ (t : Ty) {v : Value} {slot offset : Nat} {words : List Word},
    t.InPlace → t.Holds v → (∀ w ∈ t.writes v slot offset, w.Stands words) →
    decodeInPlace words t slot offset = .ok (some v)
  | .elementary e, v, slot, offset, words, he, hv, hws => by
    obtain ⟨word, hword, hwindow⟩ := hws _ List.mem_cons_self
    have hlength := Elementary.length_encode he hv
    simp only at hword hwindow
    rw [hlength] at hwindow
    have hvalue : decodeValueType (.elementary e) word offset = .ok v := by
      simp only [decodeValueType, Ty.stored, hwindow, Elementary.ofWindow_encode he hv]
    have hdynamic : (Ty.elementary e).isDynamic = false := rfl
    simp only [decodeInPlace, decodePart, hword, hdynamic, hvalue]
    rfl
  | .userDefined _ _ underlying, v, slot, offset, words, ht, hv, hws => by
    simp only [decodeInPlace]
    exact underlying.decodeInPlace_eq ht hv hws
  | .fixedArray element length, v, slot, offset, words, ht, hv, hws => by
    cases v with
    | composite vs =>
      obtain ⟨hlength, hvs⟩ := hv
      simp only [decodeInPlace]
      rw [← hlength, List.range_eq_range', mapM_range_eq_ok (l := vs)]
      intro m hm
      obtain ⟨hname, v, hsome, hv⟩ := hvs m hm
      have helement : decodeInPlace words element
          (slot + (elementLocation 0 element (Word.ofNat m.2)).slot.toNat)
          (elementLocation 0 element (Word.ofNat m.2)).offset.toNat = .ok (some v) := by
        refine element.decodeInPlace_eq ht.1 hv fun w hw => hws w (List.mem_flatMap.2 ⟨m, hm, ?_⟩)
        simp only [hsome]
        exact hw
      simp only [helement, ← hname, ← hsome]
    | _ => exact hv.elim
  | .struct name members, v, slot, offset, words, ht, hv, hws => by
    cases v with
    | composite vs =>
      have hmembers := decodeMembers_eq members (length_memberLocations members) ht hv hws
      simp only [memberLocations] at hmembers
      simp only [decodeInPlace, hmembers]
    | _ => exact hv.elim
  | .dynamicArray _, _, _, _, _, ht, _, _ | .mapping _ _, _, _, _, _, ht, _, _
  | .bytes, _, _, _, _, ht, _, _ | .string, _, _, _, _, ht, _, _
  | .function _, _, _, _, _, ht, _, _ | .structRef _, _, _, _, _, ht, _, _ => ht.elim

theorem decodeMembers_eq : ∀ (ms : List Member) {ls : List Location}
    {vs : List (String × Option Value)} {slot : Nat} {words : List Word}, ls.length = ms.length →
    MembersInPlace ms → MembersHold ms vs →
    (∀ w ∈ memberWrites slot ms ls vs, w.Stands words) →
    decodeMembers words slot ms ls = .ok vs
  | [], ls, vs, slot, words, _, _, hvs, _ => by
    cases vs with
    | nil => cases ls <;> rfl
    | cons v vs => exact hvs.elim
  | (name, t) :: ms, ls, vs, slot, words, hls, ht, hvs, hws => by
    rcases vs with _ | ⟨⟨name', _ | v⟩, vs⟩
    · exact hvs.elim
    · exact hvs.elim
    · cases ls with
      | nil => exact nomatch hls
      | cons l ls =>
        obtain ⟨rfl, hv, hvs⟩ := hvs
        obtain ⟨hhere, hrest⟩ := List.forall_mem_append.1 hws
        have hhead := t.decodeInPlace_eq ht.1 hv hhere
        have htail := decodeMembers_eq ms (Nat.succ.inj hls) ht.2 hvs hrest
        simp only [decodeMembers, hhead, htail]
end

/-! ## Words of a type -/

/-- A value in place takes a slot at least. -/
theorem Ty.slotCount_pos : ∀ {t : Ty}, t.InPlace → t.FitsStorage →
    0 < t.footprint.slotCount.toNat
  | .elementary _, _, _ => Nat.one_pos
  | .userDefined _ _ underlying, ht, hfits => underlying.slotCount_pos ht hfits
  | .struct _ members, _, _ => by
    show 0 < (structSlots (footprints members)).toNat
    unfold structSlots
    generalize ((Cursor.mk 0 0).placeAll (footprints members)).2.slotsUsed = used
    by_cases h0 : used = 0
    · simp [h0]
    · have hne : used.toNat ≠ 0 := fun h => h0 (BitVec.eq_of_toNat_eq h)
      simp only [h0, ↓reduceIte]
      omega
  | .fixedArray element length, ht, hfits => by
    obtain ⟨-, -, hend⟩ := element_place hfits.2 ht.2
    have hextent : 0 < element.footprint.extent := by
      have hslots := element.slotCount_pos ht.1 hfits.1
      have hpos := element.footprint_fits.1
      cases hf : element.footprint with
      | packed n =>
        rw [hf] at hpos
        exact hpos
      | slots n =>
        rw [hf] at hslots
        exact Nat.mul_pos (by decide) hslots
      | dynamic => exact Nat.zero_lt_succ _
    show 0 < (element.footprint.arraySlots length.toNat).toNat
    by_contra h0
    rw [Nat.eq_zero_of_not_pos h0] at hend
    omega

/-- The room of a type lies in its slots. -/
theorem Ty.extent_le (t : Ty) : t.footprint.extent ≤ slotBytes * t.footprint.slotCount.toNat := by
  have hfit := t.footprint_fits
  cases hf : t.footprint with
  | packed n => exact (hf ▸ hfit).2
  | slots n => exact Nat.le_refl _
  | dynamic => exact Nat.le_refl _

/-- A value in place is made of parts, or it is one leaf. -/
theorem Ty.InPlace.cases : ∀ {t : Ty}, t.InPlace →
    t.isComposite ∨ ∃ e, t.stored = .elementary e ∧ e.Legal ∧ (∀ v, t.Holds v → e.Holds v) ∧
      ∀ v slot offset, t.writes v slot offset = [⟨slot, offset, e.encode v⟩]
  | .elementary e, ht => .inr ⟨e, rfl, ht, fun _ => id, fun _ _ _ => rfl⟩
  | .userDefined _ _ underlying, ht => InPlace.cases (t := underlying) ht
  | .struct _ _, _ => .inl rfl
  | .fixedArray _ _, _ => .inl rfl

theorem Ty.not_isComposite_of_stored {t : Ty} {e : Elementary} (h : t.stored = .elementary e) :
    t.isComposite = false := by
  rw [isComposite, h]

/-- The leaves of a value stand where they were written, in whatever order. -/
theorem Ty.writes_stand {t : Ty} {v : Value} (ht : t.InPlace) (hfits : t.FitsStorage)
    (hv : t.Holds v) {ws : List Write} (hws : ws.Perm (t.writes v 0 0)) {words : List Word}
    (hwords : words.length = t.footprint.slotCount.toNat) :
    ∀ w ∈ t.writes v 0 0, w.Stands (ws.foldl Write.apply words) := by
  have hoccupy : Occupies (t.writes v 0 0) _ _ :=
    t.writes_occupy ht hfits hv (by rw [Nat.zero_add]; exact t.footprint_fits.2)
  have hroom := t.extent_le
  rw [← hwords] at hroom
  have hslot : ∀ w ∈ t.writes v 0 0, w.slot < words.length := by
    intro w hw
    have hstop := (hoccupy.within w hw).2
    have hpos := (hoccupy.inSlot w hw).1
    simp only [Write.stop, Write.start, slotBytes] at hstop hroom
    omega
  have hsymm : ∀ {a b : Write}, a.Apart b → b.Apart a := Or.symm
  have hstand := Write.stands_foldl (fun w hw => hoccupy.inSlot w (hws.subset hw))
    (fun w hw => hslot w (hws.subset hw)) ((hws.pairwise_iff hsymm).2 hoccupy.apart)
  exact fun w hw => hstand w (hws.symm.subset hw)

/-- **Decoding undoes the encoding.** Values of the leaves of a type, written into the words of the
type in any order, are decoded to the whole value; and a single value is read back at any offset of
a word at which it fits. -/
theorem decode_writes {t : Ty} {v : Value} (ht : t.InPlace) (hfits : t.FitsStorage)
    (hv : t.Holds v) :
    (∀ (ws : List Write) (words : List Word), ws.Perm (t.writes v 0 0) →
      words.length = t.footprint.slotCount.toNat →
      decode t (ws.foldl Write.apply words) 0 = .ok (some v)) ∧
    ∀ (e : Elementary) (word : Word) (offset : Nat), t.stored = .elementary e →
      offset + e.byteWidth ≤ slotBytes →
      decodeValueType t (word.overwrite offset (e.encode v)) offset = .ok v := by
  refine ⟨fun ws words hws hwords => ?_, fun e word offset he hoffset => ?_⟩
  · have hstand := t.writes_stand ht hfits hv hws hwords
    have hlength := Write.length_foldl ws words
    obtain ⟨head, tail, hcons⟩ : ∃ head tail, ws.foldl Write.apply words = head :: tail := by
      refine List.exists_cons_of_ne_nil fun hnil => ?_
      have hpos := t.slotCount_pos ht hfits
      rw [hnil, hwords] at hlength
      exact Nat.ne_of_gt hpos hlength.symm
    have hvalue := t.decodeInPlace_eq ht hv hstand
    rw [hcons] at hstand hvalue ⊢
    rcases ht.cases with hcomposite | ⟨e, he, hlegal, hholds, hwrites⟩
    · simp only [decode, hcomposite, if_true, decodeComposite, hvalue]
    · rw [hwrites] at hstand
      obtain ⟨word, hword, hwindow⟩ := hstand _ List.mem_cons_self
      obtain rfl : head = word := Option.some.inj hword
      rw [Elementary.length_encode hlegal (hholds v hv)] at hwindow
      have hone : decodeValueType t head 0 = .ok v := by
        simp only [decodeValueType, he, hwindow, Elementary.ofWindow_encode hlegal (hholds v hv)]
      simp only [decode, Ty.not_isComposite_of_stored he, Bool.false_eq_true, if_false,
        decodeSimple, he, hone]
  · rcases ht.cases with hcomposite | ⟨e', he', hlegal, hholds, -⟩
    · rw [Ty.not_isComposite_of_stored he] at hcomposite
      exact nomatch hcomposite
    · obtain rfl : e' = e := Ty.elementary.inj (he'.symm.trans he)
      exact decodeValueType_overwrite he hlegal (hholds v hv) hoffset word

namespace Sample

/-- A struct with packed members, an array of packed numbers and an array of structs. -/
def nested : Ty := .struct "N" [("a", .userDefined "Price" .valueType (.uint 8)),
  ("b", .fixedArray (.int 16) 2),
  ("c", .fixedArray (.struct "P" [("x", .bool), ("y", .address)]) 1)]

def nestedValue : Value := .composite [("a", some (.uint 200)),
  ("b", some (.composite [("[0]", some (.int (-2))), ("[1]", some (.int 7))])),
  ("c", some (.composite [("[0]", some (.composite
    [("x", some (.bool true)), ("y", some (.address 0xbeef))]))]))]

theorem nested_inPlace : nested.InPlace := by
  simp only [nested, Ty.InPlace, MembersInPlace, Elementary.Legal, and_true]
  decide

theorem nested_fits : nested.FitsStorage := by
  simp only [nested, Ty.FitsStorage, MembersFitStorage, and_true, true_and]
  decide

theorem nested_holds : nested.Holds nestedValue := by
  have hname (i : Fin 2) : "[" ++ Text.decimal i ++ "]" = ["[0]", "[1]"][i] := by
    revert i
    decide
  refine ⟨rfl, show (200 : Word).toNat < _ by decide, rfl, ⟨rfl, ?_⟩, rfl, ⟨rfl, ?_⟩, trivial⟩
  · refine List.forall_mem_cons.2 ⟨⟨(hname 0).symm, _, rfl, ?_⟩,
      List.forall_mem_singleton.2 ⟨(hname 1).symm, _, rfl, ?_⟩⟩
    · exact show Elementary.Holds (.int 16) _ from ⟨by decide, by decide⟩
    · exact show Elementary.Holds (.int 16) _ from ⟨by decide, by decide⟩
  · exact List.forall_mem_singleton.2 ⟨(hname 0).symm, _, rfl, rfl, trivial, rfl, trivial, trivial⟩

end Sample

/-- The leaves are written last to first into words full of ones. -/
theorem decode_writes_nested : Sample.nested.InPlace ∧ Sample.nested.FitsStorage ∧
    Sample.nested.Holds Sample.nestedValue ∧
    decode Sample.nested ((Sample.nested.writes Sample.nestedValue 0 0).reverse.foldl Write.apply
      (List.replicate 3 (BitVec.allOnes 256))) 0 = .ok (some Sample.nestedValue) ∧
    decodeValueType (.int 16) (Word.overwrite 0 30 (Elementary.encode (.int 16) (.int (-2)))) 30 =
      .ok (.int (-2)) := by
  refine ⟨Sample.nested_inPlace, Sample.nested_fits, Sample.nested_holds, ?_, ?_⟩
  · exact (decode_writes Sample.nested_inPlace Sample.nested_fits Sample.nested_holds).1 _ _
      (List.reverse_perm _) (by decide)
  · have hlegal : (Ty.int 16).InPlace := show TypeExpr.isIntegerWidth _ = true by decide
    have hholds : (Ty.int 16).Holds (.int (-2)) :=
      show Elementary.Holds (.int 16) (.int (-2)) from ⟨by decide, by decide⟩
    exact (decode_writes hlegal trivial hholds).2 (.int 16) 0 30 rfl (by decide)

end StorageAtlas
