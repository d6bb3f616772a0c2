import Mathlib.Data.List.Forall2
import StorageAtlas.Proofs.SlotFit

/-!
# A composite is decoded part by part

The parts of a struct are its members at their places, those of a static array its elements
(`Ty.placedParts`). `decodeComposite_parts`: the value of a struct or static array has an entry for
each part in order, and this entry is what the part alone is decoded to from the words that begin at
its slot; only a byte string whose head word is broken, at whatever depth, is in the way.

A decoding that begins further down the words is the decoding of the words from there on
(`Ty.decodeInPlace_add`); this is what makes the entry of a part a decoding in its own right.
-/

namespace StorageAtlas

/-! ## Lists of results -/

section Results

variable {ε α β : Type} {f g : α → Except ε β} {l : List α}

theorem mapM_congr (h : ∀ a ∈ l, f a = g a) : l.mapM f = l.mapM g := by
  induction l with
  | nil => rfl
  | cons a l ih =>
    rw [List.forall_mem_cons] at h
    rw [List.mapM_cons, List.mapM_cons, h.1, ih h.2]

theorem mapM_eq_ok_iff : ∀ {l : List α} {bs : List β},
    l.mapM f = .ok bs ↔ List.Forall₂ (fun a b => f a = .ok b) l bs
  | [], bs => by
    rw [List.mapM_nil, List.forall₂_nil_left_iff]
    exact ⟨fun h => (Except.ok.inj h).symm, fun h => h ▸ rfl⟩
  | a :: l, bs => by
    rw [List.mapM_cons, List.forall₂_cons_left_iff]
    cases ha : f a with
    | error e =>
      refine ⟨nofun, ?_⟩
      rintro ⟨b, -, hb, -, -⟩
      exact nomatch hb
    | ok b =>
      cases hl : l.mapM f with
      | error e =>
        refine ⟨nofun, ?_⟩
        rintro ⟨-, bs, -, hbs, -⟩
        exact nomatch hl.symm.trans (mapM_eq_ok_iff.2 hbs)
      | ok bs' =>
        refine ⟨fun h => ?_, ?_⟩
        · obtain rfl := Except.ok.inj h
          exact ⟨b, bs', rfl, mapM_eq_ok_iff.1 hl, rfl⟩
        · rintro ⟨b', bs, hb, hbs, rfl⟩
          obtain rfl := Except.ok.inj hb
          obtain rfl := Except.ok.inj (hl.symm.trans (mapM_eq_ok_iff.2 hbs))
          rfl

theorem exists_ok_of_mapM {bs : List β} (h : l.mapM f = .ok bs) : ∀ a ∈ l, ∃ b, f a = .ok b := by
  have hall := mapM_eq_ok_iff.1 h
  clear h
  induction hall with
  | nil => exact nofun
  | cons hb _ ih => exact List.forall_mem_cons.2 ⟨⟨_, hb⟩, ih⟩

theorem exists_mapM_error_iff :
    (∃ e, l.mapM f = .error e) ↔ ∃ a ∈ l, ∃ e, f a = .error e := by
  refine ⟨fun ⟨e, h⟩ => ?_, fun ⟨a, ha, e, h⟩ => ?_⟩
  · obtain ⟨a, ha, h⟩ := mapM_error h
    exact ⟨a, ha, e, h⟩
  · cases hl : l.mapM f with
    | error e' => exact ⟨e', rfl⟩
    | ok bs =>
      obtain ⟨b, hb⟩ := exists_ok_of_mapM hl a ha
      exact nomatch h.symm.trans hb

theorem exists_map_error_iff {x : Except ε α} {f : α → β} :
    (∃ e, x.map f = .error e) ↔ ∃ e, x = .error e := by
  cases x with
  | error e => exact ⟨fun _ => ⟨e, rfl⟩, fun _ => ⟨e, rfl⟩⟩
  | ok a => exact ⟨nofun, nofun⟩

theorem exists_of_map_eq_ok {x : Except ε α} {f : α → β} {b : β} (h : x.map f = .ok b) :
    ∃ a, x = .ok a ∧ f a = b := by
  cases x with
  | error e => exact nomatch h
  | ok a => exact ⟨a, rfl, Except.ok.inj h⟩

end Results

/-! ## The parts of a type -/

namespace Ty

/-- An element of a static array, with its place from the first slot of the array on. -/
def elementPart (element : Ty) (i : Nat) : PlacedMember :=
  ⟨"[" ++ Text.decimal i ++ "]", element, elementLocation 0 element (Word.ofNat i)⟩

/-- The parts that lie in place in a type, in order, with their places. -/
def placedParts (t : Ty) : List PlacedMember :=
  match t.stored with
  | .struct _ ms => placeMembers ms
  | .fixedArray element length =>
    (List.range length.toNat).map (elementPart element)
  | _ => []

variable {t : Ty} {p : PlacedMember}

theorem mem_placedParts (h : p ∈ t.placedParts) :
    (∃ name ms, t.stored = .struct name ms ∧ p ∈ placeMembers ms) ∨
      ∃ element length i, t.stored = .fixedArray element length ∧ p = elementPart element i := by
  unfold placedParts at h
  split at h
  · next name ms hs => exact .inl ⟨name, ms, hs, h⟩
  · next element length hs =>
    obtain ⟨i, -, rfl⟩ := List.mem_map.1 h
    exact .inr ⟨element, length, i, hs, rfl⟩
  · exact nomatch h

theorem sizeOf_lt_of_mem_placedParts (h : p ∈ t.placedParts) : sizeOf p.type < sizeOf t := by
  rcases mem_placedParts h with ⟨name, ms, hs, hp⟩ | ⟨element, length, i, hs, rfl⟩
  · exact sizeOf_lt_of_mem_members hs (mem_of_mem_placeMembers hp)
  · exact sizeOf_lt_of_element hs

/-- No part crosses its slot. -/
theorem placedParts_fitsAt (h : p ∈ t.placedParts) : p.type.footprint.FitsAt p.location := by
  rcases mem_placedParts h with ⟨name, ms, -, hp⟩ | ⟨element, length, i, -, rfl⟩
  · exact placeMembers_fitsAt p hp
  · exact elementLocation_fitsAt 0 element _

/-- What holds of a type if it holds of its parts holds of every type. -/
theorem induct_parts {P : Ty → Prop} (h : ∀ t, (∀ p ∈ t.placedParts, P p.type) → P t) (t : Ty) :
    P t := by
  induction hsize : sizeOf t using Nat.strongRecOn generalizing t with
  | ind size ih =>
    exact h t fun p hp => ih _ (hsize ▸ sizeOf_lt_of_mem_placedParts hp) _ rfl

end Ty

/-! ## Decoding in place -/

section InPlace

variable {words : List Word}

/-- The entry of a part of a type at a slot. -/
def decodeEntry (words : List Word) (slot : Nat) (p : PlacedMember) :
    Except Error (String × Option Value) :=
  (decodeInPlace words p.type (slot + p.location.slot.toNat) p.location.offset.toNat).map
    fun v => (p.name, v)

theorem decodeMembers_eq_mapM (slot : Nat) : ∀ (ms : List Member) (ls : List Location),
    decodeMembers words slot ms ls =
      (List.zipWith (fun m l => PlacedMember.mk m.1 m.2 l) ms ls).mapM (decodeEntry words slot)
  | [], ls => by
    rw [List.zipWith_nil_left]
    rfl
  | (name, t) :: ms, [] => rfl
  | (name, t) :: ms, l :: ls => by
    rw [List.zipWith_cons_cons, List.mapM_cons, ← decodeMembers_eq_mapM slot ms ls]
    simp only [decodeMembers, decodeEntry]
    cases decodeInPlace words t (slot + l.slot.toNat) l.offset.toNat with
    | error e => rfl
    | ok v =>
      cases decodeMembers words slot ms ls with
      | error e => rfl
      | ok vs => rfl

/-- Names are seen through, except in what is told of a reference to code. -/
theorem decodePart_congr {t u : Ty} (h : t.stored = u.stored) (slot offset : Nat) :
    decodePart t words slot offset = decodePart u words slot offset := by
  unfold decodePart Ty.isDynamic decodeSimple bytesValue decodeValueType
  rw [h]
  cases words[slot]? with
  | none => rfl
  | some w => cases u.stored <;> rfl

/-- What has no parts in place is decoded by itself. -/
theorem Ty.decodeInPlace_part : ∀ {t : Ty} (_ : ¬t.isComposite) {slot offset : Nat},
    decodeInPlace words t slot offset = decodePart t words slot offset
  | .userDefined name kind underlying, ht, slot, offset => by
    have hstored : (Ty.userDefined name kind underlying).stored = underlying.stored := rfl
    simp only [decodeInPlace]
    rw [underlying.decodeInPlace_part ht, decodePart_congr hstored]
  | .elementary _, _, _, _ | .dynamicArray _, _, _, _ | .mapping _ _, _, _, _ | .bytes, _, _, _
  | .string, _, _, _ | .function _, _, _, _ | .structRef _, _, _, _ => by simp only [decodeInPlace]
  | .struct _ _, ht, _, _ | .fixedArray _ _, ht, _, _ => absurd rfl ht

/-- **A composite is decoded part by part.** -/
theorem Ty.decodeInPlace_composite : ∀ {t : Ty} (_ : t.isComposite) {slot offset : Nat},
    decodeInPlace words t slot offset =
      (t.placedParts.mapM (decodeEntry words slot)).map fun vs => some (.composite vs)
  | .struct name ms, _, slot, _ => by
    have hparts : (Ty.struct name ms).placedParts = placeMembers ms := rfl
    rw [hparts, placeMembers, ← decodeMembers_eq_mapM]
    simp only [decodeInPlace]
    cases decodeMembers words slot ms _ with
    | error e => rfl
    | ok vs => rfl
  | .fixedArray element length, _, slot, _ => by
    have hparts : (Ty.fixedArray element length).placedParts =
        (List.range length.toNat).map (elementPart element) := rfl
    rw [hparts, List.mapM_map]
    simp only [decodeInPlace]
    rw [mapM_congr (g := decodeEntry words slot ∘ elementPart element)]
    · cases (List.range length.toNat).mapM (decodeEntry words slot ∘ elementPart element) with
      | error e => rfl
      | ok vs => rfl
    · intro i _
      simp only [Function.comp, decodeEntry, elementPart]
      cases decodeInPlace words element _ _ with
      | error e => rfl
      | ok v => rfl
  | .userDefined _ _ underlying, ht, slot, offset => by
    simp only [decodeInPlace]
    exact underlying.decodeInPlace_composite ht

/-- Further down the words, a decoding is that of the words from there on. -/
theorem Ty.decodeInPlace_add (k : Nat) (t : Ty) : ∀ {slot offset : Nat},
    decodeInPlace words t (k + slot) offset = decodeInPlace (words.drop k) t slot offset := by
  induction t using induct_parts with
  | h t ih =>
    intro slot offset
    by_cases ht : t.isComposite
    · rw [decodeInPlace_composite ht, decodeInPlace_composite ht]
      refine congrArg (Except.map _) (mapM_congr fun p hp => ?_)
      rw [decodeEntry, decodeEntry, Nat.add_assoc, ih p hp]
    · rw [decodeInPlace_part ht, decodeInPlace_part ht, decodePart, decodePart, List.getElem?_drop]

end InPlace

/-! ## Parts without parts -/

namespace Word

/-- The word is no head of a byte string: it says that the bytes lie in it, but not so many fit. -/
def IsBrokenHead (w : Word) : Prop := w.toNat % 256 % 2 = 0 ∧ 31 < w.toNat % 256 / 2

end Word

theorem exists_classifyBytes_error_iff {w : Word} :
    (∃ e, classifyBytes w = .error e) ↔ w.IsBrokenHead := by
  unfold classifyBytes Word.IsBrokenHead
  by_cases hodd : w.toNat % 256 % 2 = 1
  · simp only [hodd, ↓reduceIte]
    exact ⟨nofun, fun h => nomatch h.1⟩
  · have heven : w.toNat % 256 % 2 = 0 := by omega
    by_cases hlong : 31 < w.toNat % 256 / 2
    · simp only [heven, hlong, Nat.zero_ne_one, ↓reduceIte]
      exact ⟨fun _ => ⟨trivial, trivial⟩, fun _ => ⟨_, rfl⟩⟩
    · simp only [heven, hlong, Nat.zero_ne_one, ↓reduceIte]
      exact ⟨nofun, fun h => h.2.elim⟩

theorem exists_classifyBytes_long_iff {w : Word} :
    (∃ n, classifyBytes w = .ok (.long n)) ↔ w.toNat % 2 = 1 := by
  have hlow : w.toNat % 256 % 2 = w.toNat % 2 := Nat.mod_mod_of_dvd _ (by decide)
  unfold classifyBytes
  simp only [hlow]
  by_cases hodd : w.toNat % 2 = 1
  · simp only [hodd, ↓reduceIte]
    exact ⟨fun _ => trivial, fun _ => ⟨_, rfl⟩⟩
  · simp only [hodd, ↓reduceIte]
    refine ⟨?_, False.elim⟩
    rintro ⟨n, hn⟩
    split at hn
    · exact nomatch hn
    · exact nomatch hn

namespace Ty

variable {t : Ty}

theorem not_isDynamic_of_isValueType (h : t.isValueType) : ¬t.isDynamic := by
  unfold isDynamic
  rcases stored_of_isValueType h with ⟨e, hs⟩ | ⟨external, hs⟩ <;> rw [hs] <;> exact nofun

theorem not_isComposite_of_isValueType (h : t.isValueType) : ¬t.isComposite := by
  unfold isComposite
  rcases stored_of_isValueType h with ⟨e, hs⟩ | ⟨external, hs⟩ <;> rw [hs] <;> exact nofun

theorem not_isComposite_of_isDynamic (h : t.isDynamic) : ¬t.isComposite := by
  unfold isDynamic at h
  unfold isComposite
  split at h <;> simp_all only [Bool.false_eq_true, not_false_eq_true]

def IsByteString (t : Ty) : Prop := t.stored = .bytes ∨ t.stored = .string

theorem IsByteString.not_isComposite (h : t.IsByteString) : ¬t.isComposite := by
  unfold Ty.isComposite
  rcases h with h | h <;> rw [h] <;> exact nofun

/-- The types without parts that have no value in place: mappings, byte strings that lie elsewhere,
references to code, and structs that are only named. -/
def HasNoValue (t : Ty) (head : Word) : Prop :=
  match t.stored with
  | .mapping _ _ | .function _ | .structRef _ => True
  | .bytes | .string => head.toNat % 2 = 1
  | _ => False

end Ty

section Part

variable {t : Ty} {words : List Word} {slot offset : Nat} {w : Word}

theorem decodePart_of_length_le (h : words.length ≤ slot) :
    decodePart t words slot offset = .ok none := by
  rw [decodePart, List.getElem?_eq_none h]

theorem decodePart_of_isDynamic (ht : t.isDynamic) (hw : words[slot]? = some w) :
    decodePart t words slot offset = decode t (words.drop slot) 0 := by
  have hparts := Ty.not_isComposite_of_isDynamic ht
  obtain ⟨hlt, hget⟩ := List.getElem?_eq_some_iff.1 hw
  rw [List.drop_eq_getElem_cons hlt, hget]
  simp only [decodePart, decode, hw, ht, hparts, Bool.false_eq_true, ↓reduceIte]

theorem decodePart_of_not_isDynamic (ht : ¬t.isDynamic) (hw : words[slot]? = some w) :
    decodePart t words slot offset = .ok (decodeValueType t w offset).toOption := by
  simp only [decodePart, hw, ht, Bool.false_eq_true, ↓reduceIte]

theorem decodePart_of_isByteString (ht : t.IsByteString) (hw : words[slot]? = some w) :
    decodePart t words slot offset = (classifyBytes w).map fun form =>
      match form with
      | .short bs => some (bytesValue t bs)
      | .long _ => none := by
  unfold decodePart Ty.isDynamic decodeSimple
  rw [hw]
  rcases ht with hs | hs <;> rw [hs] <;> simp only [↓reduceIte]
  all_goals
    cases classifyBytes w with
    | error e => rfl
    | ok form => cases form <;> rfl

theorem exists_decodePart_ok (ht : ¬t.IsByteString) :
    ∃ v, decodePart t words slot offset = .ok v := by
  unfold decodePart Ty.isDynamic decodeSimple
  cases words[slot]? with
  | none => exact ⟨none, rfl⟩
  | some w =>
    cases hs : t.stored with
    | bytes => exact absurd (.inl hs) ht
    | string => exact absurd (.inr hs) ht
    | _ => exact ⟨_, rfl⟩

/-- **Only a byte string with a broken head is in the way.** -/
theorem exists_decodePart_error_iff : (∃ e, decodePart t words slot offset = .error e) ↔
    t.IsByteString ∧ ∃ w, words[slot]? = some w ∧ w.IsBrokenHead := by
  by_cases ht : t.IsByteString
  · cases hw : words[slot]? with
    | none =>
      rw [decodePart_of_length_le (List.getElem?_eq_none_iff.1 hw)]
      refine ⟨nofun, ?_⟩
      rintro ⟨-, w, hw, -⟩
      exact nomatch hw
    | some w =>
      rw [decodePart_of_isByteString ht hw, exists_map_error_iff, exists_classifyBytes_error_iff]
      simp only [ht, Option.some.injEq, exists_eq_left', true_and]
  · obtain ⟨v, hv⟩ := @exists_decodePart_ok t words slot offset ht
    rw [hv]
    exact ⟨nofun, fun h => absurd h.1 ht⟩

/-- Whether a part has a value depends on its type, and for byte strings on their head. -/
theorem decodePart_none_iff (ht : ¬t.isComposite) (hfit : offset + t.footprint.bytes ≤ slotBytes)
    (hw : words[slot]? = some w) {v : Option Value}
    (h : decodePart t words slot offset = .ok v) : v = none ↔ t.HasNoValue w := by
  by_cases hb : t.IsByteString
  · have hvalue : t.HasNoValue w ↔ w.toNat % 2 = 1 := by
      unfold Ty.HasNoValue
      rcases hb with hs | hs <;> rw [hs]
    rw [decodePart_of_isByteString hb hw] at h
    rw [hvalue, ← exists_classifyBytes_long_iff]
    obtain ⟨form, hform, rfl⟩ := exists_of_map_eq_ok h
    rw [hform]
    cases form with
    | short bs => exact ⟨nofun, fun ⟨_, hn⟩ => nomatch hn⟩
    | long n => exact ⟨fun _ => ⟨n, rfl⟩, fun _ => rfl⟩
  · unfold Ty.HasNoValue
    unfold decodePart Ty.isDynamic decodeSimple at h
    simp only [hw] at h
    cases hs : t.stored with
    | elementary e =>
      have hbytes : t.footprint.bytes = e.byteWidth := by rw [← t.footprint_stored, hs]; rfl
      simp only [hs, decodeValueType, windowBytes_eq (hbytes ▸ hfit)] at h
      obtain rfl := Except.ok.inj h
      exact ⟨nofun, False.elim⟩
    | function external | structRef name =>
      simp only [hs, decodeValueType] at h
      obtain rfl := Except.ok.inj h
      exact ⟨fun _ => trivial, fun _ => rfl⟩
    | mapping key value =>
      simp only [hs, ↓reduceIte] at h
      obtain rfl := Except.ok.inj h
      exact ⟨fun _ => trivial, fun _ => rfl⟩
    | dynamicArray element =>
      simp only [hs, ↓reduceIte] at h
      obtain rfl := Except.ok.inj h
      exact ⟨nofun, False.elim⟩
    | bytes => exact absurd (.inl hs) hb
    | string => exact absurd (.inr hs) hb
    | struct name ms => exact absurd (by rw [Ty.isComposite, hs]) ht
    | fixedArray element length => exact absurd (by rw [Ty.isComposite, hs]) ht
    | userDefined name kind underlying => exact absurd hs (Ty.stored_ne_userDefined t)

end Part

/-! ## Composites -/

/-- What the entry of a part says, by its type: a composite has the value that it is decoded to by
itself, a dynamic part what its own words are decoded to, and a value type what stands in its
window. There is no value where the words end, unless the part is composite itself, nor for types
that have none in place. -/
structure PartEntry (words : List Word) (p : PlacedMember) (entry : String × Option Value) :
    Prop where
  name : entry.1 = p.name
  composite : p.type.isComposite → ∃ v, entry.2 = some v ∧
    decodeComposite p.type (words.drop p.location.slot.toNat) = .ok v
  dynamic : p.type.isDynamic → p.location.slot.toNat < words.length →
    decode p.type (words.drop p.location.slot.toNat) 0 = .ok entry.2
  value : p.type.isValueType → ∀ w, words[p.location.slot.toNat]? = some w →
    entry.2 = (decodeValueType p.type w p.location.offset.toNat).toOption
  empty : entry.2 = none ↔ ¬p.type.isComposite ∧ (words.length ≤ p.location.slot.toNat ∨
    ∃ w, words[p.location.slot.toNat]? = some w ∧ p.type.HasNoValue w)

/-- The parts in a type, those of its parts included, with their slots counted from that of the
type on. -/
inductive Ty.Reaches : Ty → Nat → Ty → Prop
  | part {t : Ty} {p : PlacedMember} (hp : p ∈ t.placedParts) :
    t.Reaches p.location.slot.toNat p.type
  | within {t u : Ty} {p : PlacedMember} {slot : Nat} (hp : p ∈ t.placedParts)
    (h : p.type.Reaches slot u) : t.Reaches (p.location.slot.toNat + slot) u

namespace Ty

variable {t u : Ty} {p : PlacedMember} {words : List Word} {slot : Nat}

theorem isComposite_of_mem_placedParts (h : p ∈ t.placedParts) : t.isComposite := by
  unfold isComposite
  rcases mem_placedParts h with ⟨name, ms, hs, -⟩ | ⟨element, length, i, hs, -⟩ <;> rw [hs]

theorem Reaches.isComposite (h : t.Reaches slot u) : t.isComposite := by
  cases h with
  | part hp => exact isComposite_of_mem_placedParts hp
  | within hp _ => exact isComposite_of_mem_placedParts hp

/-- **Only broken heads of byte strings are in the way of decoding a composite.** -/
theorem exists_decodeInPlace_error_iff (t : Ty) (ht : t.isComposite) : ∀ {slot offset : Nat},
    (∃ e, decodeInPlace words t slot offset = .error e) ↔ ∃ k u w, t.Reaches k u ∧
      u.IsByteString ∧ words[slot + k]? = some w ∧ w.IsBrokenHead := by
  induction t using induct_parts with
  | h t ih =>
    intro slot offset
    have hparts : (∃ e, decodeInPlace words t slot offset = .error e) ↔ ∃ p ∈ t.placedParts, ∃ e,
        decodeInPlace words p.type (slot + p.location.slot.toNat) p.location.offset.toNat =
          .error e := by
      rw [decodeInPlace_composite ht, exists_map_error_iff, exists_mapM_error_iff]
      simp only [decodeEntry, exists_map_error_iff]
    rw [hparts]
    constructor
    · rintro ⟨p, hp, hfailed⟩
      by_cases hc : p.type.isComposite
      · obtain ⟨k, u, w, hreach, hu, hw, hbroken⟩ := (ih p hp hc).1 hfailed
        rw [Nat.add_assoc] at hw
        exact ⟨_, u, w, .within hp hreach, hu, hw, hbroken⟩
      · rw [decodeInPlace_part hc, exists_decodePart_error_iff] at hfailed
        obtain ⟨hu, w, hw, hbroken⟩ := hfailed
        exact ⟨_, p.type, w, .part hp, hu, hw, hbroken⟩
    · rintro ⟨k, u, w, hreach, hu, hw, hbroken⟩
      cases hreach with
      | @part _ p hp =>
        refine ⟨p, hp, ?_⟩
        rw [decodeInPlace_part hu.not_isComposite, exists_decodePart_error_iff]
        exact ⟨hu, w, hw, hbroken⟩
      | @within _ _ p k hp hreach =>
        rw [← Nat.add_assoc] at hw
        exact ⟨p, hp, (ih p hp hreach.isComposite).2 ⟨k, u, w, hreach, hu, hw, hbroken⟩⟩

end Ty

/-- A composite is decoded from its own slot on. -/
theorem decodeComposite_eq {t : Ty} (ht : t.isComposite) (words : List Word) :
    decodeComposite t words = (t.placedParts.mapM (decodeEntry words 0)).map .composite := by
  rw [decodeComposite, Ty.decodeInPlace_composite ht]
  cases t.placedParts.mapM (decodeEntry words 0) with
  | error e => rfl
  | ok vs => rfl

theorem exists_decodeComposite_error_iff {t : Ty} (ht : t.isComposite) {words : List Word} :
    (∃ e, decodeComposite t words = .error e) ↔ ∃ e, decodeInPlace words t 0 0 = .error e := by
  rw [decodeComposite_eq ht, Ty.decodeInPlace_composite ht, exists_map_error_iff,
    exists_map_error_iff]

/-- The entry of a part is what the part alone is decoded to. -/
theorem partEntry_of_decodeEntry {words : List Word} {p : PlacedMember}
    (hfit : p.type.footprint.FitsAt p.location) {entry : String × Option Value}
    (h : decodeEntry words 0 p = .ok entry) : PartEntry words p entry := by
  obtain ⟨v, hv, rfl⟩ := exists_of_map_eq_ok h
  rw [Nat.zero_add] at hv
  by_cases hc : p.type.isComposite
  · have hown := @Ty.decodeInPlace_add words p.location.slot.toNat p.type 0
      p.location.offset.toNat
    rw [Nat.add_zero, hv, Ty.decodeInPlace_composite hc] at hown
    obtain ⟨vs, hvs, rfl⟩ := exists_of_map_eq_ok hown.symm
    refine ⟨rfl, fun _ => ⟨.composite vs, rfl, ?_⟩,
      fun hd => absurd hc (Ty.not_isComposite_of_isDynamic hd),
      fun hval => absurd hc (Ty.not_isComposite_of_isValueType hval), ?_⟩
    · rw [decodeComposite_eq hc, hvs]
      rfl
    · exact ⟨nofun, fun hnone => absurd hc hnone.1⟩
  · rw [Ty.decodeInPlace_part hc] at hv
    cases hw : words[p.location.slot.toNat]? with
    | none =>
      have hpast := List.getElem?_eq_none_iff.1 hw
      rw [decodePart_of_length_le hpast] at hv
      obtain rfl := Except.ok.inj hv
      exact ⟨rfl, fun hc' => absurd hc' hc, fun _ hlt => absurd hlt (Nat.not_lt.2 hpast),
        fun _ w hw' => absurd (hw.symm.trans hw') nofun, ⟨fun _ => ⟨hc, .inl hpast⟩, fun _ => rfl⟩⟩
    | some w =>
      obtain ⟨hlt, -⟩ := List.getElem?_eq_some_iff.1 hw
      have hnone := decodePart_none_iff hc hfit hw hv
      refine ⟨rfl, fun hc' => absurd hc' hc, fun hd _ => ?_, fun hval w' hw' => ?_, ?_⟩
      · rwa [decodePart_of_isDynamic hd hw] at hv
      · obtain rfl := Option.some.inj (hw.symm.trans hw')
        rw [decodePart_of_not_isDynamic (Ty.not_isDynamic_of_isValueType hval) hw] at hv
        exact (Except.ok.inj hv).symm
      · rw [hnone]
        refine ⟨fun hvalue => ⟨hc, .inr ⟨w, hw, hvalue⟩⟩, ?_⟩
        rintro ⟨-, hpast | ⟨w', hw', hvalue⟩⟩
        · exact absurd hlt (Nat.not_lt.2 hpast)
        · obtain rfl := Option.some.inj (hw.symm.trans hw')
          exact hvalue

/-- **A composite is decoded part by part.** Where a struct or static array is decoded, its value
has one entry for each part, in order, and each says what the part alone is decoded to; decoding
fails exactly if one of the byte strings in it, at any depth, has a head among the words that says
it lies in its word and is longer than what fits there. -/
theorem decodeComposite_parts {t : Ty} (ht : t.isComposite) (words : List Word) :
    (∀ v, decodeComposite t words = .ok v →
      ∃ vs, v = .composite vs ∧ List.Forall₂ (PartEntry words) t.placedParts vs) ∧
    ((∃ e, decodeComposite t words = .error e) ↔ ∃ slot u w, t.Reaches slot u ∧ u.IsByteString ∧
      words[slot]? = some w ∧ w.IsBrokenHead) := by
  refine ⟨fun v hv => ?_, ?_⟩
  · rw [decodeComposite_eq ht] at hv
    obtain ⟨vs, hvs, rfl⟩ := exists_of_map_eq_ok hv
    obtain ⟨hlength, hentries⟩ := List.forall₂_iff_zip.1 (mapM_eq_ok_iff.1 hvs)
    refine ⟨vs, rfl, List.forall₂_iff_zip.2 ⟨hlength, fun hmem => ?_⟩⟩
    have hfit := Ty.placedParts_fitsAt (List.of_mem_zip hmem).1
    exact partEntry_of_decodeEntry hfit (hentries hmem)
  · rw [exists_decodeComposite_error_iff ht, t.exists_decodeInPlace_error_iff ht]
    simp only [Nat.zero_add]

namespace Sample

/-- A struct with a flag, a struct that holds a number and a text, and a mapping. -/
def boxType : Ty :=
  .struct "Box" [("flag", .bool), ("label", .struct "Label" [("n", .uint 16), ("text", .string)]),
    ("rest", .mapping .address .bool)]

/-- Words of a box whose text has one letter, and of one whose text says that it has 32. -/
def boxWords (text : Word) : List Word := [1, 5, text, 0]

def letterWord : Word := Word.ofBytes ([0x61] ++ List.replicate 30 0 ++ [2])

end Sample

/-- The parts of a box, whose text is in its own part; with a broken head, the box fails. -/
theorem decodeComposite_parts_box : Sample.boxType.isComposite ∧
    (∃ vs,
      decodeComposite Sample.boxType (Sample.boxWords Sample.letterWord) = .ok (.composite vs) ∧
      List.Forall₂ (PartEntry (Sample.boxWords Sample.letterWord)) Sample.boxType.placedParts vs) ∧
    ∃ e, decodeComposite Sample.boxType (Sample.boxWords 64) = .error e := by
  have hbox : Sample.boxType.isComposite := rfl
  obtain ⟨hparts, -⟩ := decodeComposite_parts hbox (Sample.boxWords Sample.letterWord)
  obtain ⟨v, hv⟩ :
      ∃ v, decodeComposite Sample.boxType (Sample.boxWords Sample.letterWord) = .ok v :=
    ⟨_, rfl⟩
  obtain ⟨vs, rfl, hvs⟩ := hparts v hv
  refine ⟨hbox, ⟨vs, hv, hvs⟩, ?_⟩
  obtain ⟨-, hfails⟩ := decodeComposite_parts hbox (Sample.boxWords 64)
  have hlabel : (⟨"label", .struct "Label" [("n", .uint 16), ("text", .string)], ⟨1, 0⟩⟩ :
      PlacedMember) ∈ Sample.boxType.placedParts := .tail _ (.head _)
  have htext : (⟨"text", .string, ⟨1, 0⟩⟩ : PlacedMember) ∈
      (Ty.struct "Label" [("n", .uint 16), ("text", .string)]).placedParts := .tail _ (.head _)
  exact hfails.2 ⟨2, .string, 64, .within hlabel (.part htext), .inr rfl, rfl, rfl, by decide⟩

end StorageAtlas
