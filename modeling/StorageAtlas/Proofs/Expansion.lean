import StorageAtlas.Derivation
import StorageAtlas.Proofs.Reading

/-!
# Spelling structs out

`expandInPlace` replaces the structs that are only named by their definitions. It never fails on a
tree that reads some text, if every declared struct has a definition in the table, and one level is
enough, since the definitions are spelled out themselves (`expandInPlace_reads`). What is spelled
out is left alone (`expandInPlace_of_spelledOut`), so that `materialize` changes nothing the second
time (`materialize_of_settled`).

All spelled-out trees that read one text take the same room (`footprint_eq_of_reads`): what differs
between them lies behind containers.
-/

namespace StorageAtlas

/-- The table holds a spelled-out definition of every declared struct. -/
structure Declarations.Defines (d : Declarations) (structs : StructTable) : Prop where
  definition : ∀ {n fields}, d.structs.lookup n = some fields →
    ∃ ms, structs.lookup n = some ms ∧ MembersRead d ms fields ∧ MembersSpelledOut ms

/-! ## What is spelled out stays as it is -/

theorem Ty.spelledOut_of_isValueType : ∀ {t : Ty}, t.isValueType → t.SpelledOut
  | .elementary _, _ | .function _, _ | .bytes, _ | .string, _ | .dynamicArray _, _
  | .mapping _ _, _ => trivial
  | .userDefined _ _ u, h => spelledOut_of_isValueType (t := u) h
  | .fixedArray _ _, h | .struct _ _, h | .structRef _, h => nomatch h

mutual
theorem Ty.expandInPlace_of_spelledOut (structs : StructTable) :
    ∀ {t : Ty}, t.SpelledOut → t.expandInPlace structs = .ok t
  | .fixedArray t length, h => by
    simp only [Ty.expandInPlace, Ty.expandInPlace_of_spelledOut structs (t := t) h]
  | .struct n ms, h => by
    simp only [Ty.expandInPlace, expandMembers_of_spelledOut structs (l := ms) h]
  | .structRef _, h => h.elim
  | .elementary _, _ | .function _, _ | .bytes, _ | .string, _ | .dynamicArray _, _
  | .mapping _ _, _ | .userDefined _ _ _, _ => rfl

theorem expandMembers_of_spelledOut (structs : StructTable) :
    ∀ {l : List Member}, MembersSpelledOut l → expandMembers structs l = .ok l
  | [], _ => rfl
  | (_, t) :: ms, h => by
    simp only [expandMembers, Ty.expandInPlace_of_spelledOut structs (t := t) h.1,
      expandMembers_of_spelledOut structs (l := ms) h.2]
end

/-! ## Named structs are replaced by their definitions -/

section

variable {d : Declarations} {structs : StructTable}

mutual
theorem Ty.expandInPlace_reads (hs : d.Defines structs) : ∀ {t : Ty} {e : TypeExpr},
    t.Reads d e → ∃ u, t.expandInPlace structs = .ok u ∧ u.Reads d e ∧ u.SpelledOut
  | .structRef n, e, ⟨he, hn⟩ => by
    obtain ⟨fields, hf⟩ := Option.isSome_iff_exists.1 hn
    obtain ⟨ms, hms, hr, hsp⟩ := hs.definition hf
    exact ⟨.struct n ms, by simp only [Ty.expandInPlace, hms], ⟨he, fields, hf, hr⟩, hsp⟩
  | .fixedArray t length, e, ⟨f, he, ht⟩ => by
    obtain ⟨u, hu, hr, hsp⟩ := Ty.expandInPlace_reads hs (t := t) ht
    exact ⟨.fixedArray u length, by simp only [Ty.expandInPlace, hu], ⟨f, he, hr⟩, hsp⟩
  | .struct n ms, e, ⟨he, fields, hf, hms⟩ => by
    obtain ⟨us, hus, hr, hsp⟩ := expandMembers_read hs (l := ms) hms
    exact ⟨.struct n us, by simp only [Ty.expandInPlace, hus], ⟨he, fields, hf, hr⟩, hsp⟩
  | .userDefined n .enum u, e, h => ⟨_, rfl, h, by obtain ⟨-, rfl⟩ := h; trivial⟩
  | .userDefined n .contract u, e, h => ⟨_, rfl, h, by obtain ⟨-, rfl⟩ := h; trivial⟩
  | .userDefined n .valueType u, e, h => ⟨_, rfl, h, Ty.spelledOut_of_isValueType (t := u) h.2.1⟩
  | .elementary _, _, h | .function _, _, h | .bytes, _, h | .string, _, h
  | .dynamicArray _, _, h | .mapping _ _, _, h => ⟨_, rfl, h, trivial⟩

theorem expandMembers_read (hs : d.Defines structs) :
    ∀ {l : List Member} {fields : List (String × TypeExpr)}, MembersRead d l fields →
      ∃ us, expandMembers structs l = .ok us ∧ MembersRead d us fields ∧ MembersSpelledOut us
  | [], _, h => ⟨[], rfl, h, trivial⟩
  | (n, t) :: ms, _, ⟨e, rest, hf, ht, hms⟩ => by
    obtain ⟨u, hu, hr, hsp⟩ := Ty.expandInPlace_reads hs (t := t) ht
    obtain ⟨us, hus, hrs, hsps⟩ := expandMembers_read hs (l := ms) hms
    exact ⟨(n, u) :: us, by simp only [expandMembers, hu, hus], ⟨e, rest, hf, hr, hrs⟩, hsp, hsps⟩
end

/-! ## Making a type ready for its place -/

/-- The type is spelled out, and so are its elements if it is a dynamic array. -/
def Ty.Settled : Ty → Prop
  | .dynamicArray t => t.SpelledOut
  | t => t.SpelledOut

theorem Ty.Settled.spelledOut : ∀ {t : Ty}, t.Settled → t.SpelledOut
  | .dynamicArray _, _ => trivial
  | .elementary _, h | .function _, h | .bytes, h | .string, h | .mapping _ _, h
  | .fixedArray _ _, h | .struct _ _, h | .structRef _, h | .userDefined _ _ _, h => h

/-- Away from dynamic arrays a type is made ready by spelling it out. -/
theorem materialize_eq (structs : StructTable) {t : Ty}
    (ht : ∀ element, t ≠ .dynamicArray element) :
    materialize structs t =
      match t.expandInPlace structs with
      | .ok u => .ok u
      | .error cause => .error (.unresolvedType cause) := by
  cases t with
  | dynamicArray element => exact absurd rfl (ht element)
  | _ => rfl

/-- A type that is settled is not changed. -/
theorem materialize_of_settled (structs : StructTable) {t : Ty} (h : t.Settled) :
    materialize structs t = .ok t := by
  cases t with
  | dynamicArray element =>
    simp only [materialize, Ty.expandInPlace_of_spelledOut structs (t := element) h]
  | _ =>
    rw [materialize_eq structs (by simp), Ty.expandInPlace_of_spelledOut structs h.spelledOut]

/-- Of a type that is spelled out, at most the elements of a dynamic array are changed. -/
theorem eq_of_materialize {structs : StructTable} {t u : Ty} (h : t.SpelledOut)
    (hu : materialize structs t = .ok u) :
    u = t ∨ ∃ element element', t = .dynamicArray element ∧ u = .dynamicArray element' := by
  by_cases harray : ∃ element, t = .dynamicArray element
  · obtain ⟨element, rfl⟩ := harray
    rw [materialize] at hu
    split at hu
    · exact .inr ⟨_, _, rfl, (Except.ok.inj hu).symm⟩
    · exact nomatch hu
  · rw [materialize_eq structs fun element heq => harray ⟨element, heq⟩,
      Ty.expandInPlace_of_spelledOut structs h] at hu
    exact .inl (Except.ok.inj hu).symm

/-- **Every tree that reads a text can be settled**, and reads the text still. -/
theorem materialize_reads (hs : d.Defines structs) {t : Ty} {e : TypeExpr} (h : t.Reads d e) :
    ∃ u, materialize structs t = .ok u ∧ u.Reads d e ∧ u.Settled := by
  obtain ⟨u, hu, hr, hsp⟩ := Ty.expandInPlace_reads hs h
  cases t with
  | dynamicArray element =>
    obtain ⟨f, he, hf⟩ := h
    obtain ⟨u, hu, hr, hsp⟩ := Ty.expandInPlace_reads hs hf
    exact ⟨.dynamicArray u, by simp only [materialize, hu], ⟨f, he, hr⟩, hsp⟩
  | _ =>
    refine ⟨u, by rw [materialize_eq structs (by simp), hu], hr, ?_⟩
    cases u with
    | dynamicArray element =>
      obtain ⟨f, he, -⟩ := hr
      obtain ⟨_, hd, -⟩ := h.eq_dynamicArray he
      exact nomatch hd
    | _ => exact hsp

/-! ## Room -/

mutual
/-- **All spelled-out trees of one text take the same room.** -/
theorem footprint_eq_of_reads : ∀ {t u : Ty} {e : TypeExpr}, t.Reads d e → u.Reads d e →
    t.SpelledOut → u.SpelledOut → t.footprint = u.footprint
  | .elementary _, u, e, ht, hu, _, _ | .function _, u, e, ht, hu, _, _
  | .bytes, u, e, ht, hu, _, _ | .string, u, e, ht, hu, _, _ => by rw [hu.eq_builtin ht]
  | .dynamicArray t, u, e, ⟨f, he, _⟩, hu, _, _ => by
    obtain ⟨v, rfl, -⟩ := hu.eq_dynamicArray he
    rfl
  | .mapping k v, u, e, ⟨f, g, he, _⟩, hu, _, _ => by
    obtain ⟨k', v', rfl, -⟩ := hu.eq_mapping he
    rfl
  | .fixedArray t length, u, e, ⟨f, he, ht⟩, hu, hst, hsu => by
    obtain ⟨v, rfl, hv⟩ := hu.eq_fixedArray he
    simp only [Ty.footprint, footprint_eq_of_reads (t := t) ht hv hst hsu]
  | .struct n ms, u, e, ⟨he, fields, hf, hms⟩, hu, hst, hsu => by
    rcases hu.eq_struct he with rfl | ⟨ns, fields', rfl, hf', hns⟩
    · exact hsu.elim
    · obtain rfl := Option.some.inj (hf.symm.trans hf')
      simp only [Ty.footprint, (footprints_eq_of_read (l := ms) hms hns hst hsu).1]
  | .structRef _, _, _, _, _, hst, _ => hst.elim
  | .userDefined n .enum t, u, e, ⟨he, ht⟩, hu, _, _ => by rw [hu.eq_enumeration he, ht]
  | .userDefined n .contract t, u, e, ⟨he, ht⟩, hu, _, _ => by rw [hu.eq_contract he, ht]
  | .userDefined n .valueType t, u, e, ⟨he, _, f, hf, ht⟩, hu, hst, hsu => by
    obtain ⟨v, f', rfl, hf', hv⟩ := hu.eq_valueType he
    obtain rfl := Option.some.inj (hf.symm.trans hf')
    show t.footprint = v.footprint
    exact footprint_eq_of_reads (t := t) ht hv hst hsu

theorem footprints_eq_of_read : ∀ {l ns : List Member} {fields : List (String × TypeExpr)},
    MembersRead d l fields → MembersRead d ns fields → MembersSpelledOut l →
    MembersSpelledOut ns →
    footprints l = footprints ns ∧ l.map Prod.fst = ns.map Prod.fst
  | [], ns, _, rfl, hns, _, _ => by
    cases ns with
    | nil => exact ⟨rfl, rfl⟩
    | cons n ns => obtain ⟨e, rest, h, -⟩ := hns; exact nomatch h
  | (n, t) :: ms, ns, _, ⟨e, rest, rfl, ht, hms⟩, hns, hst, hsu => by
    cases ns with
    | nil => exact nomatch hns
    | cons n' ns =>
      obtain ⟨n', u⟩ := n'
      obtain ⟨e', rest', h, hu, hns⟩ := hns
      obtain ⟨⟨rfl, rfl⟩, rfl⟩ := (by simpa using h : (n = n' ∧ e = e') ∧ rest = rest')
      obtain ⟨hfp, hnames⟩ := footprints_eq_of_read (l := ms) hms hns hst.2 hsu.2
      exact ⟨by simp only [footprints, footprint_eq_of_reads (t := t) ht hu hst.1 hsu.1, hfp],
        by simp only [List.map_cons, hnames]⟩
end

end

end StorageAtlas
