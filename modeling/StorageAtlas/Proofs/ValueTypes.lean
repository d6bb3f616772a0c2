import Mathlib.Data.List.Perm.Subperm
import StorageAtlas.Proofs.Loading

/-!
# Names of value types

A value type may be declared as another one, and so on down to a built-in type (`Ty.wrappers`). No
name stands twice on such a way, so that it is no longer than there are value types, and looking up
names never ends early on it: what the text of a value type stands for does not depend on how deep
it is looked at (`resolveWith_nesting`).
-/

namespace StorageAtlas

/-- The value types that are passed on the way to what is stored. -/
def Ty.wrappers : Ty → List String
  | .userDefined n .valueType u => n :: u.wrappers
  | _ => []

section

variable {d : Declarations}

/-- What a name leads to is a struct if it is the name of one. -/
theorem not_isValueType_of_openStruct {look : Surroundings → NameUse → Except TypeFault Ty}
    {around : Surroundings} {n : String} {t : Ty} (h : d.openStruct look around n = .ok t) :
    ¬t.isValueType := by
  unfold Declarations.openStruct at h
  split at h
  · exact nomatch h
  · split at h
    · obtain rfl := Except.ok.inj h
      exact Bool.false_ne_true
    · split at h
      · exact nomatch h
      · split at h
        · exact nomatch h
        · exact nomatch h
        · obtain rfl := Except.ok.inj h
          exact Bool.false_ne_true

/-- A bare name that stands for a value type is no struct. -/
theorem lookup_structs_of_isValueType {depth : Nat} {around : Surroundings} {n : String} {u : Ty}
    (h : d.lookUp (depth + 1) around (.bare n) = .ok u) (hu : u.isValueType) :
    d.structs.lookup n = none := by
  cases hn : d.structs.lookup n with
  | none => rfl
  | some fields =>
    simp only [Declarations.lookUp, hn, Option.isSome_some, ↓reduceIte] at h
    exact absurd hu (not_isValueType_of_openStruct h)

/-- One step of looking up the name of a value type. -/
theorem lookUp_valueType_succ {depth : Nat} {around : Surroundings} {n : String} {f : TypeExpr}
    {v : Ty} (hn : d.structs.lookup n = none) (he : n ∉ d.enums)
    (hf : d.valueTypes.lookup n = some f) (hv : f.resolveWith (d.lookUp depth) around = .ok v)
    (hvt : v.isValueType) :
    d.lookUp (depth + 1) around (.bare n) = .ok (.userDefined n .valueType v) := by
  simp only [Declarations.lookUp, hn, Option.isSome_none, Bool.false_eq_true, ↓reduceIte, he, hf,
    hv, hvt]

section

variable (hd : d.WordsOnly)

include hd

/-- A text that stands for a value type stands for it at every depth, or is the name of one that
wraps another. -/
theorem resolveWith_valueType_cases {around : Surroundings} {depth : Nat} {e : TypeExpr} {u : Ty}
    (hw : e.WordsOnly) (h : e.resolveWith (d.lookUp depth) around = .ok u) (hu : u.isValueType) :
    (u.wrappers = [] ∧ ∀ depth', e.resolveWith (d.lookUp (depth' + 1)) around = .ok u) ∨
    ∃ n f v depth₀, depth = depth₀ + 1 ∧ u = .userDefined n .valueType v ∧ e = .name n ∧
      d.structs.lookup n = none ∧ n ∉ d.enums ∧ d.valueTypes.lookup n = some f ∧
      f.resolveWith (d.lookUp depth₀) around = .ok v ∧ v.isValueType := by
  cases e with
  | bad fault => exact nomatch h
  | builtin t =>
    obtain rfl := Except.ok.inj h
    refine .inl ⟨?_, fun _ => rfl⟩
    cases t with
    | userDefined n kind u => exact hw.elim
    | _ => rfl
  | enumName n => obtain rfl := Except.ok.inj h; exact .inl ⟨rfl, fun _ => rfl⟩
  | contractName n => obtain rfl := Except.ok.inj h; exact .inl ⟨rfl, fun _ => rfl⟩
  | structName n =>
    cases depth with
    | zero => exact nomatch h
    | succ depth => exact absurd hu (not_isValueType_of_openStruct h)
  | dynamicArray e =>
    obtain ⟨t, rfl, -⟩ := (resolveWith_reads (lookUp_reads hd) hw h).eq_dynamicArray rfl
    exact absurd hu Bool.false_ne_true
  | fixedArray e length =>
    obtain ⟨t, rfl, -⟩ := (resolveWith_reads (lookUp_reads hd) hw h).eq_fixedArray rfl
    exact absurd hu Bool.false_ne_true
  | mapping k v =>
    obtain ⟨s, t, rfl, -⟩ := (resolveWith_reads (lookUp_reads hd) hw h).eq_mapping rfl
    exact absurd hu Bool.false_ne_true
  | name n =>
    cases depth with
    | zero => exact nomatch h
    | succ depth =>
      have hn := lookup_structs_of_isValueType h hu
      rcases lookUp_bare_of_not_struct hn h with
        ⟨he, rfl⟩ | ⟨he, f, v, hf, hv, hvt, rfl⟩ | ⟨he, hf, hc, rfl⟩
      · refine .inl ⟨rfl, fun depth' => ?_⟩
        simp only [TypeExpr.resolveWith, Declarations.lookUp, hn, Option.isSome_none,
          Bool.false_eq_true, ↓reduceIte, he]
      · exact .inr ⟨n, f, v, depth, rfl, rfl, rfl, hn, he, hf, hv, hvt⟩
      · refine .inl ⟨rfl, fun depth' => ?_⟩
        simp only [TypeExpr.resolveWith, Declarations.lookUp, hn, Option.isSome_none,
          Bool.false_eq_true, ↓reduceIte, he, hf, hc]

/-- The depth does not matter, as long as there is room for the wrappers. -/
theorem resolveWith_deepen {around : Surroundings} {depth : Nat} : ∀ {e : TypeExpr} {u : Ty},
    e.WordsOnly → e.resolveWith (d.lookUp depth) around = .ok u → u.isValueType →
      ∀ {depth' : Nat}, u.wrappers.length < depth' →
        e.resolveWith (d.lookUp depth') around = .ok u := by
  induction depth with
  | zero =>
    intro e u hw h hu depth' hroom
    obtain ⟨depth', rfl⟩ := Nat.exists_eq_succ_of_ne_zero (Nat.ne_zero_of_lt hroom)
    rcases resolveWith_valueType_cases hd hw h hu with ⟨-, hall⟩ | ⟨n, f, v, depth₀, h0, -⟩
    · exact hall depth'
    · exact nomatch h0
  | succ depth ih =>
    intro e u hw h hu depth' hroom
    obtain ⟨depth', rfl⟩ := Nat.exists_eq_succ_of_ne_zero (Nat.ne_zero_of_lt hroom)
    rcases resolveWith_valueType_cases hd hw h hu with
      ⟨-, hall⟩ | ⟨n, f, v, depth₀, h0, rfl, rfl, hn, he, hf, hv, hvt⟩
    · exact hall depth'
    · obtain rfl := Nat.succ.inj h0
      have hdeep := ih (hd.valueTypes hf) hv hvt (Nat.lt_of_succ_lt_succ hroom)
      exact lookUp_valueType_succ hn he hf hdeep hvt

/-- A name passed on the way is declared, and stands for what lies behind it. -/
theorem lookUp_of_mem_wrappers {around : Surroundings} {depth : Nat} : ∀ {e : TypeExpr} {u : Ty},
    e.WordsOnly → e.resolveWith (d.lookUp depth) around = .ok u → u.isValueType →
      ∀ n ∈ u.wrappers, ∃ f v depth', d.valueTypes.lookup n = some f ∧
        v.wrappers.length < u.wrappers.length ∧ v.isValueType ∧
        d.lookUp depth' around (.bare n) = .ok (.userDefined n .valueType v) := by
  induction depth with
  | zero =>
    intro e u hw h hu n hmem
    rcases resolveWith_valueType_cases hd hw h hu with ⟨hnil, -⟩ | ⟨_, f, v, depth₀, h0, -⟩
    · rw [hnil] at hmem
      exact nomatch hmem
    · exact nomatch h0
  | succ depth ih =>
    intro e u hw h hu n hmem
    rcases resolveWith_valueType_cases hd hw h hu with
      ⟨hnil, -⟩ | ⟨n', f, v, depth₀, h0, rfl, rfl, hn, he, hf, hv, hvt⟩
    · rw [hnil] at hmem
      exact nomatch hmem
    · obtain rfl := Nat.succ.inj h0
      rcases List.mem_cons.1 hmem with rfl | hmem
      · exact ⟨f, v, depth + 1, hf, Nat.lt_succ_self _, hvt, h⟩
      · obtain ⟨g, w, depth', hg, hlt, hwt, hw'⟩ := ih (hd.valueTypes hf) hv hvt n hmem
        exact ⟨g, w, depth', hg, Nat.lt_succ_of_lt hlt, hwt, hw'⟩

/-- **No name is passed twice.** -/
theorem wrappers_nodup {around : Surroundings} {depth : Nat} : ∀ {e : TypeExpr} {u : Ty},
    e.WordsOnly → e.resolveWith (d.lookUp depth) around = .ok u → u.isValueType →
      u.wrappers.Nodup := by
  induction depth with
  | zero =>
    intro e u hw h hu
    rcases resolveWith_valueType_cases hd hw h hu with ⟨hnil, -⟩ | ⟨_, f, v, depth₀, h0, -⟩
    · rw [hnil]
      exact List.nodup_nil
    · exact nomatch h0
  | succ depth ih =>
    intro e u hw h hu
    rcases resolveWith_valueType_cases hd hw h hu with
      ⟨hnil, -⟩ | ⟨n, f, v, depth₀, h0, rfl, rfl, hn, he, hf, hv, hvt⟩
    · rw [hnil]
      exact List.nodup_nil
    · obtain rfl := Nat.succ.inj h0
      refine List.nodup_cons.2 ⟨fun hmem => ?_, ih (hd.valueTypes hf) hv hvt⟩
      -- the name would stand for two trees, of which one lies in the other
      obtain ⟨g, w, depth', -, hlt, hwt, hinner⟩ :=
        lookUp_of_mem_wrappers hd (hd.valueTypes hf) hv hvt n hmem
      have htwo : (TypeExpr.name n).resolveWith (d.lookUp (v.wrappers.length + 2)) around =
          .ok (.userDefined n .valueType v) :=
        resolveWith_deepen hd (e := .name n) trivial h hu (Nat.lt_succ_self _)
      have htwo' : (TypeExpr.name n).resolveWith (d.lookUp (v.wrappers.length + 2)) around =
          .ok (.userDefined n .valueType w) :=
        resolveWith_deepen hd (e := .name n) trivial hinner hwt
          (Nat.lt_succ_of_lt (Nat.succ_lt_succ hlt))
      have hvw : v = w := (Ty.userDefined.inj (Except.ok.inj (htwo.symm.trans htwo'))).2.2
      exact absurd (hvw ▸ hlt) (Nat.lt_irrefl _)

/-- There is room for the wrappers. -/
theorem wrappers_length_lt {around : Surroundings} {depth : Nat} {e : TypeExpr} {u : Ty}
    (hw : e.WordsOnly) (h : e.resolveWith (d.lookUp depth) around = .ok u) (hu : u.isValueType) :
    u.wrappers.length < d.nesting := by
  have hsub : u.wrappers ⊆ d.valueTypes.map Prod.fst := by
    intro n hn
    obtain ⟨f, -, -, hf, -⟩ := lookUp_of_mem_wrappers hd hw h hu n hn
    exact SortedMap.mem_keys_of_lookup hf
  have hle := (List.subperm_of_subset (wrappers_nodup hd hw h hu) hsub).length_le
  rw [List.length_map] at hle
  have hnest : d.valueTypes.length + 1 ≤ d.nesting :=
    Nat.le_mul_of_pos_left _ (Nat.succ_pos _)
  omega

/-- **What a text stands for, if it is a value type, does not depend on the depth.** -/
theorem resolveWith_nesting {around : Surroundings} {depth : Nat} {e : TypeExpr} {u : Ty}
    (hw : e.WordsOnly) (h : e.resolveWith (d.lookUp depth) around = .ok u) (hu : u.isValueType) :
    e.resolveWith (d.lookUp d.nesting) around = .ok u :=
  resolveWith_deepen hd hw h hu (wrappers_length_lt hd hw h hu)

/-- **A declared value type is found under its name**, given that its own text is read. -/
theorem lookUp_valueType {n : String} {f : TypeExpr} {u : Ty} (hn : d.structs.lookup n = none)
    (he : n ∉ d.enums) (hf : d.valueTypes.lookup n = some f)
    (hu : f.resolveWith (d.lookUp d.nesting) {} = .ok u) (hvt : u.isValueType) :
    d.lookUp d.nesting {} (.bare n) = .ok (.userDefined n .valueType u) := by
  have hup : (TypeExpr.name n).resolveWith (d.lookUp (d.nesting + 1)) {} =
      .ok (.userDefined n .valueType u) := lookUp_valueType_succ hn he hf hu hvt
  exact resolveWith_nesting hd (e := .name n) trivial hup hvt

end

end

end StorageAtlas
