import StorageAtlas.Model.Declarations

/-!
# What the text of a type can stand for

One text is read into different trees, depending on the structs it stands among: a struct met again
behind a mapping or dynamic array is only named. `Ty.Reads d t e` holds of all these trees `t` at
once; it deliberately does not say which of them a given place gets. `Ty.SpelledOut` says that no
struct is only named where it lies in place.

What `lookUp` gives reads the name it was given (`lookUp_reads`), and outside of all mappings and
dynamic arrays it is spelled out (`lookUp_spelledOut`).
-/

namespace StorageAtlas

/-! ## Definitions -/

/-- What a name alone leads to; all other texts lead to themselves. -/
def Declarations.meaning (d : Declarations) : TypeExpr → TypeExpr
  | .name n =>
    if (d.structs.lookup n).isSome then .structName n
    else if n ∈ d.enums then .enumName n
    else if (d.valueTypes.lookup n).isSome then .name n
    else .contractName n
  | e => e

mutual
/-- `t` is a tree that `e` can stand for. -/
def Ty.Reads (d : Declarations) : Ty → TypeExpr → Prop
  | .elementary a, e => d.meaning e = .builtin (.elementary a)
  | .bytes, e => d.meaning e = .builtin .bytes
  | .string, e => d.meaning e = .builtin .string
  | .function external, e => d.meaning e = .builtin (.function external)
  | .fixedArray t length, e => ∃ f, d.meaning e = .fixedArray f length ∧ t.Reads d f
  | .dynamicArray t, e => ∃ f, d.meaning e = .dynamicArray f ∧ t.Reads d f
  | .mapping k v, e => ∃ f g, d.meaning e = .mapping f g ∧ k.Reads d f ∧ v.Reads d g
  | .struct n ms, e =>
    d.meaning e = .structName n ∧
      ∃ fields, d.structs.lookup n = some fields ∧ MembersRead d ms fields
  | .structRef n, e => d.meaning e = .structName n ∧ (d.structs.lookup n).isSome
  | .userDefined n .enum u, e => d.meaning e = .enumName n ∧ u = .uint 8
  | .userDefined n .contract u, e => d.meaning e = .contractName n ∧ u = .address
  | .userDefined n .valueType u, e =>
    d.meaning e = .name n ∧ u.isValueType ∧ ∃ f, d.valueTypes.lookup n = some f ∧ u.Reads d f

/-- The members have the names of the fields, and trees that their texts can stand for. -/
def MembersRead (d : Declarations) : List Member → List (String × TypeExpr) → Prop
  | [], fields => fields = []
  | (n, t) :: ms, fields => ∃ e rest, fields = (n, e) :: rest ∧ t.Reads d e ∧ MembersRead d ms rest
end

mutual
/-- No struct that lies in place in the type is only named. -/
def Ty.SpelledOut : Ty → Prop
  | .structRef _ => False
  | .fixedArray t _ => t.SpelledOut
  | .struct _ ms => MembersSpelledOut ms
  | .userDefined _ _ u => u.SpelledOut
  | _ => True

def MembersSpelledOut : List Member → Prop
  | [] => True
  | (_, t) :: ms => t.SpelledOut ∧ MembersSpelledOut ms
end

/-- The type is a built-in word. -/
def Ty.IsWord : Ty → Prop
  | .elementary _ | .bytes | .string | .function _ => True
  | _ => False

/-- The built-in types of a text are words. -/
def TypeExpr.WordsOnly : TypeExpr → Prop
  | .builtin t => t.IsWord
  | .fixedArray e _ | .dynamicArray e => e.WordsOnly
  | .mapping k v => k.WordsOnly ∧ v.WordsOnly
  | _ => True

/-- The built-in types of all declared texts are words. -/
structure Declarations.WordsOnly (d : Declarations) : Prop where
  fields : ∀ {n fields}, d.structs.lookup n = some fields → ∀ f ∈ fields, f.2.WordsOnly
  valueTypes : ∀ {n e}, d.valueTypes.lookup n = some e → e.WordsOnly

/-! ## The form of a tree, by what its text leads to -/

namespace Ty.Reads

attribute [local simp] Ty.Reads

variable {d : Declarations} {t : Ty} {e : TypeExpr} (h : t.Reads d e)

include h

theorem eq_builtin {b : Ty} (he : d.meaning e = .builtin b) : t = b := by
  cases t with
  | userDefined n kind u => cases kind <;> simp [he] at h
  | _ => simp_all

theorem eq_fixedArray {f : TypeExpr} {length : UInt64} (he : d.meaning e = .fixedArray f length) :
    ∃ u, t = .fixedArray u length ∧ u.Reads d f := by
  cases t with
  | userDefined n kind u => cases kind <;> simp [he] at h
  | fixedArray u _ =>
    obtain ⟨g, hg, hu⟩ := h
    obtain ⟨rfl, rfl⟩ := TypeExpr.fixedArray.inj (he.symm.trans hg)
    exact ⟨u, rfl, hu⟩
  | _ => simp [he] at h

theorem eq_dynamicArray {f : TypeExpr} (he : d.meaning e = .dynamicArray f) :
    ∃ u, t = .dynamicArray u ∧ u.Reads d f := by
  cases t with
  | userDefined n kind u => cases kind <;> simp [he] at h
  | dynamicArray u =>
    obtain ⟨g, hg, hu⟩ := h
    obtain rfl := TypeExpr.dynamicArray.inj (he.symm.trans hg)
    exact ⟨u, rfl, hu⟩
  | _ => simp [he] at h

theorem eq_mapping {f g : TypeExpr} (he : d.meaning e = .mapping f g) :
    ∃ k v, t = .mapping k v ∧ k.Reads d f ∧ v.Reads d g := by
  cases t with
  | userDefined n kind u => cases kind <;> simp [he] at h
  | mapping k v =>
    obtain ⟨f', g', hg, hk, hv⟩ := h
    obtain ⟨rfl, rfl⟩ := TypeExpr.mapping.inj (he.symm.trans hg)
    exact ⟨k, v, rfl, hk, hv⟩
  | _ => simp [he] at h

/-- A struct is spelled out or only named. -/
theorem eq_struct {n : String} (he : d.meaning e = .structName n) :
    t = .structRef n ∨ ∃ ms fields, t = .struct n ms ∧ d.structs.lookup n = some fields ∧
      MembersRead d ms fields := by
  cases t with
  | userDefined n kind u => cases kind <;> simp [he] at h
  | _ => simp_all

theorem eq_enumeration {n : String} (he : d.meaning e = .enumName n) : t = .enumeration n := by
  cases t with
  | userDefined n kind u => cases kind <;> simp_all
  | _ => simp [he] at h

theorem eq_contract {n : String} (he : d.meaning e = .contractName n) : t = .contract n := by
  cases t with
  | userDefined n kind u => cases kind <;> simp_all
  | _ => simp [he] at h

theorem eq_valueType {n : String} (he : d.meaning e = .name n) :
    ∃ u f, t = .userDefined n .valueType u ∧ d.valueTypes.lookup n = some f ∧ u.Reads d f := by
  cases t with
  | userDefined n kind u => cases kind <;> simp_all
  | _ => simp [he] at h

end Ty.Reads

/-! ## Texts have built-in words only -/

theorem TypeExpr.builtin?_isWord {cs : List Char} {t : Ty} (h : builtin? cs = some t) :
    t.IsWord := by
  simp only [builtin?] at h
  repeat' split at h
  all_goals cases h <;> trivial

theorem TypeExpr.ofWord_wordsOnly (cs : List Char) : (ofWord cs).WordsOnly := by
  simp only [ofWord]
  split
  · trivial
  · split
    · next h => exact builtin?_isWord h
    · split <;> trivial

theorem TypeExpr.ofText_wordsOnly (cs : List Char) : (ofText cs).WordsOnly := by
  fun_induction ofText cs with
  | case3 => exact ofWord_wordsOnly _
  | case5 _ _ _ _ _ ih | case6 _ _ _ _ _ _ ih => exact ih
  | case9 _ _ _ _ _ _ _ _ ihKey ihValue => exact ⟨ihKey, ihValue⟩
  | _ => trivial

/-! ## Looking up names -/

/-- The text that a use of a name stands for. -/
def NameUse.expr : NameUse → TypeExpr
  | .struct n => .structName n
  | .bare n => .name n

section Resolving

variable {d : Declarations} {look : Surroundings → NameUse → Except TypeFault Ty}

theorem resolveWith_reads
    (hlook : ∀ around use t, look around use = .ok t → t.Reads d use.expr) :
    ∀ {e : TypeExpr} {around : Surroundings} {t : Ty}, e.WordsOnly →
      e.resolveWith look around = .ok t → t.Reads d e := by
  intro e
  induction e with
  | bad fault => intro around t _ h; exact nomatch h
  | builtin b =>
    intro around t hw h
    obtain rfl := Except.ok.inj h
    cases b <;> first | exact hw.elim | rfl
  | fixedArray e length ih =>
    intro around t hw h
    unfold TypeExpr.resolveWith at h
    split at h
    · next u hu =>
      obtain rfl := Except.ok.inj h
      exact ⟨e, rfl, ih hw hu⟩
    · exact nomatch h
  | dynamicArray e ih =>
    intro around t hw h
    unfold TypeExpr.resolveWith at h
    split at h
    · next u hu =>
      obtain rfl := Except.ok.inj h
      exact ⟨e, rfl, ih hw hu⟩
    · exact nomatch h
  | mapping key value ihKey ihValue =>
    intro around t hw h
    unfold TypeExpr.resolveWith at h
    split at h
    · exact nomatch h
    · next k hk =>
      split at h
      · exact nomatch h
      · next v hv =>
        obtain rfl := Except.ok.inj h
        exact ⟨key, value, rfl, ihKey hw.1 hk, ihValue hw.2 hv⟩
  | structName n => intro around t _ h; exact hlook _ _ _ h
  | enumName n => intro around t _ h; obtain rfl := Except.ok.inj h; exact ⟨rfl, rfl⟩
  | contractName n => intro around t _ h; obtain rfl := Except.ok.inj h; exact ⟨rfl, rfl⟩
  | name n => intro around t _ h; exact hlook _ _ _ h

theorem resolveMembers_read
    (hlook : ∀ around use t, look around use = .ok t → t.Reads d use.expr)
    {around : Surroundings} {fields : List (String × TypeExpr)} {ms : List Member}
    (hw : ∀ f ∈ fields, f.2.WordsOnly) (h : resolveMembers look around fields = .ok ms) :
    MembersRead d ms fields := by
  induction fields generalizing ms with
  | nil => obtain rfl := Except.ok.inj h; rfl
  | cons f fields ih =>
    obtain ⟨n, e⟩ := f
    unfold resolveMembers at h
    split at h
    · exact nomatch h
    · next t ht =>
      split at h
      · exact nomatch h
      · next ts hts =>
        obtain rfl := Except.ok.inj h
        exact ⟨e, fields, rfl, resolveWith_reads hlook (hw _ List.mem_cons_self) ht,
          ih (fun f hf => hw f (List.mem_cons_of_mem _ hf)) hts⟩

theorem openStruct_reads (hd : d.WordsOnly)
    (hlook : ∀ around use t, look around use = .ok t → t.Reads d use.expr)
    {around : Surroundings} {n : String} {e : TypeExpr} {t : Ty} (he : d.meaning e = .structName n)
    (h : d.openStruct look around n = .ok t) : t.Reads d e := by
  unfold Declarations.openStruct at h
  split at h
  · exact nomatch h
  · next fields hf =>
    split at h
    · obtain rfl := Except.ok.inj h
      exact ⟨he, by rw [hf]; rfl⟩
    · split at h
      · exact nomatch h
      · split at h
        · exact nomatch h
        · exact nomatch h
        · next ms _ hms =>
          obtain rfl := Except.ok.inj h
          exact ⟨he, fields, hf, resolveMembers_read hlook (hd.fields hf) hms⟩

/-- Outside of all containers no struct has been left by passing through one, so none can be met
again that may be only named. -/
theorem resolveWith_spelledOut
    (hlook : ∀ around use t, around.outside = [] → look around use = .ok t → t.SpelledOut) :
    ∀ {e : TypeExpr} {around : Surroundings} {t : Ty}, e.WordsOnly → around.outside = [] →
      e.resolveWith look around = .ok t → t.SpelledOut := by
  intro e
  induction e with
  | bad fault => intro around t _ _ h; exact nomatch h
  | builtin b =>
    intro around t hw _ h
    obtain rfl := Except.ok.inj h
    cases b <;> first | exact hw.elim | trivial
  | fixedArray e length ih =>
    intro around t hw ho h
    unfold TypeExpr.resolveWith at h
    split at h
    · next u hu =>
      obtain rfl := Except.ok.inj h
      show u.SpelledOut
      exact ih hw ho hu
    · exact nomatch h
  | dynamicArray e _ =>
    intro around t _ _ h
    unfold TypeExpr.resolveWith at h
    split at h
    · obtain rfl := Except.ok.inj h
      trivial
    · exact nomatch h
  | mapping key value _ _ =>
    intro around t _ _ h
    unfold TypeExpr.resolveWith at h
    split at h
    · exact nomatch h
    · split at h
      · exact nomatch h
      · obtain rfl := Except.ok.inj h
        trivial
  | structName n => intro around t _ ho h; exact hlook _ _ _ ho h
  | enumName n => intro around t _ _ h; obtain rfl := Except.ok.inj h; trivial
  | contractName n => intro around t _ _ h; obtain rfl := Except.ok.inj h; trivial
  | name n => intro around t _ ho h; exact hlook _ _ _ ho h

theorem resolveMembers_spelledOut
    (hlook : ∀ around use t, around.outside = [] → look around use = .ok t → t.SpelledOut)
    {around : Surroundings} (ho : around.outside = []) {fields : List (String × TypeExpr)}
    {ms : List Member} (hw : ∀ f ∈ fields, f.2.WordsOnly)
    (h : resolveMembers look around fields = .ok ms) : MembersSpelledOut ms := by
  induction fields generalizing ms with
  | nil => obtain rfl := Except.ok.inj h; trivial
  | cons f fields ih =>
    unfold resolveMembers at h
    split at h
    · exact nomatch h
    · next t ht =>
      split at h
      · exact nomatch h
      · next ts hts =>
        obtain rfl := Except.ok.inj h
        exact ⟨resolveWith_spelledOut hlook (hw _ List.mem_cons_self) ho ht,
          ih (fun f hf => hw f (List.mem_cons_of_mem _ hf)) hts⟩

theorem openStruct_spelledOut (hd : d.WordsOnly)
    (hlook : ∀ around use t, around.outside = [] → look around use = .ok t → t.SpelledOut)
    {around : Surroundings} (ho : around.outside = []) {n : String} {t : Ty}
    (h : d.openStruct look around n = .ok t) : t.SpelledOut := by
  unfold Declarations.openStruct at h
  split at h
  · exact nomatch h
  · next fields hf =>
    rw [ho, if_neg List.not_mem_nil] at h
    split at h
    · exact nomatch h
    · split at h
      · exact nomatch h
      · exact nomatch h
      · next ms _ hms =>
        obtain rfl := Except.ok.inj h
        show MembersSpelledOut ms
        have hon : (around.within n).outside = [] := ho
        exact resolveMembers_spelledOut hlook hon (hd.fields hf) hms

end Resolving

section LookUp

variable {d : Declarations} (hd : d.WordsOnly)

/-- One step of looking up a name that is no struct. -/
theorem lookUp_bare_of_not_struct {depth : Nat} {around : Surroundings} {n : String} {t : Ty}
    (hn : d.structs.lookup n = none) (h : d.lookUp (depth + 1) around (.bare n) = .ok t) :
    (n ∈ d.enums ∧ t = .enumeration n) ∨
    (n ∉ d.enums ∧ ∃ e u, d.valueTypes.lookup n = some e ∧
      e.resolveWith (d.lookUp depth) around = .ok u ∧ u.isValueType ∧
      t = .userDefined n .valueType u) ∨
    (n ∉ d.enums ∧ d.valueTypes.lookup n = none ∧ n ∈ d.contracts ∧ t = .contract n) := by
  simp only [Declarations.lookUp, hn, Option.isSome_none, Bool.false_eq_true, ↓reduceIte] at h
  split at h
  · next he => exact .inl ⟨he, (Except.ok.inj h).symm⟩
  · next he =>
    split at h
    · next e hv =>
      split at h
      · exact nomatch h
      · next u hu =>
        split at h
        · next hvt => exact .inr (.inl ⟨he, e, u, hv, hu, hvt, (Except.ok.inj h).symm⟩)
        · exact nomatch h
    · next hv =>
      split at h
      · next hc => exact .inr (.inr ⟨he, hv, hc, (Except.ok.inj h).symm⟩)
      · exact nomatch h

include hd in
/-- **Looking up a name reads it**, at every depth and among any structs. -/
theorem lookUp_reads {depth : Nat} : ∀ (around : Surroundings) (use : NameUse) (t : Ty),
    d.lookUp depth around use = .ok t → t.Reads d use.expr := by
  induction depth with
  | zero => intro around use t h; exact nomatch h
  | succ depth ih =>
    intro around use t h
    cases use with
    | struct n => exact openStruct_reads hd ih rfl h
    | bare n =>
      cases hn : d.structs.lookup n with
      | some fields =>
        have hm : d.meaning (.name n) = .structName n := by simp [Declarations.meaning, hn]
        simp only [Declarations.lookUp, hn, Option.isSome_some, ↓reduceIte] at h
        exact openStruct_reads hd ih hm h
      | none =>
        rcases lookUp_bare_of_not_struct hn h with
          ⟨he, rfl⟩ | ⟨he, e, u, hv, hu, hvt, rfl⟩ | ⟨he, hv, -, rfl⟩
        · exact ⟨by simp [Declarations.meaning, NameUse.expr, hn, he], rfl⟩
        · exact ⟨by simp [Declarations.meaning, NameUse.expr, hn, he, hv], hvt, e, hv,
            resolveWith_reads ih (hd.valueTypes hv) hu⟩
        · exact ⟨by simp [Declarations.meaning, NameUse.expr, hn, he, hv], rfl⟩

include hd in
/-- **Outside of all containers a name is spelled out.** -/
theorem lookUp_spelledOut {depth : Nat} : ∀ (around : Surroundings) (use : NameUse) (t : Ty),
    around.outside = [] → d.lookUp depth around use = .ok t → t.SpelledOut := by
  induction depth with
  | zero => intro around use t _ h; exact nomatch h
  | succ depth ih =>
    intro around use t ho h
    cases use with
    | struct n => exact openStruct_spelledOut hd ih ho h
    | bare n =>
      cases hn : d.structs.lookup n with
      | some fields =>
        simp only [Declarations.lookUp, hn, Option.isSome_some, ↓reduceIte] at h
        exact openStruct_spelledOut hd ih ho h
      | none =>
        rcases lookUp_bare_of_not_struct hn h with
          ⟨-, rfl⟩ | ⟨-, e, u, hv, hu, -, rfl⟩ | ⟨-, -, -, rfl⟩
        · trivial
        · show u.SpelledOut
          exact resolveWith_spelledOut ih (hd.valueTypes hv) ho hu
        · trivial

end LookUp

end StorageAtlas
