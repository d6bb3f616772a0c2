import Mathlib.Data.List.Chain
import Mathlib.Data.List.MinMax
import StorageAtlas.Proofs.Containment

/-!
# How deep reading goes

Reading the text of a type turns to its parts and to the names in it, and so on (`Call`,
`Declarations.Calls`). How deep that goes is not bounded by the length of the text: the name of a
struct leads to the texts of its members, and the name of a value type to the text it is declared
with. A struct that is open is not opened again, but nothing stops a value type from leading back to
its own name, through arrays and mappings or at once.

Depth is what `Declarations.lookUp` counts, and it stands for calls: what is read at some depth is
read the same at every greater one (`outcome_le`), with a bounded number of calls open inside one
another (`Declarations.within_outcome`). Where a name comes back to itself there is no such bound
(`Declarations.Within.not_leadsBack`).
-/

namespace StorageAtlas

open Relation

/-! ## Calls -/

/-- What is read: the text of a type, or the definition of a struct. -/
inductive Call
  | type (around : Surroundings) (e : TypeExpr)
  | struct (around : Surroundings) (name : String)

/-- The depth was not enough. -/
def Endless {α : Type} (result : Except TypeFault α) : Prop := ∃ n, result = .error (.endless n)

theorem not_endless_ok {α : Type} {a : α} : ¬Endless (.ok a) := by
  rintro ⟨n, hn⟩
  cases hn

/-- A result that others fail with was not endless if they are not. -/
theorem not_endless_of {α β : Type} {r : Except TypeFault α} {r' : Except TypeFault β}
    (h : ¬Endless r') (hfails : ∀ fault, r = .error fault → r' = .error fault) : ¬Endless r := by
  rintro ⟨n, hn⟩
  exact h ⟨n, hfails _ hn⟩

/-- What a call gives, with at most so many names inside one another. -/
def Call.outcome (d : Declarations) (depth : Nat) : Call → Except TypeFault Ty
  | .type s e => e.resolveWith (d.lookUp depth) s
  | .struct s n => d.lookUp depth s (.struct n)

namespace Declarations

/-- The call gives a type, however deep it has to look for it. -/
def Gives (d : Declarations) (c : Call) : Prop := ∃ depth t, c.outcome d depth = .ok t

/-- The texts that the reading of a text turns to: its parts, and from the name of a value type the
text that it is declared with. The value of a mapping is turned to when the key has been read. -/
inductive Unfolds (d : Declarations) : Surroundings × TypeExpr → Surroundings × TypeExpr → Prop
  | dynamicArray {s : Surroundings} {e : TypeExpr} :
      Unfolds d (s, .dynamicArray e) (s.behindContainer, e)
  | fixedArray {s : Surroundings} {e : TypeExpr} {length : UInt64} :
      Unfolds d (s, .fixedArray e length) (s, e)
  | key {s : Surroundings} {k v : TypeExpr} : Unfolds d (s, .mapping k v) (s.behindContainer, k)
  | value {s : Surroundings} {k v : TypeExpr} (read : d.Gives (.type s.behindContainer k)) :
      Unfolds d (s, .mapping k v) (s.behindContainer, v)
  | valueType {s : Surroundings} {n : String} {e : TypeExpr} (noStruct : d.structs.lookup n = none)
      (noEnum : n ∉ d.enums) (declared : d.valueTypes.lookup n = some e) :
      Unfolds d (s, .name n) (s, e)

/-- The calls that a call makes, in the order in which it makes them: each is made when the ones
before it have given a type. A struct that is open already is not read again. -/
inductive Calls (d : Declarations) : Call → Call → Prop
  | unfold {s s' : Surroundings} {e e' : TypeExpr} (next : d.Unfolds (s, e) (s', e')) :
      Calls d (.type s e) (.type s' e')
  | structName {s : Surroundings} {n : String} : Calls d (.type s (.structName n)) (.struct s n)
  | bareStruct {s : Surroundings} {n : String} (declared : (d.structs.lookup n).isSome) :
      Calls d (.type s (.name n)) (.struct s n)
  | member {s : Surroundings} {n : String} {before after : List (String × TypeExpr)}
      {f : String × TypeExpr} (declared : d.structs.lookup n = some (before ++ f :: after))
      (notOutside : n ∉ s.outside) (notInPlace : n ∉ s.inPlace)
      (read : ∀ g ∈ before, d.Gives (.type (s.within n) g.2)) :
      Calls d (.struct s n) (.type (s.within n) f.2)

/-- At most `depth` calls are open inside the call at any time. -/
def Within (d : Declarations) (depth : Nat) (c : Call) : Prop :=
  ∀ stack, List.IsChain d.Calls (c :: stack) → stack.length ≤ depth

/-- A name that is come to from the call leads back to itself through texts of value types. -/
def LeadsBack (d : Declarations) (c : Call) : Prop :=
  ∃ s n, ReflTransGen d.Calls c (.type s (.name n)) ∧
    TransGen d.Unfolds (s, .name n) (s, .name n)

theorem Unfolds.transGen_calls {d : Declarations} {p q : Surroundings × TypeExpr}
    (h : TransGen d.Unfolds p q) : TransGen d.Calls (.type p.1 p.2) (.type q.1 q.2) :=
  TransGen.lift (fun p : Surroundings × TypeExpr => Call.type p.1 p.2)
    (fun _ _ hnext => Calls.unfold hnext) p q h

namespace Within

variable {d : Declarations} {k m : Nat} {c c' : Call}

theorem mono (h : d.Within k c) (hle : k ≤ m) : d.Within m c :=
  fun stack hstack => Nat.le_trans (h stack hstack) hle

theorem succ (h : ∀ c', d.Calls c c' → d.Within k c') : d.Within (k + 1) c := by
  intro stack hstack
  cases stack with
  | nil => exact Nat.zero_le _
  | cons c' stack =>
    obtain ⟨hcall, hrest⟩ := List.isChain_cons_cons.1 hstack
    exact Nat.succ_le_succ (h c' hcall stack hrest)

theorem leaf (h : ∀ c', ¬d.Calls c c') : d.Within 0 c := by
  intro stack hstack
  cases stack with
  | nil => exact Nat.le_refl _
  | cons c' stack => exact absurd (List.isChain_cons_cons.1 hstack).1 (h c')

theorem of_calls (h : d.Within k c) (hcall : d.Calls c c') : ∃ m < k, d.Within m c' := by
  have hone := h [c'] (.cons_cons hcall (.singleton c'))
  obtain ⟨m, rfl⟩ := Nat.exists_eq_add_one.2 hone
  refine ⟨m, Nat.lt_succ_self m, fun stack hstack => ?_⟩
  exact Nat.le_of_succ_le_succ (h (c' :: stack) (.cons_cons hcall hstack))

theorem of_reflTransGen (h : d.Within k c) (hto : ReflTransGen d.Calls c c') : d.Within k c' := by
  induction hto with
  | refl => exact h
  | tail _ hcall ih =>
    obtain ⟨m, hlt, hm⟩ := ih.of_calls hcall
    exact hm.mono (Nat.le_of_lt hlt)

theorem of_transGen (h : d.Within k c) (hto : TransGen d.Calls c c') :
    ∃ m < k, d.Within m c' := by
  obtain ⟨c₁, hcall, hrest⟩ := TransGen.head'_iff.1 hto
  obtain ⟨m, hlt, hm⟩ := h.of_calls hcall
  exact ⟨m, hlt, hm.of_reflTransGen hrest⟩

/-- **A call that comes back to itself goes deeper than any number.** -/
theorem not_transGen (h : d.Within k c) : ¬TransGen d.Calls c c := by
  induction k using Nat.strongRecOn with
  | ind k ih =>
    intro hback
    obtain ⟨m, hlt, hm⟩ := h.of_transGen hback
    exact ih m hlt hm hback

theorem not_leadsBack (h : d.Within k c) : ¬d.LeadsBack c := by
  rintro ⟨s, n, hto, hback⟩
  exact (h.of_reflTransGen hto).not_transGen (Unfolds.transGen_calls hback)

end Within

end Declarations

/-! ## Names -/

/-- What a value type stands for, given what the text stands for that it is declared with. -/
def asValueType (n : String) : Except TypeFault Ty → Except TypeFault Ty
  | .error fault => .error fault
  | .ok u =>
    if u.isValueType then .ok (.userDefined n .valueType u) else .error (.wrapsNonValue n u)

theorem endless_asValueType {n : String} {r : Except TypeFault Ty} :
    Endless (asValueType n r) ↔ Endless r := by
  cases r with
  | error fault => exact Iff.rfl
  | ok u =>
    refine iff_of_false ?_ not_endless_ok
    by_cases hu : u.isValueType
    · rw [asValueType, if_pos hu]
      exact not_endless_ok
    · rw [asValueType, if_neg hu]
      rintro ⟨m, hm⟩
      cases hm

/-- A name is that of a struct, or of a value type, or leads to no further text. -/
theorem lookUp_bare_cases (d : Declarations) (n : String) :
    ((d.structs.lookup n).isSome ∧
      ∀ depth s, d.lookUp (depth + 1) s (.bare n) = d.openStruct (d.lookUp depth) s n) ∨
    (∃ e, d.structs.lookup n = none ∧ n ∉ d.enums ∧ d.valueTypes.lookup n = some e ∧
      ∀ depth s, d.lookUp (depth + 1) s (.bare n) =
        asValueType n (e.resolveWith (d.lookUp depth) s)) ∨
    (d.structs.lookup n = none ∧ (n ∉ d.enums → d.valueTypes.lookup n = none) ∧
      ∃ r, ¬Endless r ∧ ∀ depth s, d.lookUp (depth + 1) s (.bare n) = r) := by
  by_cases hn : (d.structs.lookup n).isSome
  · refine .inl ⟨hn, fun depth s => ?_⟩
    rw [Declarations.lookUp, if_pos hn]
  have hnone : d.structs.lookup n = none := Option.not_isSome_iff_eq_none.1 hn
  by_cases he : n ∈ d.enums
  · refine .inr (.inr ⟨hnone, fun hne => absurd he hne, .ok (.enumeration n), not_endless_ok,
      fun depth s => ?_⟩)
    rw [Declarations.lookUp, if_neg hn, if_pos he]
  cases hv : d.valueTypes.lookup n with
  | some e =>
    refine .inr (.inl ⟨e, hnone, he, rfl, fun depth s => ?_⟩)
    rw [Declarations.lookUp, if_neg hn, if_neg he, hv]
    rfl
  | none =>
    refine .inr (.inr ⟨hnone, fun _ => rfl,
      if n ∈ d.contracts then .ok (.contract n) else .error (.unknownType n), ?_,
      fun depth s => ?_⟩)
    · rintro ⟨m, hm⟩
      split at hm
      · cases hm
      · cases hm
    · rw [Declarations.lookUp, if_neg hn, if_neg he, hv]

/-! ## More depth changes nothing -/

section Deeper

variable {look look' : Surroundings → NameUse → Except TypeFault Ty}
  (hmore : ∀ s use, ¬Endless (look s use) → look' s use = look s use)

include hmore

theorem resolveWith_deeper : ∀ {e : TypeExpr} {s : Surroundings}, ¬Endless (e.resolveWith look s) →
    e.resolveWith look' s = e.resolveWith look s := by
  intro e
  induction e with
  | bad | builtin | enumName | contractName => intro s _; rfl
  | structName n => intro s h; exact hmore s (.struct n) h
  | name n => intro s h; exact hmore s (.bare n) h
  | dynamicArray e ih =>
    intro s h
    unfold TypeExpr.resolveWith at h ⊢
    rw [ih (not_endless_of h fun _ hr => by rw [hr])]
  | fixedArray e length ih =>
    intro s h
    unfold TypeExpr.resolveWith at h ⊢
    rw [ih (not_endless_of h fun _ hr => by rw [hr])]
  | mapping k v ihKey ihValue =>
    intro s h
    unfold TypeExpr.resolveWith at h ⊢
    rw [ihKey (not_endless_of h fun _ hr => by rw [hr])]
    cases hk : k.resolveWith look s.behindContainer with
    | error fault => rfl
    | ok t =>
      simp only [hk] at h
      rw [ihValue (not_endless_of h fun _ hr => by rw [hr])]

theorem resolveMembers_deeper {s : Surroundings} {fields : List (String × TypeExpr)}
    (h : ¬Endless (resolveMembers look s fields)) :
    resolveMembers look' s fields = resolveMembers look s fields := by
  induction fields with
  | nil => rfl
  | cons f fields ih =>
    unfold resolveMembers at h ⊢
    rw [resolveWith_deeper hmore (not_endless_of h fun _ hr => by rw [hr])]
    cases hf : f.2.resolveWith look s with
    | error fault => rfl
    | ok t =>
      simp only [hf] at h
      rw [ih (not_endless_of h fun _ hr => by rw [hr])]

theorem openStruct_deeper {d : Declarations} {s : Surroundings} {n : String}
    (h : ¬Endless (d.openStruct look s n)) : d.openStruct look' s n = d.openStruct look s n := by
  unfold Declarations.openStruct at h ⊢
  split
  · rfl
  · next fields hn =>
    simp only [hn] at h
    by_cases hout : n ∈ s.outside
    · rw [if_pos hout, if_pos hout]
    rw [if_neg hout] at h ⊢
    by_cases hin : n ∈ s.inPlace
    · rw [if_pos hin, if_neg hout, if_pos hin]
    rw [if_neg hin] at h ⊢
    have hmembers : ¬Endless (resolveMembers look (s.within n) fields) :=
      not_endless_of h fun _ hr => by rw [hr]
    rw [if_neg hout, if_neg hin, resolveMembers_deeper hmore hmembers]

end Deeper

section

variable {d : Declarations}

theorem lookUp_succ : ∀ {depth : Nat} {s : Surroundings} {use : NameUse},
    ¬Endless (d.lookUp depth s use) → d.lookUp (depth + 1) s use = d.lookUp depth s use := by
  intro depth
  induction depth with
  | zero => intro s use h; exact absurd ⟨_, rfl⟩ h
  | succ depth ih =>
    intro s use h
    have hmore : ∀ s use, ¬Endless (d.lookUp depth s use) →
        d.lookUp (depth + 1) s use = d.lookUp depth s use := fun _ _ => ih
    cases use with
    | struct n => exact openStruct_deeper hmore h
    | bare n =>
      rcases lookUp_bare_cases d n with ⟨-, hopen⟩ | ⟨e, -, -, -, hwrap⟩ | ⟨-, -, r, -, hconst⟩
      · rw [hopen] at h ⊢
        rw [hopen]
        exact openStruct_deeper hmore h
      · rw [hwrap, endless_asValueType] at h
        rw [hwrap, hwrap, resolveWith_deeper hmore h]
      · rw [hconst, hconst]

theorem lookUp_le {depth depth' : Nat} (hle : depth ≤ depth') {s : Surroundings} {use : NameUse}
    (h : ¬Endless (d.lookUp depth s use)) : d.lookUp depth' s use = d.lookUp depth s use := by
  induction hle with
  | refl => rfl
  | step _ ih =>
    rw [← ih] at h
    rw [lookUp_succ h, ih]

/-- **Wherever reading comes to an end, it comes to the same end.** -/
theorem resolveWith_le {depth depth' : Nat} (hle : depth ≤ depth') {s : Surroundings}
    {e : TypeExpr} (h : ¬Endless (e.resolveWith (d.lookUp depth) s)) :
    e.resolveWith (d.lookUp depth') s = e.resolveWith (d.lookUp depth) s :=
  resolveWith_deeper (fun _ _ => lookUp_le hle) h

theorem outcome_le {depth depth' : Nat} (hle : depth ≤ depth') {c : Call}
    (h : ¬Endless (c.outcome d depth)) : c.outcome d depth' = c.outcome d depth := by
  cases c with
  | type s e => exact resolveWith_le hle h
  | struct s n => exact lookUp_le hle h

/-- A call that gives a type gives it at every depth that is enough. -/
theorem Declarations.Gives.exists_ok {c : Call} (h : d.Gives c) {depth : Nat}
    (hdepth : ¬Endless (c.outcome d depth)) : ∃ t, c.outcome d depth = .ok t := by
  obtain ⟨depth', t, ht⟩ := h
  have hdepth' : ¬Endless (c.outcome d depth') := ht ▸ not_endless_ok
  refine ⟨t, ?_⟩
  rcases Nat.le_total depth depth' with hle | hle
  · rw [← outcome_le hle hdepth, ht]
  · rw [outcome_le hle hdepth', ht]

/-! ## Where reading ends, it does not go deep -/

/-- How deep the parts of a text lie inside one another. -/
def TypeExpr.height : TypeExpr → Nat
  | .fixedArray e _ | .dynamicArray e => e.height + 1
  | .mapping k v => max k.height v.height + 1
  | _ => 0

/-- The depth of what is read, names left alone. -/
def Call.height : Call → Nat
  | .type _ e => e.height
  | .struct _ _ => 0

namespace Declarations

/-- The texts that names are declared with. -/
def texts (d : Declarations) : List TypeExpr :=
  d.structs.flatMap (fun s => s.2.map Prod.snd) ++ d.valueTypes.map Prod.snd

def height (d : Declarations) : Nat := (d.texts.map TypeExpr.height).foldr max 0

theorem height_le {e : TypeExpr} (h : e ∈ d.texts) : e.height ≤ d.height :=
  List.le_max_of_le' 0 (List.mem_map_of_mem h) (Nat.le_refl _)

theorem mem_texts_of_field {n : String} {fields : List (String × TypeExpr)}
    (hn : d.structs.lookup n = some fields) {f : String × TypeExpr} (hf : f ∈ fields) :
    f.2 ∈ d.texts :=
  List.mem_append_left _ (List.mem_flatMap.2
    ⟨_, SortedMap.mem_of_lookup hn, List.mem_map_of_mem hf⟩)

theorem mem_texts_of_valueType {n : String} {e : TypeExpr} (hn : d.valueTypes.lookup n = some e) :
    e ∈ d.texts :=
  List.mem_append_right _ (List.mem_map_of_mem (f := Prod.snd) (SortedMap.mem_of_lookup hn))

section Bounds

variable {depth k : Nat} {s : Surroundings}

/-- A text is as deep as its names, and its parts on top. -/
theorem within_type_of_names
    (hnames : ∀ s use, ¬Endless (d.lookUp depth s use) → d.Within k (.type s use.expr)) :
    ∀ {e : TypeExpr} {s : Surroundings}, ¬Endless (e.resolveWith (d.lookUp depth) s) →
      d.Within (k + e.height) (.type s e) := by
  intro e
  induction e with
  | bad | builtin | enumName | contractName =>
    intro s _
    refine Within.mono (.leaf fun c' hcall => ?_) (Nat.zero_le _)
    cases hcall with
    | unfold hnext => cases hnext
  | structName n => intro s h; exact hnames s (.struct n) h
  | name n => intro s h; exact hnames s (.bare n) h
  | dynamicArray e ih =>
    intro s h
    refine .succ fun c' hcall => ?_
    cases hcall with
    | unfold hnext =>
      cases hnext with
      | dynamicArray =>
        unfold TypeExpr.resolveWith at h
        exact ih (not_endless_of h fun _ hr => by rw [hr])
  | fixedArray e length ih =>
    intro s h
    refine .succ fun c' hcall => ?_
    cases hcall with
    | unfold hnext =>
      cases hnext with
      | fixedArray =>
        unfold TypeExpr.resolveWith at h
        exact ih (not_endless_of h fun _ hr => by rw [hr])
  | mapping key value ihKey ihValue =>
    intro s h
    unfold TypeExpr.resolveWith at h
    have hkey : ¬Endless (key.resolveWith (d.lookUp depth) s.behindContainer) :=
      not_endless_of h fun _ hr => by rw [hr]
    refine .succ fun c' hcall => ?_
    cases hcall with
    | unfold hnext =>
      cases hnext with
      | key => exact (ihKey hkey).mono (Nat.add_le_add_left (Nat.le_max_left _ _) k)
      | value read =>
        obtain ⟨t, ht⟩ := read.exists_ok hkey
        have ht : key.resolveWith (d.lookUp depth) s.behindContainer = .ok t := ht
        rw [ht] at h
        refine (ihValue (not_endless_of h fun _ hr => by rw [hr])).mono ?_
        exact Nat.add_le_add_left (Nat.le_max_right _ _) k

/-- The members in front of a member have been read when it is come to, and it is no deeper than
they are. -/
theorem not_endless_of_resolveMembers {before after : List (String × TypeExpr)}
    {f : String × TypeExpr} (hbefore : ∀ g ∈ before, d.Gives (.type s g.2))
    (h : ¬Endless (resolveMembers (d.lookUp depth) s (before ++ f :: after))) :
    ¬Endless (f.2.resolveWith (d.lookUp depth) s) := by
  induction before with
  | nil =>
    rw [List.nil_append, resolveMembers] at h
    exact not_endless_of h fun _ hr => by rw [hr]
  | cons g before ih =>
    obtain ⟨hg, hbefore⟩ := List.forall_mem_cons.1 hbefore
    rw [List.cons_append, resolveMembers] at h
    have hends : ¬Endless (g.2.resolveWith (d.lookUp depth) s) :=
      not_endless_of h fun _ hr => by rw [hr]
    obtain ⟨t, ht⟩ := hg.exists_ok hends
    have ht : g.2.resolveWith (d.lookUp depth) s = .ok t := ht
    rw [ht] at h
    exact ih hbefore (not_endless_of h fun _ hr => by rw [hr])

theorem within_struct
    (htexts : ∀ e s, ¬Endless (e.resolveWith (d.lookUp depth) s) →
      d.Within (k + e.height) (.type s e)) {n : String}
    (h : ¬Endless (d.openStruct (d.lookUp depth) s n)) :
    d.Within (k + d.height + 1) (.struct s n) := by
  refine .succ fun c' hcall => ?_
  cases hcall with
  | @member _ _ before after f declared notOutside notInPlace read =>
    simp only [openStruct, declared, if_neg notOutside, if_neg notInPlace] at h
    have hmembers :
        ¬Endless (resolveMembers (d.lookUp depth) (s.within n) (before ++ f :: after)) :=
      not_endless_of h fun _ hr => by rw [hr]
    have hf := not_endless_of_resolveMembers read hmembers
    have hmem := mem_texts_of_field declared (List.mem_append_right before List.mem_cons_self)
    exact (htexts f.2 _ hf).mono (Nat.add_le_add_left (height_le hmem) k)

theorem within_name : ∀ {depth : Nat} {s : Surroundings} {use : NameUse},
    ¬Endless (d.lookUp depth s use) → d.Within (depth * (d.height + 2)) (.type s use.expr) := by
  intro depth
  induction depth with
  | zero => intro s use h; exact absurd ⟨_, rfl⟩ h
  | succ depth ih =>
    intro s use h
    have htexts : ∀ e s, ¬Endless (e.resolveWith (d.lookUp depth) s) →
        d.Within (depth * (d.height + 2) + e.height) (.type s e) :=
      fun e s => within_type_of_names fun _ _ => ih
    rw [Nat.succ_mul, ← Nat.add_assoc]
    refine .succ fun c' hcall => ?_
    cases use with
    | struct n =>
      cases hcall with
      | unfold hnext => cases hnext
      | structName => exact within_struct htexts h
    | bare n =>
      rcases lookUp_bare_cases d n with
        ⟨hn, hopen⟩ | ⟨e, hn, -, he, hwrap⟩ | ⟨hn, hnone, -⟩
      · cases hcall with
        | unfold hnext =>
          cases hnext with
          | valueType noStruct => rw [noStruct] at hn; cases hn
        | bareStruct => exact within_struct htexts (hopen depth s ▸ h)
      · rw [hwrap, endless_asValueType] at h
        cases hcall with
        | unfold hnext =>
          cases hnext with
          | valueType _ _ declared =>
            obtain rfl := Option.some.inj (he.symm.trans declared)
            refine (htexts e s h).mono ?_
            have hle := height_le (mem_texts_of_valueType he)
            omega
        | bareStruct declared => rw [hn] at declared; cases declared
      · cases hcall with
        | unfold hnext =>
          cases hnext with
          | valueType _ noEnum declared => rw [hnone noEnum] at declared; cases declared
        | bareStruct declared => rw [hn] at declared; cases declared

/-- **Where reading ends, the calls are bounded**: a text goes no deeper than its parts, and for
each name than the texts that names are declared with. -/
theorem within_outcome {c : Call} (h : ¬Endless (c.outcome d depth)) :
    d.Within (depth * (d.height + 2) + c.height) c := by
  cases c with
  | type s e => exact within_type_of_names (fun _ _ => within_name) h
  | struct s n =>
    have hname : d.Within (depth * (d.height + 2)) (.type s (NameUse.struct n).expr) :=
      within_name h
    obtain ⟨k, hlt, hk⟩ := hname.of_calls .structName
    exact hk.mono (Nat.le_of_lt hlt)

end Bounds

end Declarations

end

end StorageAtlas
