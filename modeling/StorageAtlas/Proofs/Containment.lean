import Mathlib.Data.List.Perm.Subperm
import Mathlib.Logic.Relation
import StorageAtlas.Proofs.Loading

/-!
# Structs inside themselves

A struct holds another in place if a member is that struct or a fixed array of it
(`Declarations.Contains`). Names are looked up depth first, and a struct that is met again among
those it lies in place in is refused. Where all texts can be read otherwise
(`Declarations.Resolvable`), nothing else is refused (`lookUp_fault`), and every struct that comes
back to itself is (`not_transGen_of_readStruct`).

Two facts about the open structs carry the first half: they are different structs, so that there is
always room for one more (`Declarations.Room`), and each of them leads to the name that is looked up
next (`Declarations.LeadsTo`).
-/

namespace StorageAtlas

open Relation

/-! ## Which struct lies where -/

/-- The struct that a type is, or is a fixed array of. -/
def TypeExpr.held? (d : Declarations) : TypeExpr → Option String
  | .fixedArray e _ => e.held? d
  | .structName n => some n
  | .name n => if (d.structs.lookup n).isSome then some n else none
  | _ => none

def Declarations.Contains (d : Declarations) (outer inner : String) : Prop :=
  ∃ fields, d.structs.lookup outer = some fields ∧ ∃ f ∈ fields, f.2.held? d = some inner

/-- A struct that comes back to itself in place. -/
def Declarations.Cyclic (d : Declarations) : Prop := ∃ n, TransGen d.Contains n n

/-! ## Texts that can be read -/

/-- Nothing in the text is at fault, and its names are declared. -/
def TypeExpr.Resolvable (d : Declarations) : TypeExpr → Prop
  | .bad _ => False
  | .builtin _ | .enumName _ | .contractName _ => True
  | .fixedArray e _ | .dynamicArray e => e.Resolvable d
  | .mapping k v => k.Resolvable d ∧ v.Resolvable d
  | .structName n => (d.structs.lookup n).isSome
  | .name n => (d.structs.lookup n).isSome ∨ n ∈ d.enums ∨ (d.valueTypes.lookup n).isSome ∨
      n ∈ d.contracts

/-- Structs have members, value types stand for elementary types, and all types that members have
can be resolved. -/
structure Declarations.Resolvable (d : Declarations) : Prop where
  fields : ∀ {n fields}, d.structs.lookup n = some fields →
    fields ≠ [] ∧ ∀ f ∈ fields, f.2.Resolvable d
  valueTypes : ∀ {n e}, d.valueTypes.lookup n = some e → ∃ a, e = .builtin (.elementary a)

/-! ## The open structs -/

def Surroundings.names (s : Surroundings) : List String := s.inPlace ++ s.outside

/-- The structs around a type are declared and differ, and not all can be open at the depth that is
left. -/
structure Declarations.Room (d : Declarations) (depth : Nat) (around : Surroundings) : Prop where
  nodup : around.names.Nodup
  declared : ∀ n ∈ around.names, (d.structs.lookup n).isSome
  room : d.structs.length < depth + around.names.length

/-- The structs that a text lies in place in lead to the struct that it holds. -/
def Declarations.LeadsTo (d : Declarations) (around : Surroundings) (e : TypeExpr) : Prop :=
  ∀ inner, e.held? d = some inner → ∀ outer ∈ around.inPlace, TransGen d.Contains outer inner

/-- The fault of a struct that comes back to itself. -/
def Declarations.IsCycle (d : Declarations) (fault : TypeFault) : Prop :=
  ∃ n, fault = .containsItself n ∧ TransGen d.Contains n n

section

variable {d : Declarations} {depth : Nat} {around : Surroundings}

namespace Declarations

theorem Room.behindContainer (h : d.Room depth around) : d.Room depth around.behindContainer :=
  ⟨h.nodup, h.declared, h.room⟩

theorem Room.within (h : d.Room (depth + 1) around) {n : String}
    (hn : (d.structs.lookup n).isSome) (hout : n ∉ around.outside) (hin : n ∉ around.inPlace) :
    d.Room depth (around.within n) := by
  have hnames : (around.within n).names = n :: around.names := rfl
  constructor
  · rw [hnames, List.nodup_cons]
    refine ⟨fun hmem => ?_, h.nodup⟩
    cases List.mem_append.1 hmem with
    | inl hmem => exact hin hmem
    | inr hmem => exact hout hmem
  · rw [hnames]
    exact List.forall_mem_cons.2 ⟨hn, h.declared⟩
  · have hroom := h.room
    rw [hnames, List.length_cons]
    omega

/-- Only as many structs can be open as are declared. -/
theorem Room.length_le (h : d.Room depth around) : around.names.length ≤ d.structs.length := by
  have hsub : around.names ⊆ d.structs.map Prod.fst := by
    intro n hn
    exact isSome_lookup_iff_keys.1 (h.declared n hn)
  have hle := (List.subperm_of_subset h.nodup hsub).length_le
  rwa [List.length_map] at hle

theorem Room.pos (h : d.Room depth around) : 0 < depth := by
  have hle := h.length_le
  have hroom := h.room
  omega

theorem room_nesting : d.Room d.nesting {} where
  nodup := List.nodup_nil
  declared := nofun
  room := by
    have hle : d.structs.length + 1 ≤ d.nesting := Nat.le_mul_of_pos_right _ (Nat.succ_pos _)
    exact Nat.lt_of_lt_of_le (Nat.lt_succ_self _) hle

theorem leadsTo_behindContainer (e : TypeExpr) : d.LeadsTo around.behindContainer e := nofun

theorem leadsTo_empty (e : TypeExpr) : d.LeadsTo {} e := nofun

/-- What leads to a struct leads to what its members hold, as the struct does itself. -/
theorem LeadsTo.within {n : String} {fields : List (String × TypeExpr)}
    (h : ∀ outer ∈ around.inPlace, TransGen d.Contains outer n)
    (hn : d.structs.lookup n = some fields) {f : String × TypeExpr} (hf : f ∈ fields) :
    d.LeadsTo (around.within n) f.2 := by
  intro inner hinner outer houter
  have hstep : d.Contains n inner := ⟨fields, hn, f, hf, hinner⟩
  cases List.mem_cons.1 houter with
  | inl heq => exact heq ▸ .single hstep
  | inr hmem => exact .tail (h outer hmem) hstep

end Declarations

/-! ## What is refused -/

section Faults

variable {look : Surroundings → NameUse → Except TypeFault Ty}

/-- What looking up a name may refuse, if all is well with the structs around it. -/
def Declarations.RefusesCycles (d : Declarations) (depth : Nat)
    (look : Surroundings → NameUse → Except TypeFault Ty) : Prop :=
  ∀ around use, d.Room depth around → use.expr.Resolvable d → d.LeadsTo around use.expr →
    ∀ fault, look around use = .error fault → d.IsCycle fault

theorem resolveWith_fault (hlook : d.RefusesCycles depth look) : ∀ {e : TypeExpr}
    {around : Surroundings} {fault : TypeFault}, e.Resolvable d → d.Room depth around →
      d.LeadsTo around e → e.resolveWith look around = .error fault → d.IsCycle fault := by
  intro e
  induction e with
  | bad => intro _ _ he; exact he.elim
  | builtin t => intro _ _ _ _ _ h; cases h
  | enumName n => intro _ _ _ _ _ h; cases h
  | contractName n => intro _ _ _ _ _ h; cases h
  | structName n =>
    intro around fault he hroom hto h
    exact hlook around (.struct n) hroom he hto fault h
  | name n =>
    intro around fault he hroom hto h
    exact hlook around (.bare n) hroom he hto fault h
  | fixedArray e length ih =>
    intro around fault he hroom hto h
    unfold TypeExpr.resolveWith at h
    split at h
    · cases h
    · next hf =>
      cases h
      exact ih he hroom hto hf
  | dynamicArray e ih =>
    intro around fault he hroom _ h
    unfold TypeExpr.resolveWith at h
    split at h
    · cases h
    · next hf =>
      cases h
      exact ih he hroom.behindContainer (Declarations.leadsTo_behindContainer e) hf
  | mapping k v ihKey ihValue =>
    intro around fault he hroom _ h
    unfold TypeExpr.resolveWith at h
    split at h
    · next hf =>
      cases h
      exact ihKey he.1 hroom.behindContainer (Declarations.leadsTo_behindContainer k) hf
    · split at h
      · next hf =>
        cases h
        exact ihValue he.2 hroom.behindContainer (Declarations.leadsTo_behindContainer v) hf
      · cases h

theorem resolveMembers_fault (hlook : d.RefusesCycles depth look) (hroom : d.Room depth around)
    {fields : List (String × TypeExpr)} {fault : TypeFault}
    (hfields : ∀ f ∈ fields, f.2.Resolvable d ∧ d.LeadsTo around f.2)
    (h : resolveMembers look around fields = .error fault) : d.IsCycle fault := by
  induction fields with
  | nil => cases h
  | cons f fields ih =>
    obtain ⟨⟨he, hto⟩, hrest⟩ := List.forall_mem_cons.1 hfields
    unfold resolveMembers at h
    split at h
    · next hf =>
      cases h
      exact resolveWith_fault hlook he hroom hto hf
    · split at h
      · next hf =>
        cases h
        exact ih hrest hf
      · cases h

theorem resolveMembers_ne_nil {f : String × TypeExpr} {fields : List (String × TypeExpr)} :
    resolveMembers look around (f :: fields) ≠ .ok [] := by
  intro h
  unfold resolveMembers at h
  split at h
  · cases h
  · split at h
    · cases h
    · cases h

variable (hd : d.Resolvable)

include hd

theorem openStruct_fault (hlook : d.RefusesCycles depth look) (hroom : d.Room (depth + 1) around)
    {n : String} (hn : (d.structs.lookup n).isSome)
    (hto : ∀ outer ∈ around.inPlace, TransGen d.Contains outer n) {fault : TypeFault}
    (h : d.openStruct look around n = .error fault) : d.IsCycle fault := by
  obtain ⟨fields, hf⟩ := Option.isSome_iff_exists.1 hn
  obtain ⟨hne, hfields⟩ := hd.fields hf
  simp only [Declarations.openStruct, hf] at h
  by_cases hout : n ∈ around.outside
  · rw [if_pos hout] at h
    cases h
  rw [if_neg hout] at h
  by_cases hin : n ∈ around.inPlace
  · rw [if_pos hin] at h
    cases h
    exact ⟨n, rfl, hto n hin⟩
  rw [if_neg hin] at h
  split at h
  · next hms =>
    cases h
    refine resolveMembers_fault hlook (hroom.within hn hout hin) (fun f hmem => ?_) hms
    exact ⟨hfields f hmem, .within hto hf hmem⟩
  · next hms =>
    cases fields with
    | nil => exact absurd rfl hne
    | cons f fields => exact absurd hms resolveMembers_ne_nil
  · cases h

/-- **Only structs that come back to themselves are refused.** -/
theorem lookUp_fault : d.RefusesCycles depth (d.lookUp depth) := by
  induction depth with
  | zero => intro around use hroom; exact absurd hroom.pos (Nat.lt_irrefl 0)
  | succ depth ih =>
    intro around use hroom he hto fault h
    cases use with
    | struct n => exact openStruct_fault hd ih hroom he (hto n rfl) h
    | bare n =>
      unfold Declarations.lookUp at h
      by_cases hn : (d.structs.lookup n).isSome
      · rw [if_pos hn] at h
        have hheld : (NameUse.bare n).expr.held? d = some n := if_pos hn
        exact openStruct_fault hd ih hroom hn (hto n hheld) h
      rw [if_neg hn] at h
      by_cases hen : n ∈ d.enums
      · rw [if_pos hen] at h
        cases h
      rw [if_neg hen] at h
      cases hv : d.valueTypes.lookup n with
      | some e =>
        -- a value type wraps a built-in type, which refuses nothing
        obtain ⟨a, rfl⟩ := hd.valueTypes hv
        have hval : (Ty.elementary a).isValueType = true := rfl
        simp [hv, TypeExpr.resolveWith, hval] at h
      | none =>
        have hc : n ∈ d.contracts := by
          simpa [NameUse.expr, TypeExpr.Resolvable, hn, hen, hv] using he
        simp [hv, hc] at h

theorem readType_fault {text : String} {fault : TypeFault}
    (he : (TypeExpr.ofText text.toList).Resolvable d) (h : d.readType text = .error fault) :
    d.IsCycle fault :=
  resolveWith_fault (lookUp_fault hd) he Declarations.room_nesting (Declarations.leadsTo_empty _) h

theorem readStruct_fault {n : String} {fault : TypeFault} (hn : (d.structs.lookup n).isSome)
    (h : d.readStruct n = .error fault) : d.IsCycle fault :=
  lookUp_fault hd {} (.struct n) Declarations.room_nesting hn (Declarations.leadsTo_empty _) fault h

end Faults

/-! ## What is accepted -/

section Accepted

variable {look : Surroundings → NameUse → Except TypeFault Ty}

theorem exists_lookUp_of_held {n : String} : ∀ {e : TypeExpr} {t : Ty},
    e.resolveWith look around = .ok t → e.held? d = some n →
      ∃ use : NameUse, use.expr.held? d = some n ∧ ∃ u, look around use = .ok u := by
  intro e
  induction e with
  | fixedArray e length ih =>
    intro t h hn
    unfold TypeExpr.resolveWith at h
    split at h
    · next hu => exact ih hu hn
    · cases h
  | structName m => intro t h hn; exact ⟨.struct m, hn, t, h⟩
  | name m => intro t h hn; exact ⟨.bare m, hn, t, h⟩
  | _ => intro t _ hn; cases hn

theorem exists_of_resolveMembers {fields : List (String × TypeExpr)} {ms : List Member}
    (h : resolveMembers look around fields = .ok ms) :
    ∀ f ∈ fields, ∃ t, f.2.resolveWith look around = .ok t := by
  induction fields generalizing ms with
  | nil => exact fun _ hf => nomatch hf
  | cons f fields ih =>
    unfold resolveMembers at h
    split at h
    · cases h
    · next t ht =>
      split at h
      · cases h
      · next ts hts => exact List.forall_mem_cons.2 ⟨⟨t, ht⟩, ih hts⟩

/-- Outside of all containers a struct that is opened was not open. -/
theorem openStruct_eq_ok {opened : List String} {n : String} {t : Ty}
    (h : d.openStruct look ⟨[], opened⟩ n = .ok t) :
    n ∉ opened ∧ ∃ fields ms, d.structs.lookup n = some fields ∧
      resolveMembers look ⟨[], n :: opened⟩ fields = .ok ms ∧ t = .struct n ms := by
  unfold Declarations.openStruct at h
  split at h
  · cases h
  · next fields hf =>
    rw [if_neg List.not_mem_nil] at h
    by_cases hin : n ∈ opened
    · rw [if_pos hin] at h
      cases h
    rw [if_neg hin] at h
    split at h
    · cases h
    · cases h
    · next ms _ hms =>
      cases h
      exact ⟨hin, fields, ms, hf, hms, rfl⟩

theorem lookUp_of_held {use : NameUse} {n : String} (hn : use.expr.held? d = some n) {t : Ty}
    (h : d.lookUp depth around use = .ok t) :
    ∃ depth', d.openStruct (d.lookUp depth') around n = .ok t := by
  cases depth with
  | zero => cases h
  | succ depth =>
    refine ⟨depth, ?_⟩
    cases use with
    | struct m => cases hn; exact h
    | bare m =>
      simp only [NameUse.expr, TypeExpr.held?] at hn
      split at hn
      · next hm =>
        cases hn
        unfold Declarations.lookUp at h
        rwa [if_pos hm] at h
      · cases hn

/-- The struct can be opened in place among the given ones. -/
def Declarations.Opens (d : Declarations) (opened : List String) (n : String) : Prop :=
  ∃ depth t, d.openStruct (d.lookUp depth) ⟨[], opened⟩ n = .ok t

theorem Declarations.Opens.step {opened : List String} {outer inner : String}
    (h : d.Opens opened outer) (hstep : d.Contains outer inner) :
    d.Opens (outer :: opened) inner := by
  obtain ⟨depth, t, h⟩ := h
  obtain ⟨-, fields, ms, hf, hms, -⟩ := openStruct_eq_ok h
  obtain ⟨fields', hf', f, hmem, hheld⟩ := hstep
  cases hf.symm.trans hf'
  obtain ⟨u, hu⟩ := exists_of_resolveMembers hms f hmem
  obtain ⟨use, huse, v, hv⟩ := exists_lookUp_of_held hu hheld
  obtain ⟨depth', hopen⟩ := lookUp_of_held huse hv
  exact ⟨depth', v, hopen⟩

/-- Whatever a struct leads to is opened while the struct is open. -/
theorem Declarations.Opens.run {opened : List String} {outer inner : String}
    (h : d.Opens opened outer) (hto : TransGen d.Contains outer inner) :
    ∃ inside, outer ∈ inside ∧ d.Opens inside inner := by
  induction hto with
  | single hstep => exact ⟨outer :: opened, List.mem_cons_self, h.step hstep⟩
  | tail _ hstep ih =>
    obtain ⟨inside, hmem, hopens⟩ := ih
    exact ⟨_ :: inside, List.mem_cons_of_mem _ hmem, hopens.step hstep⟩

theorem openStruct_of_readStruct {n : String} {t : Ty} (h : d.readStruct n = .ok t) :
    ∃ depth, d.openStruct (d.lookUp depth) {} n = .ok t :=
  have hheld : (NameUse.struct n).expr.held? d = some n := rfl
  lookUp_of_held hheld h

/-- **A struct that is read does not come back to itself.** -/
theorem not_transGen_of_readStruct {n : String} {t : Ty} (h : d.readStruct n = .ok t) :
    ¬TransGen d.Contains n n := by
  intro hto
  obtain ⟨depth, hopen⟩ := openStruct_of_readStruct h
  have hopens : d.Opens [] n := ⟨depth, t, hopen⟩
  obtain ⟨inside, hmem, depth', u, hagain⟩ := hopens.run hto
  exact (openStruct_eq_ok hagain).1 hmem

theorem readStruct_eq_struct {n : String} {t : Ty} (h : d.readStruct n = .ok t) :
    ∃ ms, t = .struct n ms := by
  obtain ⟨depth, hopen⟩ := openStruct_of_readStruct h
  obtain ⟨-, _, ms, -, -, rfl⟩ := openStruct_eq_ok hopen
  exact ⟨ms, rfl⟩

end Accepted

end

/-! ## Whole documents -/

def ModelFault.reason : ModelFault → TypeFault
  | .struct _ fault | .declaration _ _ fault => fault

/-- What the types of a document must be like for all but cycles to be read. -/
structure ModelText.Resolvable (raw : ModelText) : Prop where
  declarations : raw.declarations.Resolvable
  declared : ∀ c ∈ raw.contracts, ∀ v ∈ c.declared,
    (TypeExpr.ofText v.type.toList).Resolvable raw.declarations

section

variable {d : Declarations} (hd : d.Resolvable)

include hd

theorem readStructs_fault {names : List String} (hnames : ∀ n ∈ names, (d.structs.lookup n).isSome)
    {fault : ModelFault} (h : ModelText.readStructs d names = .error fault) :
    d.IsCycle fault.reason := by
  induction names with
  | nil => cases h
  | cons n names ih =>
    obtain ⟨hn, hrest⟩ := List.forall_mem_cons.1 hnames
    unfold ModelText.readStructs at h
    split at h
    · next hf =>
      cases h
      exact readStruct_fault hd hn hf
    · split at h
      · next hf =>
        cases h
        exact ih hrest hf
      · cases h
    · next t hnot ht =>
      obtain ⟨ms, rfl⟩ := readStruct_eq_struct ht
      exact absurd rfl (hnot n ms)

theorem readVariables_fault {contract : String} {index : Nat} {texts : List VariableText}
    (htexts : ∀ v ∈ texts, (TypeExpr.ofText v.type.toList).Resolvable d) {fault : ModelFault}
    (h : ModelText.readVariables d contract index texts = .error fault) :
    d.IsCycle fault.reason := by
  induction texts generalizing index with
  | nil => cases h
  | cons v texts ih =>
    obtain ⟨hv, hrest⟩ := List.forall_mem_cons.1 htexts
    unfold ModelText.readVariables at h
    split at h
    · next hf =>
      cases h
      exact readType_fault hd hv hf
    · split at h
      · next hf =>
        cases h
        exact ih hrest hf
      · cases h

theorem readContracts_fault {texts : List ContractText}
    (htexts : ∀ c ∈ texts, ∀ v ∈ c.declared, (TypeExpr.ofText v.type.toList).Resolvable d)
    {fault : ModelFault} (h : ModelText.readContracts d texts = .error fault) :
    d.IsCycle fault.reason := by
  induction texts with
  | nil => cases h
  | cons c texts ih =>
    obtain ⟨hc, hrest⟩ := List.forall_mem_cons.1 htexts
    unfold ModelText.readContracts at h
    split at h
    · next hf =>
      cases h
      exact readVariables_fault hd hc hf
    · split at h
      · next hf =>
        cases h
        exact ih hrest hf
      · cases h

end

namespace ModelText

variable {raw : ModelText}

theorem structs_keys (raw : ModelText) :
    raw.declarations.structs.map Prod.fst = raw.structs.map (·.1) := by
  simp only [declarations, List.map_map]
  rfl

theorem valueTypes_keys (raw : ModelText) :
    raw.declarations.valueTypes.map Prod.fst = raw.valueTypes.map (·.1) := by
  simp only [declarations, List.map_map]
  rfl

theorem Resolvable.read_fault (h : raw.Resolvable) {fault : ModelFault}
    (hf : raw.read = .error fault) : raw.declarations.IsCycle fault.reason := by
  have hnames : ∀ n ∈ raw.structs.map (·.1), (raw.declarations.structs.lookup n).isSome := by
    intro n hn
    rwa [isSome_lookup_iff_keys, structs_keys]
  simp only [read] at hf
  split at hf
  · next hs =>
    cases hf
    exact readStructs_fault h.declarations hnames hs
  · split at hf
    · next hc =>
      cases hf
      exact readContracts_fault h.declarations h.declared hc
    · cases hf

theorem not_cyclic_of_read {m : Model} (hm : raw.read = .ok m) : ¬raw.declarations.Cyclic := by
  rintro ⟨n, hto⟩
  have hn : n ∈ raw.structs.map (·.1) := by
    obtain ⟨_, ⟨fields, hf, -⟩, -⟩ := TransGen.head'_iff.1 hto
    rw [← structs_keys]
    exact SortedMap.mem_keys_of_lookup hf
  simp only [read] at hm
  split at hm
  · cases hm
  · next structs hs =>
    obtain ⟨_, -, hr⟩ := readStructs_lookup raw.declarations_wordsOnly hs hn
    exact not_transGen_of_readStruct hr hto

/-- **A document is refused exactly if one of its structs comes back to itself**, and with no other
fault than this. -/
theorem Resolvable.read_iff (h : raw.Resolvable) :
    ((∃ fault n, raw.read = .error fault ∧ fault.reason = .containsItself n) ↔
      raw.declarations.Cyclic) ∧ (¬raw.declarations.Cyclic → ∃ m, raw.read = .ok m) := by
  cases hr : raw.read with
  | error fault =>
    obtain ⟨n, hreason, hto⟩ := h.read_fault hr
    refine ⟨⟨fun _ => ⟨n, hto⟩, fun _ => ⟨fault, n, rfl, hreason⟩⟩, fun hnot => ?_⟩
    exact absurd ⟨n, hto⟩ hnot
  | ok m =>
    have hnot := not_cyclic_of_read hr
    refine ⟨⟨?_, fun hcyclic => absurd hcyclic hnot⟩, fun _ => ⟨m, rfl⟩⟩
    rintro ⟨fault, n, h, -⟩
    cases h

end ModelText

end StorageAtlas
