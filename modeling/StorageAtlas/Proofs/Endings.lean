import StorageAtlas.Proofs.Calls
import StorageAtlas.Proofs.Recursion

/-!
# Documents that are read to the end

The reading of a document begins with its structs and goes on with the types of its variables, as
long as nothing is at fault (`ModelText.Begins`). It ends, with a model or a fault, unless it comes
to a value type that leads back to its own name without a struct in between
(`Model.parse_ends_iff`): two structs cannot be open in one another twice, and from one struct to
the next every value type is passed at most once (`Declarations.Trail`).
-/

namespace StorageAtlas

open Relation

section

variable {d : Declarations}

/-! ## Where no name comes back, reading ends -/

/-- What is wrong with the text by itself is not that it never ends. -/
def TypeExpr.EndsAlone : TypeExpr → Prop
  | .bad fault => ∀ n, fault ≠ .endless n
  | .fixedArray e _ | .dynamicArray e => e.EndsAlone
  | .mapping k v => k.EndsAlone ∧ v.EndsAlone
  | _ => True

namespace Declarations

theorem LeadsBack.of_calls {c c' : Call} (hcall : d.Calls c c') (h : d.LeadsBack c') :
    d.LeadsBack c := by
  obtain ⟨s, n, hto, hback⟩ := h
  exact ⟨s, n, .head hcall hto, hback⟩

/-- Texts lie behind as many containers as the texts they come from, or behind one more. -/
theorem Unfolds.around {p q : Surroundings × TypeExpr} (h : TransGen d.Unfolds p q) :
    q.1 = p.1 ∨ q.1 = p.1.behindContainer := by
  have hone {p q : Surroundings × TypeExpr} (h : d.Unfolds p q) :
      q.1 = p.1 ∨ q.1 = p.1.behindContainer := by
    cases h with
    | fixedArray | valueType => exact .inl rfl
    | dynamicArray | key | value => exact .inr rfl
  induction h with
  | single h => exact hone h
  | tail _ h ih =>
    rcases hone h with h | h <;> rcases ih with ih | ih <;> rw [h, ih]
    · exact .inl rfl
    · exact .inr rfl
    · exact .inr rfl
    · exact .inr rfl

/-- Behind a container the same texts follow. -/
theorem Unfolds.behindContainer {p q : Surroundings × TypeExpr} (h : TransGen d.Unfolds p q) :
    TransGen d.Unfolds (p.1.behindContainer, p.2) (q.1.behindContainer, q.2) := by
  refine TransGen.lift (fun p : Surroundings × TypeExpr => (p.1.behindContainer, p.2))
    (fun p q h => ?_) p q h
  cases h with
  | dynamicArray => exact .dynamicArray
  | fixedArray => exact .fixedArray
  | key => exact .key
  | value read => exact .value read
  | valueType noStruct noEnum declared => exact .valueType noStruct noEnum declared

/-- A name that is met again behind itself leads back to itself from there on, though it may lie
behind more containers by then than at first. -/
theorem leadsBack_of_unfolds {s s' : Surroundings} {n : String}
    (h : TransGen d.Unfolds (s', .name n) (s, .name n)) : d.LeadsBack (.type s (.name n)) := by
  refine ⟨s, n, .refl, ?_⟩
  rcases Unfolds.around h with heq | heq
  · obtain rfl : s = s' := heq
    exact h
  · obtain rfl : s = s'.behindContainer := heq
    exact Unfolds.behindContainer h

/-- The texts are at fault for nothing but themselves. -/
structure EndsAlone (d : Declarations) : Prop where
  fields : ∀ {n fields}, d.structs.lookup n = some fields → ∀ f ∈ fields, f.2.EndsAlone
  valueTypes : ∀ {n e}, d.valueTypes.lookup n = some e → e.EndsAlone

/-- How a text was come to: inside different open structs, and from the innermost of them on through
the texts of different value types. There is depth left for every other value type, and in every
other struct for all of them. -/
structure Trail (d : Declarations) (depth : Nat) (s : Surroundings) (e : TypeExpr)
    (passed : List String) : Prop where
  endsAlone : e.EndsAlone
  room : d.Room depth s
  nodup : passed.Nodup
  declared : ∀ n ∈ passed, (d.valueTypes.lookup n).isSome
  from_passed : ∀ n ∈ passed, ∃ s', TransGen d.Unfolds (s', .name n) (s, e)
  enough : (d.structs.length - s.names.length) * (d.valueTypes.length + 1) +
    (d.valueTypes.length - passed.length) < depth

namespace Trail

variable {depth : Nat} {s s' : Surroundings} {e e' : TypeExpr} {passed : List String}

theorem start (he : e.EndsAlone) : d.Trail d.nesting {} e [] where
  endsAlone := he
  room := room_nesting
  nodup := List.nodup_nil
  declared := nofun
  from_passed := nofun
  enough := by
    have hnames : (({} : Surroundings).names).length = 0 := rfl
    rw [hnames, List.length_nil, nesting, Nat.succ_mul, Nat.sub_zero]
    omega

/-- A part is come to like the whole. -/
theorem part (h : d.Trail depth s e passed) (hnext : d.Unfolds (s, e) (s', e'))
    (he : e'.EndsAlone) (hs : s' = s ∨ s' = s.behindContainer) : d.Trail depth s' e' passed := by
  have hnames : s'.names = s.names := by rcases hs with rfl | rfl <;> rfl
  refine ⟨he, ?_, h.nodup, h.declared, fun n hn => ?_, ?_⟩
  · rcases hs with rfl | rfl
    · exact h.room
    · exact h.room.behindContainer
  · obtain ⟨s₀, hfrom⟩ := h.from_passed n hn
    exact ⟨s₀, hfrom.tail hnext⟩
  · rw [hnames]
    exact h.enough

theorem valueType {n : String} (h : d.Trail (depth + 1) s (.name n) passed)
    (hnot : ¬d.LeadsBack (.type s (.name n))) (hnext : d.Unfolds (s, .name n) (s, e))
    (hn : d.valueTypes.lookup n = some e) (he : e.EndsAlone) :
    d.Trail depth s e (n :: passed) := by
  have hnew : n ∉ passed := fun hmem => by
    obtain ⟨s', hfrom⟩ := h.from_passed n hmem
    exact hnot (leadsBack_of_unfolds hfrom)
  have hnodup : (n :: passed).Nodup := List.nodup_cons.2 ⟨hnew, h.nodup⟩
  have hdeclared : ∀ m ∈ n :: passed, (d.valueTypes.lookup m).isSome :=
    List.forall_mem_cons.2 ⟨by rw [hn]; rfl, h.declared⟩
  have hsub : n :: passed ⊆ d.valueTypes.map Prod.fst :=
    fun m hm => isSome_lookup_iff_keys.1 (hdeclared m hm)
  have hle := (List.subperm_of_subset hnodup hsub).length_le
  rw [List.length_map, List.length_cons] at hle
  have henough := h.enough
  have hone : d.structs.length - s.names.length ≤
      (d.structs.length - s.names.length) * (d.valueTypes.length + 1) :=
    Nat.le_mul_of_pos_right _ (Nat.succ_pos _)
  refine ⟨he, ⟨h.room.nodup, h.room.declared, by omega⟩, hnodup, hdeclared, ?_, ?_⟩
  · refine List.forall_mem_cons.2 ⟨⟨s, .single hnext⟩, fun m hm => ?_⟩
    obtain ⟨s', hfrom⟩ := h.from_passed m hm
    exact ⟨s', hfrom.tail hnext⟩
  · rw [List.length_cons]
    omega

/-- Inside one more struct all value types can be passed again. -/
theorem member {n : String} (h : d.Trail (depth + 1) s e passed)
    (hn : (d.structs.lookup n).isSome) (hout : n ∉ s.outside) (hin : n ∉ s.inPlace)
    (he : e'.EndsAlone) : d.Trail depth (s.within n) e' [] := by
  have hroom := h.room.within hn hout hin
  have hle := hroom.length_le
  have henough := h.enough
  have hnames : (s.within n).names = n :: s.names := rfl
  rw [hnames, List.length_cons] at hle
  refine ⟨he, hroom, List.nodup_nil, nofun, nofun, ?_⟩
  obtain ⟨rest, hrest⟩ : ∃ rest, d.structs.length - s.names.length = rest + 1 :=
    Nat.exists_eq_add_one.2 (by omega)
  rw [hrest, Nat.succ_mul] at henough
  rw [hnames, List.length_cons, List.length_nil, Nat.sub_add_eq, hrest, Nat.add_sub_cancel]
  omega

end Trail

section

variable {depth : Nat} {s : Surroundings}

/-- A struct that is too deep has a member that is, behind members that can be read. -/
theorem exists_member_of_endless {fields : List (String × TypeExpr)}
    (h : Endless (resolveMembers (d.lookUp depth) s fields)) :
    ∃ before f after, fields = before ++ f :: after ∧ (∀ g ∈ before, d.Gives (.type s g.2)) ∧
      Endless (f.2.resolveWith (d.lookUp depth) s) := by
  obtain ⟨m, h⟩ := h
  induction fields with
  | nil => cases h
  | cons f fields ih =>
    unfold resolveMembers at h
    split at h
    · next fault hf =>
      cases h
      exact ⟨[], f, fields, rfl, nofun, m, hf⟩
    · next t ht =>
      split at h
      · next hrest =>
        cases h
        obtain ⟨before, g, after, rfl, hbefore, hg⟩ := ih hrest
        exact ⟨f :: before, g, after, rfl,
          List.forall_mem_cons.2 ⟨⟨depth, t, ht⟩, hbefore⟩, hg⟩
      · cases h

theorem exists_call_of_endless {n : String} (h : Endless (d.openStruct (d.lookUp depth) s n)) :
    ∃ f : String × TypeExpr, (∃ fields, d.structs.lookup n = some fields ∧ f ∈ fields) ∧
      n ∉ s.outside ∧ n ∉ s.inPlace ∧ d.Calls (.struct s n) (.type (s.within n) f.2) ∧
      Endless (f.2.resolveWith (d.lookUp depth) (s.within n)) := by
  obtain ⟨m, h⟩ := h
  unfold openStruct at h
  split at h
  · cases h
  · next fields hn =>
    by_cases hout : n ∈ s.outside
    · rw [if_pos hout] at h
      cases h
    by_cases hin : n ∈ s.inPlace
    · rw [if_neg hout, if_pos hin] at h
      cases h
    rw [if_neg hout, if_neg hin] at h
    split at h
    · next hmembers =>
      cases h
      obtain ⟨before, f, after, rfl, hbefore, hf⟩ := exists_member_of_endless ⟨m, hmembers⟩
      exact ⟨f, ⟨_, hn, List.mem_append_right _ List.mem_cons_self⟩, hout, hin,
        .member hn hout hin hbefore, hf⟩
    · cases h
    · cases h

end

/-- **Reading ends unless a name comes back**, at the depth that is left. -/
theorem Trail.not_endless (hd : d.EndsAlone) : ∀ {depth : Nat} {e : TypeExpr} {s : Surroundings}
    {passed : List String}, d.Trail depth s e passed → ¬d.LeadsBack (.type s e) →
      ¬Endless (e.resolveWith (d.lookUp depth) s) := by
  intro depth
  induction depth with
  | zero => intro e s passed h; exact absurd h.enough (Nat.not_lt_zero _)
  | succ depth ih =>
    -- what a struct has in it is one name deeper
    have hopen {e : TypeExpr} {s : Surroundings} {passed : List String} {n : String}
        (h : d.Trail (depth + 1) s e passed) (hnot : ¬d.LeadsBack (.struct s n)) :
        ¬Endless (d.openStruct (d.lookUp depth) s n) := by
      intro hend
      obtain ⟨f, ⟨fields, hn, hf⟩, hout, hin, hcall, hend⟩ := exists_call_of_endless hend
      refine ih (h.member (by rw [hn]; rfl) hout hin (hd.fields hn f hf)) (fun hback => ?_) hend
      exact hnot (hback.of_calls hcall)
    intro e
    induction e with
    | bad fault =>
      rintro s passed h - ⟨n, hn⟩
      cases hn
      exact h.endsAlone n rfl
    | builtin | enumName | contractName => intro s passed _ _; exact not_endless_ok
    | dynamicArray e ihElement =>
      rintro s passed h hnot ⟨n, hn⟩
      unfold TypeExpr.resolveWith at hn
      split at hn
      · cases hn
      · next hend =>
        cases hn
        exact ihElement (h.part .dynamicArray h.endsAlone (.inr rfl))
          (fun hback => hnot (hback.of_calls (.unfold .dynamicArray))) ⟨n, hend⟩
    | fixedArray e length ihElement =>
      rintro s passed h hnot ⟨n, hn⟩
      unfold TypeExpr.resolveWith at hn
      split at hn
      · cases hn
      · next hend =>
        cases hn
        exact ihElement (h.part .fixedArray h.endsAlone (.inl rfl))
          (fun hback => hnot (hback.of_calls (.unfold .fixedArray))) ⟨n, hend⟩
    | mapping k v ihKey ihValue =>
      rintro s passed h hnot ⟨n, hn⟩
      unfold TypeExpr.resolveWith at hn
      split at hn
      · next hend =>
        cases hn
        exact ihKey (h.part .key h.endsAlone.1 (.inr rfl))
          (fun hback => hnot (hback.of_calls (.unfold .key))) ⟨n, hend⟩
      · next t hkey =>
        split at hn
        · next hend =>
          cases hn
          have hnext : d.Unfolds (s, .mapping k v) (s.behindContainer, v) :=
            .value ⟨depth + 1, t, hkey⟩
          exact ihValue (h.part hnext h.endsAlone.2 (.inr rfl))
            (fun hback => hnot (hback.of_calls (.unfold hnext))) ⟨n, hend⟩
        · cases hn
    | structName n =>
      intro s passed h hnot
      exact hopen h fun hback => hnot (hback.of_calls .structName)
    | name n =>
      intro s passed h hnot
      show ¬Endless (d.lookUp (depth + 1) s (.bare n))
      rcases lookUp_bare_cases d n with
        ⟨hn, heq⟩ | ⟨e, hn, hne, he, heq⟩ | ⟨-, -, r, hr, heq⟩
      · rw [heq]
        exact hopen h fun hback => hnot (hback.of_calls (.bareStruct hn))
      · have hnext : d.Unfolds (s, .name n) (s, e) := .valueType hn hne he
        rw [heq, endless_asValueType]
        exact ih (h.valueType hnot hnext he (hd.valueTypes he))
          fun hback => hnot (hback.of_calls (.unfold hnext))
      · rw [heq]
        exact hr

end Declarations

end

/-! ## Documents -/

theorem TypeExpr.ofWord_endsAlone (cs : List Char) : (ofWord cs).EndsAlone := by
  simp only [ofWord]
  split
  · trivial
  · split
    · trivial
    · split <;> trivial

theorem readLength_ne_endless {cs : List Char} {n : String} :
    TypeExpr.readLength cs ≠ .error (.endless n) := by
  unfold TypeExpr.readLength
  split
  · exact nofun
  · split
    · exact nofun
    · exact nofun

/-- Cutting a text finds other faults. -/
theorem TypeExpr.ofText_endsAlone (cs : List Char) : (ofText cs).EndsAlone := by
  fun_induction ofText cs with
  | case3 => exact ofWord_endsAlone _
  | case4 _ _ _ _ _ hf => exact fun n hn => readLength_ne_endless (hn ▸ hf)
  | case5 _ _ _ _ _ ih | case6 _ _ _ _ _ _ ih => exact ih
  | case9 _ _ _ _ _ _ _ _ ihKey ihValue => exact ⟨ihKey, ihValue⟩
  | _ =>
    intro n hn
    cases hn

/-- What a result is at fault for. -/
def fault? : Except TypeFault Ty → Option TypeFault
  | .ok _ => none
  | .error fault => some fault

theorem fault?_eq_none {r : Except TypeFault Ty} : fault? r = none ↔ ∃ t, r = .ok t := by
  cases r with
  | ok t => exact ⟨fun _ => ⟨t, rfl⟩, fun _ => rfl⟩
  | error fault => exact ⟨nofun, nofun⟩

theorem fault?_eq_some {r : Except TypeFault Ty} {fault : TypeFault} (h : fault? r = some fault) :
    r = .error fault := by
  cases r with
  | ok t => cases h
  | error fault' => rw [Option.some.inj h]

def ModelFault.reason? {α : Type} : Except ModelFault α → Option TypeFault
  | .ok _ => none
  | .error fault => some fault.reason

namespace ModelText

/-- The types that a document asks to be read: its structs, then those of its variables. -/
def calls (raw : ModelText) : List Call :=
  raw.structs.map (fun s => .struct {} s.1) ++
    (raw.contracts.flatMap (·.declared)).map fun v => .type {} (.ofText v.type.toList)

/-- The calls with which the reading begins: each when the ones before it have given a type. -/
def Begins (raw : ModelText) (c : Call) : Prop :=
  ∃ before after, raw.calls = before ++ c :: after ∧ ∀ b ∈ before, raw.declarations.Gives b

/-- Reading the document goes down to some depth, and no further. -/
def Ends (raw : ModelText) : Prop :=
  ∃ depth, ∀ c, raw.Begins c → raw.declarations.Within depth c

/-- A depth that is enough for every document that is read to the end. -/
def callDepth (raw : ModelText) : Nat :=
  raw.declarations.nesting * (raw.declarations.height + 2) +
    (raw.calls.map Call.height).foldr max 0

section Faults

variable {d : Declarations}

theorem reason?_readStructs (names : List String) :
    ModelFault.reason? (readStructs d names) =
      names.findSome? fun n => fault? (d.readStruct n) := by
  induction names with
  | nil => rfl
  | cons name names ih =>
    rw [List.findSome?_cons, ← ih, readStructs]
    cases h : d.readStruct name with
    | error fault => rfl
    | ok t =>
      obtain ⟨ms, rfl⟩ := readStruct_eq_struct h
      cases readStructs d names with
      | error fault => rfl
      | ok table => rfl

theorem reason?_readVariables (contract : String) (vs : List VariableText) : ∀ index : Nat,
    ModelFault.reason? (readVariables d contract index vs) =
      vs.findSome? fun v => fault? (d.readType v.type) := by
  induction vs with
  | nil => intro index; rfl
  | cons v vs ih =>
    intro index
    rw [List.findSome?_cons, ← ih (index + 1), readVariables]
    cases d.readType v.type with
    | error fault => rfl
    | ok t =>
      cases readVariables d contract (index + 1) vs with
      | error fault => rfl
      | ok us => rfl

theorem reason?_readContracts (cs : List ContractText) :
    ModelFault.reason? (readContracts d cs) =
      (cs.flatMap (·.declared)).findSome? fun v => fault? (d.readType v.type) := by
  induction cs with
  | nil => rfl
  | cons c cs ih =>
    rw [List.flatMap_cons, List.findSome?_append, ← ih, ← reason?_readVariables c.name _ 0,
      readContracts]
    cases readVariables d c.name 0 c.declared with
    | error fault => rfl
    | ok vs =>
      cases readContracts d cs with
      | error fault => rfl
      | ok cs' => rfl

/-- **The first fault of the calls is the fault of the document.** -/
theorem reason?_read (raw : ModelText) : ModelFault.reason? raw.read =
    raw.calls.findSome? fun c => fault? (c.outcome raw.declarations raw.declarations.nesting) := by
  have hstructs := reason?_readStructs (d := raw.declarations) (raw.structs.map (·.1))
  have hcontracts := reason?_readContracts (d := raw.declarations) raw.contracts
  rw [List.findSome?_map] at hstructs
  rw [calls, List.findSome?_append, List.findSome?_map, List.findSome?_map]
  simp only [Function.comp_def] at *
  show _ = (raw.structs.findSome? fun s => fault? (raw.declarations.readStruct s.1)).or
    ((raw.contracts.flatMap (·.declared)).findSome? fun v =>
      fault? (raw.declarations.readType v.type))
  rw [← hstructs, ← hcontracts, read]
  cases readStructs raw.declarations (raw.structs.map (·.1)) with
  | error fault => rfl
  | ok structs =>
    cases readContracts raw.declarations raw.contracts with
    | error fault => rfl
    | ok cs => rfl

end Faults

/-! ### Calls of a document -/

section Calls

variable {raw : ModelText} {c : Call}

theorem endsAlone (raw : ModelText) : raw.declarations.EndsAlone where
  fields {n fields} h f hf := by
    obtain ⟨texts, -, rfl⟩ := lookup_structs.1 h
    obtain ⟨text, -, rfl⟩ := List.mem_map.1 hf
    exact TypeExpr.ofText_endsAlone _
  valueTypes {n e} h := by
    simp only [declarations, SortedMap.lookup_map fun text : String => TypeExpr.ofText text.toList,
      Option.map_eq_some_iff] at h
    obtain ⟨text, -, rfl⟩ := h
    exact TypeExpr.ofText_endsAlone _

theorem mem_calls : c ∈ raw.calls ↔ (∃ n ∈ raw.structs.map (·.1), .struct {} n = c) ∨
    ∃ v ∈ raw.contracts.flatMap (·.declared), .type {} (.ofText v.type.toList) = c := by
  rw [calls, List.mem_append, List.mem_map, List.mem_map]
  simp only [List.mem_map, exists_exists_and_eq_and]

/-- A call that comes to no name that comes back is at its end before the depth is. -/
theorem not_endless_outcome (hc : c ∈ raw.calls) (hnot : ¬raw.declarations.LeadsBack c) :
    ¬Endless (c.outcome raw.declarations raw.declarations.nesting) := by
  rcases mem_calls.1 hc with ⟨n, -, rfl⟩ | ⟨v, -, rfl⟩
  · have hstart : raw.declarations.Trail raw.declarations.nesting {} (.structName n) [] :=
      .start trivial
    refine hstart.not_endless raw.endsAlone ?_
    rintro ⟨s, m, hto, hback⟩
    rcases ReflTransGen.cases_head hto with heq | ⟨c', hcall, hto⟩
    · cases heq
    · cases hcall with
      | unfold hnext => cases hnext
      | structName => exact hnot ⟨s, m, hto, hback⟩
  · exact (Declarations.Trail.start (TypeExpr.ofText_endsAlone _)).not_endless raw.endsAlone hnot

/-- A call that comes to an end is never deeper than the document allows for. -/
theorem within_callDepth (hc : c ∈ raw.calls)
    (h : ¬Endless (c.outcome raw.declarations raw.declarations.nesting)) :
    raw.declarations.Within raw.callDepth c :=
  (Declarations.within_outcome h).mono (Nat.add_le_add_left
    (List.le_max_of_le' 0 (List.mem_map_of_mem hc) (Nat.le_refl _)) _)

/-- What gives a type at some depth gives it at the depth at which documents are read. -/
theorem gives_iff (hc : c ∈ raw.calls) : raw.declarations.Gives c ↔
    ∃ t, c.outcome raw.declarations raw.declarations.nesting = .ok t := by
  refine ⟨fun h => ?_, fun ⟨t, ht⟩ => ⟨_, t, ht⟩⟩
  obtain ⟨depth, t, ht⟩ := h
  have hwithin := Declarations.within_outcome (ht ▸ not_endless_ok : ¬Endless (c.outcome _ depth))
  have hends := not_endless_outcome hc hwithin.not_leadsBack
  exact Declarations.Gives.exists_ok ⟨depth, t, ht⟩ hends

/-- **Reading a document is too deep exactly if one of the calls is with which it begins.** -/
theorem read_endless_iff : (∃ n, ModelFault.reason? raw.read = some (.endless n)) ↔
    ∃ c, raw.Begins c ∧ Endless (c.outcome raw.declarations raw.declarations.nesting) := by
  simp only [reason?_read, List.findSome?_eq_some_iff]
  constructor
  · rintro ⟨n, before, c, after, hcalls, hc, hbefore⟩
    refine ⟨c, ⟨before, after, hcalls, fun b hb => ?_⟩, n, fault?_eq_some hc⟩
    have hmem : b ∈ raw.calls := hcalls ▸ List.mem_append_left _ hb
    exact (gives_iff hmem).2 (fault?_eq_none.1 (hbefore b hb))
  · rintro ⟨c, ⟨before, after, hcalls, hbefore⟩, n, hc⟩
    refine ⟨n, before, c, after, hcalls, by rw [hc]; rfl, fun b hb => ?_⟩
    have hmem : b ∈ raw.calls := hcalls ▸ List.mem_append_left _ hb
    exact fault?_eq_none.2 ((gives_iff hmem).1 (hbefore b hb))

theorem Begins.mem (h : raw.Begins c) : c ∈ raw.calls := by
  obtain ⟨before, after, hcalls, -⟩ := h
  exact hcalls ▸ List.mem_append_right _ List.mem_cons_self

/-- A document is read to the end exactly if it comes to no name that leads back to itself. -/
theorem ends_iff_leadsBack : raw.Ends ↔ ∀ c, raw.Begins c → ¬raw.declarations.LeadsBack c := by
  constructor
  · rintro ⟨depth, h⟩ c hc
    exact (h c hc).not_leadsBack
  · intro h
    exact ⟨raw.callDepth, fun c hc => within_callDepth hc.mem (not_endless_outcome hc.mem (h c hc))⟩

theorem Ends.within_callDepth (h : raw.Ends) (hc : raw.Begins c) :
    raw.declarations.Within raw.callDepth c :=
  ModelText.within_callDepth hc.mem (not_endless_outcome hc.mem (ends_iff_leadsBack.1 h c hc))

theorem ends_iff_reason : raw.Ends ↔ ∀ n, ModelFault.reason? raw.read ≠ some (.endless n) := by
  rw [← not_exists, ← not_iff_not, Classical.not_not, read_endless_iff, ends_iff_leadsBack]
  simp only [not_forall, Classical.not_not]
  constructor
  · rintro ⟨c, hc, hback⟩
    refine ⟨c, hc, Classical.not_not.1 fun hends => ?_⟩
    exact (within_callDepth hc.mem hends).not_leadsBack hback
  · rintro ⟨c, hc, hend⟩
    exact ⟨c, hc, Classical.not_not.1 fun hnot => not_endless_outcome hc.mem hnot hend⟩

/-- Where value types are declared as built-in types, as the source language wants it, nothing can
come back. -/
theorem ends_of_builtin (h : ∀ v ∈ raw.valueTypes, ∃ t, TypeExpr.ofText v.2.toList = .builtin t) :
    raw.Ends := by
  refine ends_iff_leadsBack.2 fun c _ => ?_
  rintro ⟨s, n, -, hback⟩
  obtain ⟨⟨s', e⟩, hnext, hrest⟩ := TransGen.head'_iff.1 hback
  cases hnext with
  | valueType _ _ declared =>
    simp only [declarations, SortedMap.lookup_map fun text : String => TypeExpr.ofText text.toList,
      Option.map_eq_some_iff] at declared
    obtain ⟨text, hl, rfl⟩ := declared
    obtain ⟨t, ht⟩ := h _ (SortedMap.mem_of_lookup hl)
    rw [ht] at hrest
    rcases ReflTransGen.cases_head hrest with heq | ⟨_, hnext, -⟩
    · cases heq
    · cases hnext

end Calls

end ModelText

/-- **Reading a document ends unless it comes to a value type that leads back to its own name**
without a struct in between. Then there are at most `ModelText.callDepth` calls inside one another,
and there is a model or a fault of the document; else no number of calls is enough. -/
theorem Model.parse_ends_iff {text : String} {raw : ModelText}
    (hread : (Json.parse text).bind ModelText.ofJson? = some raw) :
    (raw.Ends ↔ ∀ c, raw.Begins c → ¬raw.declarations.LeadsBack c) ∧
      (raw.Ends ↔ ∀ fault n, Model.parse text = .error (.invalidModel fault) →
        fault.reason ≠ .endless n) ∧
      (raw.Ends → ∀ c, raw.Begins c → raw.declarations.Within raw.callDepth c) := by
  refine ⟨ModelText.ends_iff_leadsBack, ?_, fun h c hc => h.within_callDepth hc⟩
  rw [ModelText.ends_iff_reason, Model.parse_eq hread]
  cases raw.read with
  | ok m =>
    refine iff_of_true (fun n h => ?_) fun fault n h => ?_
    · cases h
    · cases h
  | error fault =>
    constructor
    · intro h fault' n heq hreason
      cases heq
      exact h n (congrArg some hreason)
    · intro h n hreason
      exact h fault n rfl (Option.some.inj hreason)

/-! ## A value type that is declared as itself -/

namespace Sample

def selfText : String :=
  r#"{"contracts":[{"name":"A","variables":[{"name":"x","type":"T"}]}],"value_types":{"T":"T"}}"#

def self : ModelText where
  contracts := [⟨"A", [], [⟨"x", "T", false, false⟩]⟩]
  structs := []
  enums := []
  valueTypes := [("T", "T")]

theorem ofJson?_selfText : (Json.parse selfText).bind ModelText.ofJson? = some self := by
  decide +kernel

theorem reason?_self : ModelFault.reason? self.read = some (.endless "T") := by
  decide +kernel

theorem self_endless : ∃ fault, Model.parse selfText = .error (.invalidModel fault) ∧
    fault.reason = .endless "T" := by
  rw [Model.parse_eq ofJson?_selfText]
  have hreason := reason?_self
  cases hr : self.read with
  | ok m => rw [hr] at hreason; cases hreason
  | error fault =>
    rw [hr] at hreason
    exact ⟨fault, rfl, Option.some.inj hreason⟩

end Sample

/-- **Not every document is read to the end**: no number of calls is enough for this one. -/
theorem Model.parse_selfText_endless :
    (∃ fault, Model.parse Sample.selfText = .error (.invalidModel fault) ∧
      fault.reason = .endless "T") ∧
      ∀ depth, ∃ c, Sample.self.Begins c ∧ ¬Sample.self.declarations.Within depth c := by
  refine ⟨Sample.self_endless, fun depth => ?_⟩
  have hnot : ¬Sample.self.Ends := fun h =>
    ModelText.ends_iff_reason.1 h "T" Sample.reason?_self
  by_contra hnone
  refine hnot ⟨depth, fun c hc => ?_⟩
  by_contra hdeep
  exact hnone ⟨c, hc, hdeep⟩

/-- One document is not read to the end, the other is. -/
theorem Model.parse_ends_iff_samples : ¬Sample.self.Ends ∧ Sample.tree.Ends := by
  have htree : (Json.parse Sample.treeText).bind ModelText.ofJson? = some Sample.tree := by
    decide +kernel
  constructor
  · intro h
    obtain ⟨fault, hparse, hreason⟩ := Sample.self_endless
    exact (parse_ends_iff Sample.ofJson?_selfText).2.1.1 h fault "T" hparse hreason
  · refine (parse_ends_iff htree).2.1.2 fun fault n hparse => ?_
    have hok : Sample.tree.read.toOption.isSome := by decide +kernel
    rw [Model.parse_eq htree] at hparse
    cases hr : Sample.tree.read with
    | ok m => rw [hr] at hparse; cases hparse
    | error fault => rw [hr] at hok; cases hok

end StorageAtlas
