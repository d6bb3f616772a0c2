import StorageAtlas.Proofs.Loading
import StorageAtlas.Proofs.Packing

/-!
# Where steps lead, and what is found there

`Leads` says in full what one step can do (`applyStep_eq_ok_iff`). From a tree that reads a text and
is settled, every step leads to another one (`walk_reads`); so wherever a path ends in a model that
was parsed, the type there reads some text of the document.

`derive_oneLayout`: a struct has one layout. Whatever containers and references a path has come
through, the members of the struct at its end lie as those of the struct's definition do.
-/

namespace StorageAtlas

/-! ## One step -/

/-- What one step into a value does, by the type that is really stored. -/
inductive Leads (here : Location) : Ty → AccessStep → Location × Ty × AccessStep → Prop
  | key {k v : Ty} {literal : String} {bs : Bytes} (h : encodeKey k literal = .ok bs) :
    Leads here (.mapping k v) (.key literal) (⟨mappingSlot bs here.slot, 0⟩, v, .key literal)
  | number {k v : Ty} {i : Word} {bs : Bytes} (h : encodeKey k (Word.text i) = .ok bs) :
    Leads here (.mapping k v) (.index i) (⟨mappingSlot bs here.slot, 0⟩, v, .index i)
  | item {element : Ty} {step : AccessStep} {i : Word} (h : stepIndex step = .ok i) :
    Leads here (.dynamicArray element) step
      (elementLocation (dataSlot here.slot) element i, element, .index i)
  | element {element : Ty} {length : UInt64} {step : AccessStep} {i : Word}
    (h : stepIndex step = .ok i) (hi : i.toNat < length.toNat) :
    Leads here (.fixedArray element length) step
      (elementLocation here.slot element i, element, .index i)
  | member {n field : String} {ms : List Member} {m : PlacedMember}
    (h : findPlaced? ms field = some m) :
    Leads here (.struct n ms) (.field field) (m.location.within here.slot, m.type, .field field)

theorem stepIndex_field (field : String) (i : Word) : stepIndex (.field field) ≠ .ok i :=
  nofun

theorem Leads.of_applyStep {here : Location} {t : Ty} {step : AccessStep}
    {r : Location × Ty × AccessStep} (h : applyStep here t step = .ok r) :
    Leads here t.stored step r := by
  unfold applyStep at h
  split at h
  · next ht =>
    split at h
    · next hk => obtain rfl := Except.ok.inj h; exact ht ▸ .key hk
    · exact nomatch h
  · next ht =>
    split at h
    · next hk => obtain rfl := Except.ok.inj h; exact ht ▸ .number hk
    · exact nomatch h
  · next ht =>
    split at h
    · next hi => obtain rfl := Except.ok.inj h; exact ht ▸ .item hi
    · exact nomatch h
  · next ht =>
    split at h
    · next hi => obtain rfl := Except.ok.inj h; exact ht ▸ .item hi
    · exact nomatch h
  · next ht =>
    split at h
    · next hi =>
      split at h
      · next hlt => obtain rfl := Except.ok.inj h; exact ht ▸ .element hi hlt
      · exact nomatch h
    · exact nomatch h
  · next ht =>
    split at h
    · next hi =>
      split at h
      · next hlt => obtain rfl := Except.ok.inj h; exact ht ▸ .element hi hlt
      · exact nomatch h
    · exact nomatch h
  · next ht =>
    split at h
    · next hm => obtain rfl := Except.ok.inj h; exact ht ▸ .member hm
    · exact nomatch h
  · exact nomatch h

theorem Leads.applyStep {here : Location} {t : Ty} {step : AccessStep}
    {r : Location × Ty × AccessStep} (h : Leads here t.stored step r) :
    applyStep here t step = .ok r := by
  unfold StorageAtlas.applyStep
  generalize t.stored = s at h
  cases h with
  | key h => simp only [h]
  | number h => simp only [h]
  | @item _ step _ h =>
    cases step with
    | field n => exact absurd h (stepIndex_field n _)
    | _ => simp only [h]
  | @element _ _ step _ h hi =>
    cases step with
    | field n => exact absurd h (stepIndex_field n _)
    | _ => simp only [h, hi, ↓reduceIte]
  | member h => simp only [h]

/-- **A step succeeds exactly where it leads somewhere**, and gives what is there. -/
theorem applyStep_eq_ok_iff {here : Location} {t : Ty} {step : AccessStep}
    {r : Location × Ty × AccessStep} :
    applyStep here t step = .ok r ↔ Leads here t.stored step r :=
  ⟨Leads.of_applyStep, Leads.applyStep⟩

/-! ## Types along a path -/

theorem Ty.stored_of_isValueType : ∀ {t : Ty}, t.isValueType →
    (∃ a, t.stored = .elementary a) ∨ ∃ external, t.stored = .function external
  | .elementary a, _ => .inl ⟨a, rfl⟩
  | .function external, _ => .inr ⟨external, rfl⟩
  | .userDefined _ _ u, h => stored_of_isValueType (t := u) h
  | .fixedArray _ _, h | .struct _ _, h | .structRef _, h | .bytes, h | .string, h
  | .dynamicArray _, h | .mapping _ _, h => nomatch h

/-- No step leads into a value type. -/
theorem Leads.not_isValueType {here : Location} {t : Ty} {step : AccessStep}
    {r : Location × Ty × AccessStep} (h : Leads here t.stored step r) : ¬t.isValueType := by
  intro ht
  rcases Ty.stored_of_isValueType ht with ⟨a, ha⟩ | ⟨external, he⟩
  · rw [ha] at h; exact nomatch h
  · rw [he] at h; exact nomatch h

theorem Ty.Reads.stored_eq {d : Declarations} {t : Ty} {e : TypeExpr} (h : t.Reads d e)
    (ht : ¬t.isValueType) : t.stored = t := by
  cases t with
  | userDefined n kind u =>
    cases kind with
    | contract => obtain ⟨-, rfl⟩ := h; exact absurd rfl ht
    | enum => obtain ⟨-, rfl⟩ := h; exact absurd rfl ht
    | valueType => exact absurd h.2.1 ht
  | _ => rfl

theorem MembersRead.exists_reads {d : Declarations} {ms : List Member}
    {fields : List (String × TypeExpr)} (h : MembersRead d ms fields) {m : Member} (hm : m ∈ ms) :
    ∃ e, m.2.Reads d e := by
  induction ms generalizing fields with
  | nil => exact absurd hm List.not_mem_nil
  | cons m' ms ih =>
    obtain ⟨e, rest, -, ht, hms⟩ := h
    rcases List.mem_cons.1 hm with rfl | hm
    · exact ⟨e, ht⟩
    · exact ih hms hm

theorem mem_of_mem_placeMembers {ms : List Member} {m : PlacedMember} (h : m ∈ placeMembers ms) :
    (m.name, m.type) ∈ ms := by
  have := List.mem_map_of_mem (f := fun m : PlacedMember => (m.name, m.type)) h
  rwa [placeMembers_members] at this

theorem Leads.reads {d : Declarations} {here : Location} {t : Ty} {e : TypeExpr}
    {step : AccessStep} {r : Location × Ty × AccessStep} (h : Leads here t.stored step r)
    (ht : t.Reads d e) : ∃ f, r.2.1.Reads d f := by
  rw [ht.stored_eq h.not_isValueType] at h
  cases h with
  | key _ | number _ => obtain ⟨f, g, -, -, hv⟩ := ht; exact ⟨g, hv⟩
  | item _ | element _ _ => obtain ⟨f, -, hf⟩ := ht; exact ⟨f, hf⟩
  | member hm =>
    obtain ⟨-, fields, -, hms⟩ := ht
    exact hms.exists_reads (mem_of_mem_placeMembers (List.mem_of_find?_eq_some hm))

/-- A walk that takes a step succeeds by taking it, making the type there ready and walking on. -/
theorem walk_cons {structs : StructTable} {here : Location} {t : Ty} {step : AccessStep}
    {steps : List AccessStep} {r : Derived} (h : walk structs here t (step :: steps) = .ok r) :
    ∃ next u taken v r', applyStep here t step = .ok (next, u, taken) ∧
      materialize structs u = .ok v ∧ walk structs next v steps = .ok r' ∧
      r = { r' with steps := taken :: r'.steps } := by
  unfold walk at h
  split at h
  · exact nomatch h
  · next next u taken hstep =>
    split at h
    · exact nomatch h
    · next v hv =>
      split at h
      · exact nomatch h
      · next r' hr' => exact ⟨next, u, taken, v, r', hstep, hv, hr', (Except.ok.inj h).symm⟩

/-- Where the second of two paths leads, with the steps of both. -/
def Derived.andThen (d next : Derived) : Derived := { next with steps := d.steps ++ next.steps }

/-- A walk in two parts ends where the second does, and fails where one of them fails. -/
theorem walk_append_eq {structs : StructTable} {steps rest : List AccessStep} :
    ∀ {here : Location} {t : Ty}, walk structs here t (steps ++ rest) =
      (walk structs here t steps).bind fun d =>
        (walk structs d.location d.type rest).map d.andThen := by
  induction steps with
  | nil =>
    intro here t
    show walk structs here t rest = (walk structs here t rest).map (Derived.andThen ⟨here, t, []⟩)
    cases walk structs here t rest <;> rfl
  | cons step steps ih =>
    intro here t
    simp only [List.cons_append, walk]
    cases applyStep here t step with
    | error e => rfl
    | ok r =>
      obtain ⟨next, u, taken⟩ := r
      cases hv : materialize structs u with
      | error e => simp only [hv]; rfl
      | ok v =>
        simp only [hv, ih]
        cases walk structs next v steps with
        | error e => rfl
        | ok d =>
          cases hd : walk structs d.location d.type rest <;>
            simp only [Except.bind, Except.map, Derived.andThen, hd, List.cons_append]

theorem walk_append {structs : StructTable} {steps rest : List AccessStep} {here : Location}
    {t : Ty} {r r' : Derived} (h : walk structs here t steps = .ok r)
    (hrest : walk structs r.location r.type rest = .ok r') :
    walk structs here t (steps ++ rest) = .ok (r.andThen r') := by
  rw [walk_append_eq, h]
  show (walk structs r.location r.type rest).map r.andThen = _
  rw [hrest]
  rfl

/-- Where steps lead, one more step leads on from. -/
theorem walk_concat {structs : StructTable} {steps : List AccessStep} {step taken : AccessStep}
    {next : Location} {u v : Ty} {here : Location} {t : Ty} {r : Derived}
    (h : walk structs here t steps = .ok r)
    (hstep : applyStep r.location r.type step = .ok (next, u, taken))
    (hu : materialize structs u = .ok v) :
    walk structs here t (steps ++ [step]) = .ok ⟨next, v, r.steps ++ [taken]⟩ := by
  have hlast : walk structs r.location r.type [step] = .ok ⟨next, v, [taken]⟩ := by
    simp only [walk, hstep, hu]
  exact walk_append h hlast

section

variable {d : Declarations} {structs : StructTable} (hs : d.Defines structs)

include hs

/-- **Wherever steps lead, there is a settled tree of some text.** -/
theorem walk_reads {steps : List AccessStep} : ∀ {here : Location} {t : Ty} {e : TypeExpr}
    {r : Derived}, t.Reads d e → t.Settled → walk structs here t steps = .ok r →
      ∃ f, r.type.Reads d f ∧ r.type.Settled := by
  induction steps with
  | nil =>
    intro here t e r ht hsettled h
    obtain rfl := Except.ok.inj h
    exact ⟨e, ht, hsettled⟩
  | cons step steps ih =>
    intro here t e r ht hsettled h
    obtain ⟨next, u, taken, v, r', hstep, hv, hr', rfl⟩ := walk_cons h
    obtain ⟨f, hf⟩ := (Leads.of_applyStep hstep).reads ht
    obtain ⟨v', hv', hvr, hvs⟩ := materialize_reads hs hf
    obtain rfl := Except.ok.inj (hv.symm.trans hv')
    show ∃ f, r'.type.Reads d f ∧ r'.type.Settled
    exact ih hvr hvs hr'

theorem derive_reads {base : Location} {t : Ty} {e : TypeExpr} {steps : List AccessStep}
    {limit : Nat} {r : Derived} (ht : t.Reads d e) (h : derive base t steps limit structs = .ok r) :
    ∃ f, r.type.Reads d f ∧ r.type.Settled := by
  obtain ⟨u, hu, hur, hus⟩ := materialize_reads hs ht
  unfold derive at h
  simp only [hu] at h
  exact walk_reads hs hur hus h

end

/-! ## One layout for each struct -/

/-- The members of a struct by name, with their places. -/
def memberPlaces (ms : List Member) : List (String × Location) :=
  (placeMembers ms).map fun m => (m.name, m.location)

/-- Members of the same names and rooms lie at the same places. -/
theorem memberPlaces_congr {ms ns : List Member} (hnames : ms.map Prod.fst = ns.map Prod.fst)
    (hrooms : footprints ms = footprints ns) : memberPlaces ms = memberPlaces ns := by
  rw [memberPlaces, memberPlaces, placeMembers_places, placeMembers_places, memberLocations,
    memberLocations, hnames, hrooms]

/-- **One layout per struct.** Where a path ends at a struct, no struct is only named in place in
it, and its members have the names, places and slots of the struct's definition, whichever way the
path has come. -/
theorem derive_oneLayout {text : String} {m : Model} (hm : Model.parse text = .ok m) {c : Contract}
    (hc : c ∈ m.contracts) {v : StateVariable} (hv : v ∈ c.declared) {base : Location}
    {steps : List AccessStep} {limit : Nat} {r : Derived}
    (hr : derive base v.type steps limit m.structs = .ok r) {n : String} {ms : List Member}
    (ht : r.type = .struct n ms) :
    r.type.SpelledOut ∧ ∃ definition, m.structs.lookup n = some definition ∧
      memberPlaces ms = memberPlaces definition ∧ memberSlots ms = memberSlots definition := by
  obtain ⟨d, hd⟩ := Model.parse_describes hm
  obtain ⟨e, he⟩ := hd.reads hc hv
  obtain ⟨f, hf, hsettled⟩ := derive_reads hd.structs he hr
  have hsp := hsettled.spelledOut
  refine ⟨hsp, ?_⟩
  rw [ht] at hf hsp
  obtain ⟨-, fields, hfields, hms⟩ := hf
  obtain ⟨definition, hdef, hread, hspelled⟩ := hd.structs.definition hfields
  obtain ⟨hrooms, hnames⟩ := footprints_eq_of_read hms hread hsp hspelled
  refine ⟨definition, hdef, memberPlaces_congr hnames hrooms, ?_⟩
  rw [memberSlots, memberSlots, hrooms]

/-- An element of the array in an element of the array: the struct that was only named is laid out
like its definition. -/
theorem derive_oneLayout_kids : Model.parse Sample.text = .ok Sample.model ∧
    ∃ r, derive ⟨0, 0⟩ Sample.array.type [.index 1, .field "kids", .key "7"] 20
      Sample.model.structs = .ok r ∧ r.type = .struct "S" Sample.members ∧ r.type.SpelledOut ∧
    ∃ definition, Sample.model.structs.lookup "S" = some definition ∧
      memberPlaces Sample.members = memberPlaces definition ∧
      memberSlots Sample.members = memberSlots definition := by
  obtain ⟨r, hr, ht⟩ : ∃ r, derive ⟨0, 0⟩ Sample.array.type [.index 1, .field "kids", .key "7"] 20
      Sample.model.structs = .ok r ∧ r.type = .struct "S" Sample.members := ⟨_, rfl, rfl⟩
  have hc : Sample.contract ∈ Sample.model.contracts := List.mem_cons_self
  have hv : Sample.array ∈ Sample.contract.declared := List.mem_cons_self
  exact ⟨Sample.parse_text, r, hr, ht, derive_oneLayout Sample.parse_text hc hv hr ht⟩

end StorageAtlas
