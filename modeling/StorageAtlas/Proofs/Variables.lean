import StorageAtlas.Layout.Placement
import StorageAtlas.Proofs.Loading

/-!
# The variables of a contract

Placing variables makes their types ready and runs one cursor over the room that they then take
(`placeVariables_locations`). In a model that was parsed every variable placed has a settled type
that reads some text (`Model.placements_read`).
-/

namespace StorageAtlas

section Placing

variable {structs : StructTable}

/-- What is placed is the first variable, in view of those behind it, and then these. -/
theorem placeVariables_cons {v : StateVariable} {vs : List StateVariable} {c : Cursor}
    {ps : List Placement} : placeVariables structs c (v :: vs) = .ok ps ↔
      ∃ t rest, materialize structs v.type = .ok t ∧
        placeVariables structs (c.place t.footprint).2 vs = .ok rest ∧
        ps = ⟨v.reportedName vs, v.contract, t, (c.place t.footprint).1⟩ :: rest := by
  rw [placeVariables]
  constructor
  · intro h
    split at h
    · exact nomatch h
    · next t ht =>
      split at h
      · exact nomatch h
      · next rest hrest => exact ⟨t, rest, ht, hrest, (Except.ok.inj h).symm⟩
  · rintro ⟨t, rest, ht, hrest, rfl⟩
    simp only [ht, hrest]

/-- **Variables lie where a cursor puts the room of their types.** -/
theorem placeVariables_locations {vs : List StateVariable} : ∀ {c : Cursor} {ps : List Placement},
    placeVariables structs c vs = .ok ps →
      ps.map (·.location) = (c.placeAll (ps.map (·.type.footprint))).1 := by
  induction vs with
  | nil =>
    intro c ps h
    obtain rfl := Except.ok.inj h
    rfl
  | cons v vs ih =>
    intro c ps h
    obtain ⟨t, rest, -, hrest, rfl⟩ := placeVariables_cons.1 h
    simp only [List.map_cons, Cursor.placeAll, ih hrest]

theorem placeVariables_types {vs : List StateVariable} : ∀ {c : Cursor} {ps : List Placement},
    placeVariables structs c vs = .ok ps →
      ∀ p ∈ ps, ∃ v ∈ vs, materialize structs v.type = .ok p.type := by
  induction vs with
  | nil =>
    intro c ps h
    obtain rfl := Except.ok.inj h
    exact nofun
  | cons v vs ih =>
    intro c ps h
    obtain ⟨t, rest, ht, hrest, rfl⟩ := placeVariables_cons.1 h
    refine List.forall_mem_cons.2 ⟨⟨v, List.mem_cons_self, ht⟩, fun p hp => ?_⟩
    obtain ⟨v', hv', hm⟩ := ih hrest p hp
    exact ⟨v', List.mem_cons_of_mem _ hv', hm⟩

end Placing

namespace Model

variable {m : Model}

theorem mem_of_contract {name : String} {c : Contract} (h : m.contract name = .ok c) :
    c ∈ m.contracts := by
  unfold contract at h
  split at h
  · next hc =>
    obtain rfl := Except.ok.inj h
    exact List.mem_of_find?_eq_some hc
  · exact nomatch h

theorem Contract.mem_declared {c : Contract} {v : StateVariable} (h : v ∈ c.storageVariables) :
    v ∈ c.declared :=
  (List.mem_filter.1 h).1

theorem mem_baseVariables {self : String} {bases : List String} : ∀ {vs : List StateVariable},
    m.baseVariables self bases = .ok vs → ∀ v ∈ vs, ∃ c ∈ m.contracts, v ∈ c.declared := by
  induction bases with
  | nil =>
    intro vs h
    obtain rfl := Except.ok.inj h
    exact nofun
  | cons base bases ih =>
    intro vs h
    unfold baseVariables at h
    split at h
    · exact ih h
    · split at h
      · exact nomatch h
      · next c hc =>
        split at h
        · exact nomatch h
        · next vs hvs =>
          obtain rfl := Except.ok.inj h
          intro v hv
          rcases List.mem_append.1 hv with hv | hv
          · exact ⟨c, mem_of_contract hc, Contract.mem_declared hv⟩
          · exact ih hvs v hv

theorem mem_storageVariables {name : String} {vs : List StateVariable}
    (h : m.storageVariables name = .ok vs) : ∀ v ∈ vs, ∃ c ∈ m.contracts, v ∈ c.declared := by
  unfold storageVariables at h
  split at h
  · exact nomatch h
  · next c hc =>
    split at h
    · exact nomatch h
    · next vs hvs =>
      obtain rfl := Except.ok.inj h
      intro v hv
      rcases List.mem_append.1 hv with hv | hv
      · exact mem_baseVariables hvs v hv
      · exact ⟨c, mem_of_contract hc, Contract.mem_declared hv⟩

/-- **The types of placed variables are settled**, and read what was declared. -/
theorem placements_read {d : Declarations} (hd : d.Describes m) {contract : String}
    {ps : List Placement} (h : m.placements contract = .ok ps) :
    ∀ p ∈ ps, ∃ e, p.type.Reads d e ∧ p.type.Settled := by
  unfold placements at h
  split at h
  · exact nomatch h
  · next vs hvs =>
    intro p hp
    obtain ⟨v, hv, hm⟩ := placeVariables_types h p hp
    obtain ⟨c, hc, hdecl⟩ := mem_storageVariables hvs v hv
    obtain ⟨e, he⟩ := hd.reads hc hdecl
    obtain ⟨u, hu, hr, hset⟩ := materialize_reads hd.structs he
    obtain rfl := Except.ok.inj (hm.symm.trans hu)
    exact ⟨e, hr, hset⟩

theorem placements_locations {contract : String} {ps : List Placement}
    (h : m.placements contract = .ok ps) :
    ps.map (·.location) = ((Cursor.mk 0 0).placeAll (ps.map (·.type.footprint))).1 := by
  unfold placements at h
  split at h
  · exact nomatch h
  · exact placeVariables_locations h

end Model

end StorageAtlas
