import StorageAtlas.Proofs.ReportedNames
import StorageAtlas.Proofs.Spans
import StorageAtlas.Proofs.Validation

/-!
# Which contracts have a layout

The variables of a well-formed contract can all be placed, and lie apart; what can stand against its
layout is that two records have one name. Since a dot stands both in the name of a hidden variable
and in front of a member, a member of a struct can be called like a hidden variable
(`Resolver.Clashes`). `fullLayout_exists_iff`: there is a layout exactly if none is.
-/

namespace StorageAtlas

/-! ## The variables of a contract -/

/-- The contract and its bases are different contracts of the model. Variables are told apart by
their names, and so are members. -/
structure Model.WellFormed (m : Model) (c : Contract) (bases : List Contract) : Prop where
  found : m.contract c.name = .ok c
  basesFound : List.Forall₂ (fun name b => m.contract name = .ok b) c.bases bases
  distinct : (c.name :: c.bases).Nodup
  declared : ∀ b ∈ c :: bases, (b.declared.map (·.name)).Nodup ∧
    ∀ v ∈ b.declared, isIdentifier v.name.toList
  members : m.structs.WellNamed

/-- The storage variables of contracts, those of the first contract first. -/
def variablesOf (contracts : List Contract) : List StateVariable :=
  contracts.flatMap (·.storageVariables)

theorem mem_variablesOf {contracts : List Contract} {v : StateVariable}
    (h : v ∈ variablesOf contracts) : ∃ c ∈ contracts, v ∈ c.declared := by
  obtain ⟨c, hc, hv⟩ := List.mem_flatMap.1 h
  exact ⟨c, hc, Model.Contract.mem_declared hv⟩

theorem nodup_variablesOf {contracts : List Contract} (hnames : (contracts.map (·.name)).Nodup)
    (howned : ∀ c ∈ contracts, ∀ v ∈ c.declared, v.contract = c.name)
    (hdeclared : ∀ c ∈ contracts, (c.declared.map (·.name)).Nodup) :
    ((variablesOf contracts).map fun v => (v.contract, v.name)).Nodup := by
  rw [variablesOf, List.map_flatMap, List.nodup_flatMap]
  refine ⟨fun c hc => ?_, ?_⟩
  · refine List.Nodup.of_map Prod.snd ?_
    rw [List.map_map]
    exact (hdeclared c hc).sublist (List.filter_sublist.map _)
  · refine (List.pairwise_map.1 hnames).imp_of_mem fun {c c'} hc hc' hne => ?_
    intro pair hmem hmem'
    obtain ⟨v, hv, rfl⟩ := List.mem_map.1 hmem
    obtain ⟨v', hv', heq⟩ := List.mem_map.1 hmem'
    have hv := howned c hc v (Model.Contract.mem_declared hv)
    have hv' := howned c' hc' v' (Model.Contract.mem_declared hv')
    exact hne (by rw [← hv, ← hv', (Prod.mk.inj heq).1])

namespace Model

variable {m : Model} {c : Contract} {bases : List Contract}

theorem name_of_contract {name : String} (h : m.contract name = .ok c) : c.name = name := by
  unfold contract at h
  split at h
  · next hc =>
    obtain rfl := Except.ok.inj h
    exact eq_of_find? hc
  · exact nomatch h

theorem baseVariables_eq {self : String} {names : List String}
    (h : List.Forall₂ (fun name b => m.contract name = .ok b) names bases) (hself : self ∉ names) :
    m.baseVariables self names = .ok (variablesOf bases) := by
  induction h with
  | nil => rfl
  | @cons name b names bases hb _ ih =>
    obtain ⟨hne, hrest⟩ := not_or.1 fun h => hself (List.mem_cons.2 h)
    rw [baseVariables, if_neg fun heq => hne heq.symm, hb]
    simp only [ih hrest]
    rfl

theorem names_of_contracts {names : List String}
    (h : List.Forall₂ (fun name b => m.contract name = .ok b) names bases) :
    bases.map (·.name) = names := by
  induction h with
  | nil => rfl
  | cons hb _ ih => rw [List.map_cons, ih, name_of_contract hb]

theorem mem_of_contracts {names : List String}
    (h : List.Forall₂ (fun name b => m.contract name = .ok b) names bases) :
    ∀ b ∈ bases, b ∈ m.contracts := by
  induction h with
  | nil => exact nofun
  | cons hb _ ih => exact List.forall_mem_cons.2 ⟨mem_of_contract hb, ih⟩

namespace WellFormed

variable (h : m.WellFormed c bases)

include h

theorem storageVariables_eq : m.storageVariables c.name = .ok (variablesOf (bases ++ [c])) := by
  have hself := (List.nodup_cons.1 h.distinct).1
  simp only [storageVariables, h.found, baseVariables_eq h.basesFound hself]
  simp [variablesOf]

theorem mem_contracts : ∀ b ∈ bases ++ [c], b ∈ m.contracts :=
  List.forall_mem_append.2 ⟨mem_of_contracts h.basesFound,
    List.forall_mem_singleton.2 (mem_of_contract h.found)⟩

theorem declared_of_mem : ∀ b ∈ bases ++ [c], (b.declared.map (·.name)).Nodup ∧
    ∀ v ∈ b.declared, isIdentifier v.name.toList :=
  fun b hb => h.declared b ((List.perm_append_singleton c bases).subset hb)

theorem nodup_variables (howned : ∀ b ∈ m.contracts, ∀ v ∈ b.declared, v.contract = b.name) :
    ((variablesOf (bases ++ [c])).map fun v => (v.contract, v.name)).Nodup := by
  refine nodup_variablesOf ?_ (fun b hb => howned b (h.mem_contracts b hb))
    fun b hb => (h.declared_of_mem b hb).1
  have hperm := (List.perm_append_singleton c bases).map (·.name)
  rw [hperm.nodup_iff, List.map_cons, names_of_contracts h.basesFound]
  exact h.distinct

end WellFormed

end Model

/-! ## Their places -/

/-- The placement is that of the variable, under its own name or behind that of its contract. -/
structure Placement.IsOf (structs : StructTable) (p : Placement) (v : StateVariable) : Prop where
  declarer : p.declarer = v.contract
  name : p.name = v.name ∨ p.name = v.contract ++ "." ++ v.name
  type : materialize structs v.type = .ok p.type

section Placing

variable {structs : StructTable}

/-- Placements are those of the variables, one by one. -/
theorem placeVariables_isOf {vs : List StateVariable} : ∀ {c : Cursor} {ps : List Placement},
    placeVariables structs c vs = .ok ps → List.Forall₂ (Placement.IsOf structs) ps vs := by
  induction vs with
  | nil =>
    intro c ps h
    obtain rfl := Except.ok.inj h
    exact .nil
  | cons v vs ih =>
    intro c ps h
    obtain ⟨t, rest, ht, hrest, rfl⟩ := placeVariables_cons.1 h
    exact .cons ⟨rfl, (v.reportedName_cases vs).imp_left And.left, ht⟩ (ih hrest)

/-- **Variables whose types can be made ready are placed**, one after the other. -/
theorem exists_placeVariables {vs : List StateVariable}
    (h : ∀ v ∈ vs, ∃ t, materialize structs v.type = .ok t) : ∀ c : Cursor, ∃ ps,
      placeVariables structs c vs = .ok ps := by
  induction vs with
  | nil => intro c; exact ⟨[], rfl⟩
  | cons v vs ih =>
    intro c
    obtain ⟨⟨t, ht⟩, hvs⟩ := List.forall_mem_cons.1 h
    obtain ⟨rest, hrest⟩ := ih hvs (c.place t.footprint).2
    exact ⟨_, placeVariables_cons.2 ⟨t, rest, ht, hrest, rfl⟩⟩

end Placing

namespace Model.WellFormed

variable {m : Model} {c : Contract} {bases : List Contract} {d : Declarations}

theorem exists_placements (h : m.WellFormed c bases) (hd : d.Describes m) : ∃ ps,
    m.placements c.name = .ok ps ∧
      List.Forall₂ (Placement.IsOf m.structs) ps (variablesOf (bases ++ [c])) := by
  have hready : ∀ v ∈ variablesOf (bases ++ [c]), ∃ t, materialize m.structs v.type = .ok t := by
    intro v hv
    obtain ⟨b, hb, hv⟩ := mem_variablesOf hv
    obtain ⟨e, he⟩ := hd.reads (h.mem_contracts b hb) hv
    obtain ⟨t, ht, -⟩ := materialize_reads hd.structs he
    exact ⟨t, ht⟩
  obtain ⟨ps, hps⟩ := exists_placeVariables hready {}
  exact ⟨ps, by simp only [placements, h.storageVariables_eq, hps], placeVariables_isOf hps⟩

theorem nodup_names (h : m.WellFormed c bases)
    (howned : ∀ b ∈ m.contracts, ∀ v ∈ b.declared, v.contract = b.name) {ps : List Placement}
    (hps : m.placements c.name = .ok ps) : (ps.map (·.name)).Nodup := by
  simp only [placements, h.storageVariables_eq] at hps
  refine StorageAtlas.nodup_names hps (fun v hv => ?_) (h.nodup_variables howned)
  obtain ⟨b, hb, hv⟩ := mem_variablesOf hv
  exact (h.declared_of_mem b hb).2 v hv

end Model.WellFormed

/-! ## Records of one name -/

namespace Resolver

/-- A part of one of the variables is called like one of them. -/
def Clashes (r : Resolver) (contract : String) (ps : List Placement) : Prop :=
  ∃ p ∈ ps, ∃ q ∈ ps, ∃ e ∈ r.records contract p, e.path.steps ≠ [] ∧ e.path.text = q.name

section

variable {r : Resolver} {contract : String} {ps : List Placement} {p q : Placement}
  {a b : SlotRecord}

theorem exists_outer (ha : a ∈ r.records contract p) {depth : Nat} (hdepth : depth ≤ a.path.depth) :
    ∃ e ∈ r.records contract p, e.path.text = (a.path.truncated depth).text := by
  rcases Nat.lt_or_eq_of_le hdepth with hlt | rfl
  · have hseen : OuterSeen 0 [] (r.records contract p) :=
      Listing.ofNode_outerSeen fun depth _ hdepth => absurd hdepth (Nat.not_lt_zero depth)
    have houter := (hseen.outerKey_mem a ha depth (Nat.zero_le _) hlt).resolve_left nofun
    obtain ⟨e, he, hkey⟩ := List.mem_map.1 houter
    exact ⟨e, he, congrArg RecordKey.path hkey⟩
  · exact ⟨a, ha, by rw [VariablePath.truncated_self (Nat.le_refl _)]⟩

variable {d : Declarations} (hd : d.Describes r.model) (hw : r.model.structs.WellNamed)
  (hps : r.model.placements contract = .ok ps)

include hd hw hps

/-- A record of a variable has the path of the variable with more steps, and that of the variable
alone only if it is its own. -/
theorem records_path (hp : p ∈ ps) (ha : a ∈ r.records contract p) :
    a.path.base = p.name ∧ (∀ s ∈ a.path.steps, s.IsPlain) ∧
      (a.path.text = p.name → ∃ status, a = p.node.record contract p.declarer status) := by
  obtain ⟨e, he, hset⟩ := Model.placements_read hd hps p hp
  obtain ⟨k, status, rfl, hk⟩ := r.listing_below hd he hset a ha
  obtain ⟨rest, hplain, hpath, -⟩ := hk.walk hd.structs hw he hset
  have hpath : k.path = ⟨p.name, rest⟩ := hpath
  refine ⟨congrArg VariablePath.base hpath, fun s hs => hplain s ?_, fun htext => ⟨status, ?_⟩⟩
  · rwa [show (k.record contract p.declarer status).path = k.path from rfl, hpath] at hs
  · rw [Below.eq_of_text_eq hd.structs hw he hset hk (.root trivial) htext]

/-- The longer of two paths with one text goes through something called like the other variable. -/
theorem clashes_of_text_eq (hp : p ∈ ps) (hq : q ∈ ps) (hne : p.name ≠ q.name)
    (ha : a ∈ r.records contract p) (hb : b ∈ r.records contract q) (hkey : a.key = b.key)
    (hle : b.path.depth ≤ a.path.depth) : r.Clashes contract ps := by
  obtain ⟨-, haplain, -⟩ := records_path hd hw hps hp ha
  obtain ⟨hbbase, hbplain, -⟩ := records_path hd hw hps hq hb
  have hthrough := VariablePath.text_truncated_eq_base haplain hbplain hle
    (congrArg RecordKey.path hkey)
  obtain ⟨e, he, htext⟩ := exists_outer ha (Nat.sub_le a.path.depth b.path.depth)
  obtain ⟨hebase, -⟩ := records_path hd hw hps hp he
  rw [hthrough, hbbase] at htext
  refine ⟨p, hp, q, hq, e, he, fun hnil => hne ?_, htext⟩
  rw [← hebase, ← htext, VariablePath.text, hnil]
  rfl

/-- **Records of one name say the same**, if no part is called like a variable. -/
theorem samePlacement_of_not_clashes (hdistinct : (ps.map (·.name)).Nodup)
    (hclash : ¬r.Clashes contract ps) (ha : a ∈ ps.flatMap (r.records contract))
    (hb : b ∈ ps.flatMap (r.records contract)) (hkey : a.key = b.key) : a.samePlacement b := by
  obtain ⟨p, hp, ha⟩ := List.mem_flatMap.1 ha
  obtain ⟨q, hq, hb⟩ := List.mem_flatMap.1 hb
  by_cases hname : p.name = q.name
  · obtain rfl : p = q := List.inj_on_of_nodup_map hdistinct hp hq hname
    obtain ⟨e, he, hset⟩ := Model.placements_read hd hps p hp
    exact r.listing_samePlacement hd he hset hw ha hb hkey
  · rcases Nat.le_total b.path.depth a.path.depth with hle | hle
    · exact absurd (clashes_of_text_eq hd hw hps hp hq hname ha hb hkey hle) hclash
    · exact absurd (clashes_of_text_eq hd hw hps hq hp (Ne.symm hname) hb ha hkey.symm hle) hclash

variable {slots : Nat} (hslots : slots < 2 ^ 251) (hspans : Spans ps slots)
  (hfull : ∀ p ∈ ps, p.type.NeverEmpty)

include hslots hspans hfull

/-- **A layout of variables that lie apart passes the check.** -/
theorem validate_of_spans {s : LayoutStore}
    (hgrows : LayoutStore.Grows {} (ps.flatMap (r.records contract)) s) : s.validate = .ok () := by
  obtain ⟨hapart, hrooms⟩ := Model.placements_spans hps hslots hspans
  have htop : ∀ a ∈ s.topLevel, ∃ p ∈ ps, ∃ status,
      a = p.node.record contract p.declarer status := by
    intro a ha
    obtain ⟨ha, hsteps⟩ := List.mem_filter.1 ha
    rcases hgrows.source a ha with ha | ha
    · exact nomatch ha
    · obtain ⟨p, hp, ha⟩ := List.mem_flatMap.1 ha
      obtain ⟨hbase, -, hown⟩ := records_path hd hw hps hp ha
      refine ⟨p, hp, hown ?_⟩
      rw [VariablePath.text, List.isEmpty_iff.1 hsteps, ← hbase]
      rfl
  refine LayoutStore.validate_eq_ok_iff.2 ⟨fun a ha => ?_, ?_⟩
  · obtain ⟨p, hp, status, rfl⟩ := htop a ha
    exact (hrooms p hp).1.fitsSlot contract p.declarer status
  · have hkeys := (List.pairwise_map.1 (hgrows.keys List.nodup_nil)).sublist
      (List.filter_sublist (p := (·.path.steps.isEmpty)))
    refine hkeys.imp_of_mem fun {a b} ha hb hkey _ => ?_
    obtain ⟨p, hp, status, rfl⟩ := htop a ha
    obtain ⟨q, hq, status', rfl⟩ := htop b hb
    have hne : p ≠ q := by
      rintro rfl
      exact hkey rfl
    have hwithin {p : Placement} (hp : p ∈ ps) (status : Status) :
        (p.node.record contract p.declarer status).checkedBytes.Within p.node.room := by
      have hpos := Footprint.size_pos (Ty.extent_pos (hfull p hp))
      refine ⟨Nat.le_refl _, Nat.add_le_add_left (Nat.max_le.2 ⟨?_, ?_⟩) _⟩
      · exact Nat.le_trans hpos (Footprint.size_le_extent _)
      · exact Footprint.size_le_extent _
    have hbelow {p : Placement} (hp : p ∈ ps) (status : Status) :
        (p.node.record contract p.declarer status).checkedBytes.stop < 2 ^ 256 := by
      have hle := Nat.le_trans (hwithin hp status).2 (hrooms p hp).2
      simp only [slotBytes] at hle
      omega
    refine (SlotRecord.overlaps_eq_false_iff (hbelow hp status) (hbelow hq status')).2 ?_
    exact (hapart.forall hp hq hne).mono (hwithin hp status) (hwithin hq status')

/-- **Where a part is called like a variable there is no layout**: the two lie apart. -/
theorem not_laysOut_of_clashes (hclash : r.Clashes contract ps) (s : LayoutStore) :
    ¬r.LaysOut [contract] s := by
  intro hlay
  obtain ⟨hapart, hrooms⟩ := Model.placements_spans hps hslots hspans
  obtain ⟨p, hp, q, hq, a, ha, hsteps, htext⟩ := hclash
  obtain ⟨ps', hps', hall⟩ := hlay.placed contract List.mem_cons_self
  obtain rfl := Except.ok.inj (hps.symm.trans hps')
  have hne : p ≠ q := by
    rintro rfl
    obtain ⟨-, -, hown⟩ := records_path hd hw hps hp ha
    obtain ⟨status, rfl⟩ := hown htext
    exact hsteps rfl
  obtain ⟨e, he, hset⟩ := Model.placements_read hd hps p hp
  obtain ⟨k, status, rfl, hk⟩ := r.listing_below hd he hset a ha
  have hkey : (k.record contract p.declarer status).key =
      (q.node.record contract q.declarer .resolved).key := by
    rw [SlotRecord.key, htext]
    rfl
  obtain ⟨hl, hsize, -⟩ := ((hall p hp).2 _ ha).samePlacement
    (hlay.shows_root hd List.mem_cons_self hps hq) hkey
  have hl : k.location = q.location := hl
  have hsize : k.type.footprint.size = q.type.footprint.size := hsize
  have hend : p.node.room.stop < slotBytes * 2 ^ 251 :=
    Nat.lt_of_le_of_lt (hrooms p hp).2 (Nat.mul_lt_mul_of_pos_left hslots (by decide))
  obtain ⟨-, -, hwithin⟩ :=
    hk.room_within hd.structs he hset (hrooms p hp).1 (hspans.fits p hp) hend
  -- the part takes room where the other variable begins
  have hqpos := Ty.extent_pos (hfull q hq)
  have hkpos : 0 < k.type.footprint.extent :=
    Nat.lt_of_lt_of_le (hsize ▸ Footprint.size_pos hqpos) (Footprint.size_le_extent _)
  have hpq : p.node.room.Apart q.node.room := hapart.forall hp hq hne
  have hkstart : k.room.start = q.node.room.start := congrArg Location.position hl
  have hkstop : k.room.stop = k.room.start + k.type.footprint.extent := rfl
  have hqstop : q.node.room.stop = q.node.room.start + q.type.footprint.extent := rfl
  obtain ⟨hfrom, hto⟩ := hwithin
  rcases hpq with h | h
  · omega
  · omega

end

section

variable {r : Resolver} {contract : String} {ps : List Placement}
  (hps : r.model.placements contract = .ok ps)
  (hfail : ∀ p ∈ ps, (r.listing contract p.declarer p.node).failure = none)

include hps

theorem fullLayout_singleton : r.fullLayout [contract] =
    match r.addPlacements contract {} ps with
    | .error e => .error e
    | .ok s =>
      match s.validate with
      | .error e => .error e
      | .ok () => .ok s := by
  unfold fullLayout
  simp only [addContracts, hps]
  cases r.addPlacements contract {} ps <;> rfl

include hfail

/-- A layout of variables that can be listed fails for a contradiction, and for nothing else. -/
theorem fullLayout_conflict {e : Error} (h : r.fullLayout [contract] = .error e) :
    ∃ fault, e = .conflict fault := by
  rw [fullLayout_singleton hps] at h
  split at h
  · next hadd =>
    obtain rfl := Except.error.inj h
    exact addPlacements_conflict hfail hadd
  · split at h
    · next hcheck =>
      obtain rfl := Except.error.inj h
      exact LayoutStore.validate_conflict hcheck
    · exact nomatch h

end

end Resolver

/-- **A well-formed contract has a layout exactly if no part of a variable is called like one.**
This is where arrays are not empty and the variables end within the slots that there are. The layout
then has a record for every variable, in its place; where there is none, two records contradict each
other. -/
theorem fullLayout_exists_iff {text : String} {m : Model} (hm : Model.parse text = .ok m)
    {c : Contract} {bases : List Contract} (h : m.WellFormed c bases) (config : ResolverConfig) :
    ∃ ps, m.placements c.name = .ok ps ∧
      List.Forall₂ (Placement.IsOf m.structs) ps (variablesOf (bases ++ [c])) ∧
      ∀ slots < 2 ^ 251, Spans ps slots → (∀ p ∈ ps, p.type.NeverEmpty) →
        ((∃ s, (Resolver.mk m config).fullLayout [c.name] = .ok s ∧
            ∀ p ∈ ps, ∃ r, s.find? ⟨c.name, p.name⟩ = some r ∧ r.contract = c.name ∧
              r.path.text = p.name ∧ r.declaredIn = p.declarer ∧ r.location = p.location ∧
              r.type = p.type ∧ r.size = p.type.footprint.size) ↔
          ¬(Resolver.mk m config).Clashes c.name ps) ∧
        ((Resolver.mk m config).Clashes c.name ps →
          ∃ fault, (Resolver.mk m config).fullLayout [c.name] = .error (.conflict fault)) := by
  obtain ⟨d, hd⟩ := Model.parse_describes hm
  obtain ⟨ps, hps, hvariables⟩ := h.exists_placements hd
  refine ⟨ps, hps, hvariables, fun slots hslots hspans hfull => ?_⟩
  generalize hr : Resolver.mk m config = r
  obtain rfl : r.model = m := hr ▸ rfl
  have hdistinct := h.nodup_names (Model.parse_owned hm) hps
  have hfail : ∀ p ∈ ps, (r.listing c.name p.declarer p.node).failure = none := by
    intro p hp
    obtain ⟨e, he, -⟩ := Model.placements_read hd hps p hp
    exact r.listing_failure hd he
  have hnone : r.Clashes c.name ps → ∀ s, r.fullLayout [c.name] ≠ .ok s := fun hclash s hs =>
    Resolver.not_laysOut_of_clashes hd h.members hps hslots hspans hfull hclash s
      (Resolver.fullLayout_laysOut hs)
  refine ⟨⟨fun ⟨s, hs, _⟩ hclash => hnone hclash s hs, fun hclash => ?_⟩, fun hclash => ?_⟩
  · obtain ⟨s, hs⟩ := Resolver.exists_addPlacements (s := {}) hfail fun a ha b hb =>
      Resolver.samePlacement_of_not_clashes hd h.members hps hdistinct hclash ha hb
    obtain ⟨-, hgrows⟩ := Resolver.addPlacements_grows hs
    have hcheck := Resolver.validate_of_spans hd h.members hps hslots hspans hfull hgrows
    have hlayout : r.fullLayout [c.name] = .ok s := by
      rw [Resolver.fullLayout_singleton hps]
      simp only [hs, hcheck]
    refine ⟨s, hlayout, fun p hp => ?_⟩
    obtain ⟨r, hr, hsame⟩ :=
      (Resolver.fullLayout_laysOut hlayout).shows_root hd List.mem_cons_self hps hp
    have hfound := List.find?_some hr
    have hkey : r.key = ⟨c.name, p.name⟩ := eq_of_beq hfound
    obtain ⟨hlocation, hsize, htype, hdeclared⟩ := SlotRecord.samePlacement_iff.1 hsame
    exact ⟨r, hr, congrArg RecordKey.contract hkey, congrArg RecordKey.path hkey, hdeclared,
      hlocation, htype, hsize⟩
  · cases hlayout : r.fullLayout [c.name] with
    | ok s => exact absurd hlayout (hnone hclash s)
    | error e =>
      obtain ⟨fault, rfl⟩ := Resolver.fullLayout_conflict hps hfail hlayout
      exact ⟨fault, rfl⟩

namespace Sample

theorem hidingContract_wellFormed : hidingModel.WellFormed hidingContract [hiddenBase] where
  found := rfl
  basesFound := .cons rfl .nil
  distinct := by decide
  declared := by decide
  members := by unfold StructTable.WellNamed; decide

theorem clashingContract_wellFormed : hidingModel.WellFormed clashingContract [hiddenBase] where
  found := rfl
  basesFound := .cons rfl .nil
  distinct := by decide
  declared := by decide
  members := by unfold StructTable.WellNamed; decide

def namesake : Placement := ⟨"A", "C", .struct "S" hidingMembers, ⟨1, 0⟩⟩

def lastX : Placement := ⟨"x", "C", .uint 256, ⟨2, 0⟩⟩

end Sample

/-- Of two contracts that hide a variable one has a layout. In the other one there is something else
called like the hidden variable. -/
theorem fullLayout_exists_iff_hiding : Model.parse Sample.hidingText = .ok Sample.hidingModel ∧
    Sample.hidingModel.WellFormed Sample.hidingContract [Sample.hiddenBase] ∧
    Sample.hidingModel.WellFormed Sample.clashingContract [Sample.hiddenBase] ∧
    (∃ s, (Resolver.mk Sample.hidingModel {}).fullLayout ["B"] = .ok s ∧
      ∃ r, s.find? ⟨"B", "A.x"⟩ = some r ∧ r.contract = "B" ∧ r.path.text = "A.x" ∧
        r.declaredIn = "A" ∧ r.location = ⟨0, 0⟩ ∧ r.type = .uint 256 ∧ r.size = 32) ∧
    ∃ fault, (Resolver.mk Sample.hidingModel {}).fullLayout ["C"] = .error (.conflict fault) := by
  refine ⟨Sample.parse_hidingText, Sample.hidingContract_wellFormed,
    Sample.clashingContract_wellFormed, ?_, ?_⟩
  · obtain ⟨ps, hps, -, hlayout⟩ :=
      fullLayout_exists_iff Sample.parse_hidingText Sample.hidingContract_wellFormed {}
    have hall : Sample.hidingModel.placements "B" = .ok [Sample.hiddenX, Sample.ownX] := rfl
    obtain rfl := Except.ok.inj (hall.symm.trans hps)
    have hspans : Spans [Sample.hiddenX, Sample.ownX] 2 := by
      refine ⟨?_, by decide⟩
      simp only [List.forall_mem_cons]
      exact ⟨trivial, trivial, nofun⟩
    have hplain : ¬(Resolver.mk Sample.hidingModel {}).Clashes "B"
        [Sample.hiddenX, Sample.ownX] := by
      unfold Resolver.Clashes
      decide +kernel
    have hfull : ∀ p ∈ [Sample.hiddenX, Sample.ownX], p.type.NeverEmpty := by
      simp only [List.forall_mem_cons]
      exact ⟨trivial, trivial, nofun⟩
    obtain ⟨s, hs, hholds⟩ := (hlayout 2 (by decide) hspans hfull).1.2 hplain
    exact ⟨s, hs, hholds _ List.mem_cons_self⟩
  · obtain ⟨ps, hps, -, hlayout⟩ :=
      fullLayout_exists_iff Sample.parse_hidingText Sample.clashingContract_wellFormed {}
    have hall : Sample.hidingModel.placements "C" =
      .ok [Sample.hiddenX, Sample.namesake, Sample.lastX] := rfl
    obtain rfl := Except.ok.inj (hall.symm.trans hps)
    have hspans : Spans [Sample.hiddenX, Sample.namesake, Sample.lastX] 3 := by
      refine ⟨?_, by decide⟩
      simp only [List.forall_mem_cons]
      exact ⟨trivial, ⟨⟨trivial, trivial⟩, by decide⟩, trivial, nofun⟩
    have hclash : (Resolver.mk Sample.hidingModel {}).Clashes "C"
        [Sample.hiddenX, Sample.namesake, Sample.lastX] := by
      unfold Resolver.Clashes
      decide +kernel
    refine (hlayout 3 (by decide) hspans ?_).2 hclash
    simp only [List.forall_mem_cons]
    exact ⟨trivial, trivial, trivial, nofun⟩

end StorageAtlas
