import StorageAtlas.Proofs.Agreement
import StorageAtlas.Proofs.StoreOrder

/-!
# Paths taken again

The path of a record in a store that a resolver made leads from its variable to the record again
(`Resolver.Makes.finds`), and can be followed one step further from there
(`Resolver.Finds.path_child`). Nothing is asked of the names of members. Where two members share a
name the step finds the first of them, and since the store shows both under one path, they are
alike.
-/

namespace StorageAtlas

theorem eq_of_find? {α β : Type} [BEq β] [LawfulBEq β] {f : α → β} {l : List α} {a : α} {b : β}
    (h : l.find? (f · == b) = some a) : f a = b := by
  have h := List.find?_some h
  rwa [beq_iff_eq] at h

/-! ## Steps as they were taken -/

theorem Leads.again {here : Location} {t : Ty} {step : AccessStep} {r : Location × Ty × AccessStep}
    (h : Leads here t step r) : Leads here t r.2.2 r := by
  cases h with
  | key h => exact .key h
  | number h => exact .number h
  | item h => exact .item rfl
  | element h hi => exact .element rfl hi
  | member h => exact .member h

section

variable {structs : StructTable}

theorem walk_again {steps : List AccessStep} : ∀ {here : Location} {t : Ty} {r : Derived},
    walk structs here t steps = .ok r → walk structs here t r.steps = .ok r := by
  induction steps with
  | nil =>
    intro here t r h
    obtain rfl := Except.ok.inj h
    rfl
  | cons step steps ih =>
    intro here t r h
    obtain ⟨next, u, taken, v, r', hstep, hv, hr', rfl⟩ := walk_cons h
    simp only [walk, (Leads.of_applyStep hstep).again.applyStep, hv, ih hr']

end

/-! ## Nodes that are shown -/

section Shown

variable {d : Declarations} {structs : StructTable} {shown : Node → Prop} {root k : Node}
  {e : TypeExpr}

/-- The step that names a child leads to the first child of that name. -/
theorem Node.exists_child_leads {n m : Node} (hm : m ∈ n.children) :
    ∃ step, ∃ first ∈ n.children, first.path = m.path ∧ m.path = n.path.child step ∧
      Leads n.location n.type.stored step (first.location, first.type, step) := by
  rcases Node.mem_children hm with ⟨name, ms, hstored, hm⟩ | ⟨element, length, hstored, hm⟩
  · obtain ⟨p, hp, rfl⟩ := Node.mem_members.1 hm
    obtain ⟨first, hfirst⟩ : ∃ first, findPlaced? ms p.name = some first :=
      Option.isSome_iff_exists.1 (List.find?_isSome.2 ⟨p, hp, beq_self_eq_true _⟩)
    have hname : first.name = p.name := eq_of_find? hfirst
    refine ⟨.field p.name, ⟨n.path.child (.field first.name),
      first.location.within n.location.slot, first.type⟩, ?_, by rw [hname], rfl, ?_⟩
    · simp only [Node.children, hstored]
      exact Node.mem_members.2 ⟨first, List.mem_of_find?_eq_some hfirst, rfl⟩
    · rw [hstored]
      exact .member hfirst
  · have hmem : m ∈ n.children := by
      simp only [Node.children, hstored]
      exact hm
    obtain ⟨i, hi, rfl⟩ := Node.mem_elements.1 hm
    refine ⟨.index (Word.ofNat i), _, hmem, rfl, rfl, ?_⟩
    rw [hstored]
    refine .element rfl (Nat.lt_of_le_of_lt ?_ hi)
    rw [BitVec.toNat_ofNat]
    exact Nat.mod_le _ _

/-- **Whatever is below a node is where the steps to it lead**, if one node is shown under each
path. -/
theorem Below.walk_of_shown (hs : d.Defines structs) (hr : root.type.Reads d e)
    (hset : root.type.Settled) (hsame : ∀ j k, shown j → shown k → j.path = k.path → j = k)
    (h : Below structs shown root k) : ∃ rest,
      k.path = ⟨root.path.base, root.path.steps ++ rest⟩ ∧
      StorageAtlas.walk structs root.location root.type rest =
        .ok ⟨k.location, k.type, rest⟩ := by
  induction h with
  | root => exact ⟨[], by rw [List.append_nil], rfl⟩
  | @child n m k hn hm hk hall ih =>
    obtain ⟨rest, hpath, hwalk⟩ := ih
    obtain ⟨f, hf, hfs⟩ := hn.reads hs hr hset
    obtain ⟨step, first, hfirst, hfpath, hchild, hleads⟩ := Node.exists_child_leads hm
    obtain ⟨g, hg, -⟩ := Node.children_read hf hfs.spelledOut hfirst
    obtain ⟨k', hk'⟩ := Node.exists_settles hs hg
    -- what is found first is shown under the path of the child
    obtain rfl : k' = k := by
      refine hsame k' k (hall first hfirst k' hk') (hall m hm k hk) ?_
      rw [hk'.path_eq, hk.path_eq, hfpath]
    have hkpath := hk.path_eq
    obtain ⟨t, ht, rfl⟩ := hk'
    refine ⟨rest ++ [step], ?_, walk_concat hwalk hleads.applyStep ht⟩
    rw [hkpath, hchild, hpath, VariablePath.child, List.append_assoc]

end Shown

/-! ## Records of a resolver -/

namespace Resolver

variable {r : Resolver} {q : SlotRecord} {p : Placement} {d : Declarations}

/-- The record is that of the value at its own path, which begins with the variable `p`. -/
structure Finds (r : Resolver) (q : SlotRecord) (p : Placement) : Prop where
  placed : ∃ ps, r.model.placements q.contract = .ok ps ∧
    ps.find? (·.name == q.path.base) = some p
  declaredIn : q.declaredIn = p.declarer
  derived : derive p.location p.type q.path.steps r.config.maxDepth r.model.structs =
    .ok ⟨q.location, q.type, q.path.steps⟩

theorem Finds.name_eq (h : r.Finds q p) : p.name = q.path.base := by
  obtain ⟨ps, -, hp⟩ := h.placed
  exact eq_of_find? hp

theorem Finds.reads (hd : d.Describes r.model) (h : r.Finds q p) :
    ∃ e, q.type.Reads d e ∧ q.type.Settled := by
  obtain ⟨ps, hps, hp⟩ := h.placed
  obtain ⟨e, he, -⟩ := Model.placements_read hd hps p (List.mem_of_find?_eq_some hp)
  exact derive_reads hd.structs he h.derived

/-- A node below the place where a path from a variable has led is found again. -/
theorem finds_of_below (hd : d.Describes r.model) {contract : String} {ps : List Placement}
    (hps : r.model.placements contract = .ok ps) {base : String}
    (hp : ps.find? (·.name == base) = some p) {steps : List AccessStep} {place : Derived}
    (hplace : walk r.model.structs p.location p.type steps = .ok place) (shown : Node → Prop)
    (hsame : ∀ j k, shown j → shown k → j.path = k.path → j = k) {k : Node} {status : Status}
    (hk : Below r.model.structs shown ⟨⟨base, place.steps⟩, place.location, place.type⟩ k)
    (hdepth : k.path.depth ≤ r.config.maxDepth) :
    r.Finds (k.record contract p.declarer status) p := by
  obtain ⟨e, he, hset⟩ := Model.placements_read hd hps p (List.mem_of_find?_eq_some hp)
  obtain ⟨f, hf, hfs⟩ := walk_reads hd.structs he hset hplace
  obtain ⟨rest, hpath, hwalk⟩ := hk.walk_of_shown hd.structs hf hfs hsame
  have hbase : k.path.base = base := congrArg VariablePath.base hpath
  have hsteps : k.path.steps = place.steps ++ rest := congrArg VariablePath.steps hpath
  refine ⟨⟨ps, hps, ?_⟩, rfl, ?_⟩
  · show ps.find? (·.name == k.path.base) = _
    rw [hbase, hp]
  · show derive p.location p.type k.path.steps _ _ = .ok ⟨k.location, k.type, k.path.steps⟩
    rw [derive, materialize_of_settled _ hset, List.take_of_length_le hdepth, hsteps]
    exact walk_append (walk_again hplace) hwalk

theorem fullLayout_finds (hd : d.Describes r.model) {contracts : List String} {s : LayoutStore}
    (hs : r.fullLayout contracts = .ok s) (hq : q ∈ s.records) : ∃ p, r.Finds q p := by
  have hlay := fullLayout_laysOut hs
  obtain ⟨c, hc, ps, hps, p, hp, k, status, rfl, hk, hdepth⟩ := hlay.below hd q hq
  obtain ⟨first, hfirst⟩ : ∃ first, ps.find? (·.name == p.name) = some first :=
    Option.isSome_iff_exists.1 (List.find?_isSome.2 ⟨p, hp, beq_self_eq_true _⟩)
  have hname : first.name = p.name := eq_of_find? hfirst
  -- an earlier variable of the name has been found to be the same
  have hshown := hlay.shows_root hd hc hps (List.mem_of_find?_eq_some hfirst)
  obtain ⟨hl, -, ht, hdecl⟩ := hshown.samePlacement (hlay.shows_root hd hc hps hp)
    (by simp only [SlotRecord.key, Node.record, Placement.node, hname])
  have hl : first.location = p.location := hl
  have ht : first.type = p.type := ht
  have hdecl : first.declarer = p.declarer := hdecl
  have hwalk : walk r.model.structs first.location first.type [] =
      .ok ⟨p.location, p.type, []⟩ := by
    rw [hl, ht]
    rfl
  refine ⟨first, hdecl ▸ ?_⟩
  exact finds_of_below hd hps hfirst hwalk (s.Shows c) (fun _ _ => LayoutStore.Shows.eq_of_path) hk
    hdepth

theorem path_finds (hd : d.Describes r.model) {contract : String} {asked : VariablePath}
    {s : LayoutStore} (hs : r.path contract asked = .ok s) (hq : q ∈ s.records)
    (hdepth : q.path.depth ≤ r.config.maxDepth) : ∃ p, r.Finds q p := by
  unfold path at hs
  split at hs
  · exact nomatch hs
  · next ps hps =>
    split at hs
    · exact nomatch hs
    · next p hp =>
      obtain ⟨e, he, hset⟩ := Model.placements_read hd hps p (List.mem_of_find?_eq_some hp)
      have hname : p.name = asked.base := eq_of_find? hp
      rw [← hname] at hp
      split at hs
      · exact nomatch hs
      · next place hplace =>
        have hreads := derive_reads hd.structs he hplace
        rw [derive, materialize_of_settled _ hset] at hplace
        refine ⟨p, ?_⟩
        split at hs
        · -- where the path is cut stands one record
          obtain rfl := Except.ok.inj hs
          obtain rfl := List.mem_singleton.1 hq
          exact finds_of_below hd hps hp hplace (· = _) (fun j k hj hk _ => hj.trans hk.symm)
            (.root rfl) hdepth
        · obtain ⟨f, hf, hfs⟩ := hreads
          obtain ⟨hnone, hgrows⟩ := LayoutStore.insertListing_grows hs
          rcases hgrows.source q hq with hq | hq
          · exact absurd hq List.not_mem_nil
          · have hshown (j : Node) (status : Status)
                (hj : j.record contract p.declarer status ∈ (r.listing contract p.declarer
                  ⟨⟨p.name, place.steps⟩, place.location, place.type⟩).records) :
                s.Shows contract j :=
              .of_holds (hgrows.holds _ hj)
            obtain ⟨k, status, rfl, hk, -⟩ := Listing.ofNode_below (s.Shows contract) _ hnone
              (Node.settles_of_settled hfs) hshown .root q hq
            exact finds_of_below hd hps hp hplace (s.Shows contract)
              (fun _ _ => LayoutStore.Shows.eq_of_path) hk hdepth

/-- **The path of every record leads to it again**, if it is not too long to be followed. -/
theorem Makes.finds (hd : d.Describes r.model) {s : LayoutStore} (hs : r.Makes s)
    (hq : q ∈ s.records) (hdepth : q.path.depth ≤ r.config.maxDepth) : ∃ p, r.Finds q p := by
  cases hs with
  | fullLayout hs => exact fullLayout_finds hd hs hq
  | path hs => exact path_finds hd hs hq hdepth

/-- **One step further** lies what the step leads to, made ready for its place. -/
theorem Finds.path_child (h : r.Finds q p) {step taken : AccessStep} {next : Location} {u v : Ty}
    (hstep : applyStep q.location q.type step = .ok (next, u, taken))
    (hv : materialize r.model.structs u = .ok v) (hdepth : q.path.depth < r.config.maxDepth) :
    r.path q.contract (q.path.child step) = LayoutStore.insertListing {}
      (r.listing q.contract q.declaredIn ⟨q.path.child taken, next, v⟩) := by
  obtain ⟨ps, hps, hp⟩ := h.placed
  have hderived : derive p.location p.type (q.path.steps ++ [step]) r.config.maxDepth
      r.model.structs = .ok ⟨next, v, q.path.steps ++ [taken]⟩ := by
    have hwalk := h.derived
    unfold derive at hwalk ⊢
    split at hwalk
    · exact nomatch hwalk
    · next t ht =>
      rw [List.take_of_length_le (Nat.le_of_lt hdepth)] at hwalk
      rw [List.take_of_length_le (by rw [List.length_append]; exact hdepth)]
      exact walk_concat hwalk hstep hv
  have hcut : isTruncated (q.path.steps ++ [step]) r.config.maxDepth = false := by
    refine decide_eq_false (Nat.not_lt.2 ?_)
    rw [List.length_append]
    exact hdepth
  unfold path
  simp only [hps, VariablePath.child, hp, hderived, hcut, h.declaredIn, h.name_eq]
  rfl

end Resolver

end StorageAtlas
