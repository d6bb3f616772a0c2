import StorageAtlas.Proofs.Insertion
import StorageAtlas.Proofs.Parts
import StorageAtlas.Proofs.Variables

/-!
# Where the records of a layout come from

Every record of a full layout is that of a node below a variable, and all nodes on the way to it are
shown by the layout (`Resolver.LaysOut.below`). A layout shows one node under a path
(`LayoutStore.Shows.eq_of_path`), also where variables or members share a name.
-/

namespace StorageAtlas

namespace LayoutStore

/-- A record of the node stands in the store, by itself or by one of the same placement. -/
def Shows (s : LayoutStore) (contract : String) (n : Node) : Prop :=
  ∃ declaredIn, s.Holds (n.record contract declaredIn .resolved)

variable {s : LayoutStore} {contract : String} {j k : Node}

theorem Shows.of_holds {declaredIn : String} {status : Status}
    (h : s.Holds (k.record contract declaredIn status)) : s.Shows contract k :=
  ⟨declaredIn, h⟩

theorem Shows.eq_of_path (hj : s.Shows contract j) (hk : s.Shows contract k)
    (h : j.path = k.path) : j = k := by
  obtain ⟨_, hj⟩ := hj
  obtain ⟨_, hk⟩ := hk
  obtain ⟨hl, -, ht, -⟩ := hj.samePlacement hk (by simp only [SlotRecord.key, Node.record, h])
  obtain ⟨path, location, type⟩ := j
  obtain ⟨path', location', type'⟩ := k
  obtain rfl : path = path' := h
  obtain rfl : location = location' := hl
  obtain rfl : type = type' := ht
  rfl

end LayoutStore

namespace Resolver.LaysOut

variable {r : Resolver} {contracts : List String} {s : LayoutStore} {d : Declarations}

theorem shows_root (h : r.LaysOut contracts s) (hd : d.Describes r.model) {c : String}
    (hc : c ∈ contracts) {ps : List Placement} (hps : r.model.placements c = .ok ps) {p : Placement}
    (hp : p ∈ ps) : s.Holds (p.node.record c p.declarer .resolved) := by
  obtain ⟨ps', hps', hall⟩ := h.placed c hc
  obtain rfl := Except.ok.inj (hps.symm.trans hps')
  obtain ⟨e, -, hset⟩ := Model.placements_read hd hps p hp
  obtain ⟨status, rest, hhead⟩ :=
    @Listing.ofNode_head r.model.structs r.config c p.declarer
      (r.config.maxDepth - p.node.path.depth) r.config.maxArrayElements p.node p.node
      (Node.settles_of_settled hset)
  refine (hall p hp).2 (p.node.record c p.declarer status) ?_
  show _ ∈ (Listing.ofNode r.model.structs r.config c p.declarer _ _ p.node).records
  rw [hhead]
  exact List.mem_cons_self

/-- **Every record is that of a node below a variable**, within the depth of the layout. -/
theorem below (h : r.LaysOut contracts s) (hd : d.Describes r.model) :
    ∀ q ∈ s.records, ∃ c ∈ contracts, ∃ ps, r.model.placements c = .ok ps ∧ ∃ p ∈ ps, ∃ k status,
      q = k.record c p.declarer status ∧ Below r.model.structs (s.Shows c) p.node k ∧
      k.path.depth ≤ r.config.maxDepth := by
  intro q hq
  obtain ⟨c, hc, ps, hps, p, hp, hq⟩ := h.source q hq
  obtain ⟨ps', hps', hall⟩ := h.placed c hc
  obtain rfl := Except.ok.inj (hps.symm.trans hps')
  obtain ⟨e, -, hset⟩ := Model.placements_read hd hps p hp
  obtain ⟨hfail, hholds⟩ := hall p hp
  obtain ⟨k, status, hk, hbelow, hdepth⟩ := Listing.ofNode_below (s.Shows c) p.node hfail
    (Node.settles_of_settled hset) (fun j status hj => .of_holds (hholds _ hj)) .root q hq
  refine ⟨c, hc, ps, hps, p, hp, k, status, hk, hbelow, ?_⟩
  simpa [VariablePath.depth, Placement.node] using hdepth

end Resolver.LaysOut

end StorageAtlas
