import StorageAtlas.Proofs.Composition
import StorageAtlas.Proofs.StepsInPlace
import StorageAtlas.Proofs.WholeArrays

/-!
# A listing is the pre-order of a value

The members of structs and the elements of static arrays make a tree of each value.
`Node.PreOrder` is this tree with its nodes in order, each node before its parts, the parts in the
order of declaration or of their indices and in the places of the rule of first fit; it knows of no
limit and of none of the functions that list a value. `SlotRecord.Tells` is what the record of a
node says. `path_preOrder`: where no limit is met, the value at a path has one record for each node
of its tree, in this order.

A listing counts elements with a count that stops at the largest number of 64 bits. It is never more
than the elements that are there (`PreOrder.elementCount_le`), so a budget for these is enough.
-/

namespace StorageAtlas

namespace Node

mutual
/-- The nodes that lie in place in the value of a node, the node itself first: its type is made
ready, the rule says at which bytes its parts begin, and the trees of its parts follow. -/
inductive PreOrder (structs : StructTable) : Node → List Node → Prop
  | node {n : Node} {t : Ty} {starts : List Nat} {stop : Nat} {below : List Node}
    (ht : n.type.MadeReady structs t)
    (hstarts : FirstFit 0 (t.stepsInPlace.map Prod.snd) starts stop)
    (hbelow : PreOrders structs ({ n with type := t }.partsAt starts) below) :
    PreOrder structs n ({ n with type := t } :: below)

/-- The trees of several nodes, one behind the other. -/
inductive PreOrders (structs : StructTable) : List Node → List Node → Prop
  | nil : PreOrders structs [] []
  | cons {m : Node} {ms first rest : List Node} (hm : PreOrder structs m first)
    (hms : PreOrders structs ms rest) : PreOrders structs (m :: ms) (first ++ rest)
end

/-- How many elements of static arrays some nodes are spelled out into. -/
def elementTotal (ks : List Node) : Nat := (ks.map (·.type.arrayLength)).sum

end Node

/-- What the record of a node says where no limit is met and nothing was read: its place, the room
it takes, told in 64 bits, and whether it is a reference to code, which has no value. -/
structure SlotRecord.Tells (contract declaredIn : String) (r : SlotRecord) (n : Node) : Prop where
  contract_eq : r.contract = contract
  declaredIn_eq : r.declaredIn = declaredIn
  path_eq : r.path = n.path
  location_eq : r.location = n.location
  type_eq : r.type = n.type
  size_eq : r.size = if n.type.isValueType then n.type.footprint.bytes
    else min (slotBytes * n.type.footprint.slotCount.toNat) (UInt64.size - 1)
  data : (∀ external, n.type.stored ≠ .function external) → r.status = .resolved
  code : ∀ external, n.type.stored = .function external → r.status =
    .unresolved ("Unresolved type: " ++ (n.type.spelling ++ " refers to code, not data"))
  unread : r.raw = none ∧ r.value = none

theorem Ty.size_footprint (t : Ty) : t.footprint.size = if t.isValueType then t.footprint.bytes
    else min (slotBytes * t.footprint.slotCount.toNat) (UInt64.size - 1) := by
  have hkind := t.startsNewSlot_footprint
  generalize t.footprint = f at hkind
  cases f with
  | packed n =>
    have hpacked : t.isValueType := by simpa [Footprint.startsNewSlot] using hkind
    rw [if_pos hpacked]
    rfl
  | dynamic =>
    have hwhole : ¬t.isValueType := by simpa [Footprint.startsNewSlot] using hkind
    rw [if_neg hwhole]
    rfl
  | slots n =>
    have hwhole : ¬t.isValueType := by simpa [Footprint.startsNewSlot] using hkind
    have hwidth : (Word.ofNat slotBytes).toNat = 32 := by decide
    rw [if_neg hwhole]
    simp only [Footprint.size, Footprint.slotCount, Word.clamp64, Word.toNat_mulSat, hwidth,
      slotBytes, UInt64.size]
    omega

namespace Node

/-- What is told of a node where no limit is met. -/
def ownStatus (n : Node) : Status :=
  match n.type.stored with
  | .function _ => .unresolved (Error.unresolvedType (.code n.type)).message
  | _ => .resolved

theorem record_tells (contract declaredIn : String) (n : Node) :
    (n.record contract declaredIn n.ownStatus).Tells contract declaredIn n where
  contract_eq := rfl
  declaredIn_eq := rfl
  path_eq := rfl
  location_eq := rfl
  type_eq := rfl
  size_eq := n.type.size_footprint
  data h := by
    show n.ownStatus = _
    unfold ownStatus
    split
    · next external hs => exact absurd hs (h external)
    · rfl
  code external h := by
    show n.ownStatus = _
    unfold ownStatus
    rw [h]
    rfl
  unread := ⟨rfl, rfl⟩

/-! ## Every value has its tree -/

variable {d : Declarations} {structs : StructTable} {n k : Node} {ks : List Node} {e : TypeExpr}

theorem settles_of_madeReady {t : Ty} (ht : n.type.MadeReady structs t) :
    n.Settles structs { n with type := t } :=
  ⟨t, materialize_eq_ok_iff.2 ht, rfl⟩

/-- Making a spelled-out type ready does not change what lies in place in it. -/
theorem Settles.children_eq (h : n.Settles structs k) (hsp : n.type.SpelledOut) :
    k.children = n.children := by
  obtain ⟨t, ht, rfl⟩ := h
  rcases eq_of_materialize hsp ht with rfl | ⟨element, element', hn, rfl⟩
  · rfl
  · unfold children
    rw [hn]
    rfl

/-- The parts of a value have smaller types. -/
theorem sizeOf_lt_of_mem_children {m : Node} (hm : m ∈ n.children) :
    sizeOf m.type < sizeOf n.type := by
  rcases mem_children hm with ⟨name, ms, hs, hm⟩ | ⟨element, length, hs, hm⟩
  · obtain ⟨p, hp, rfl⟩ := mem_members.1 hm
    exact Ty.sizeOf_lt_of_mem_members hs (mem_of_mem_placeMembers hp)
  · obtain ⟨i, -, rfl⟩ := mem_elements.1 hm
    exact Ty.sizeOf_lt_of_element hs

theorem PreOrder.of_settles {below : List Node} (hk : n.Settles structs k)
    (hbelow : PreOrders structs k.children below) : n.PreOrder structs (k :: below) := by
  obtain ⟨t, ht, rfl⟩ := hk
  have hstarts := FirstFit.of_starts (t.stepsInPlace.map Prod.snd) 0
  rw [children_eq_partsAt _ hstarts] at hbelow
  exact .node (materialize_eq_ok_iff.1 ht) hstarts hbelow

theorem exists_preOrders {ms : List Node} (h : ∀ m ∈ ms, ∃ ks, m.PreOrder structs ks) :
    ∃ ks, PreOrders structs ms ks := by
  induction ms with
  | nil => exact ⟨[], .nil⟩
  | cons m ms ih =>
    rw [List.forall_mem_cons] at h
    obtain ⟨first, hfirst⟩ := h.1
    obtain ⟨rest, hrest⟩ := ih h.2
    exact ⟨first ++ rest, .cons hfirst hrest⟩

theorem exists_preOrder (hs : d.Defines structs) : ∀ {n : Node} {e : TypeExpr}, n.type.Reads d e →
    n.type.SpelledOut → ∃ ks, n.PreOrder structs ks := by
  intro n
  induction h : sizeOf n.type using Nat.strongRecOn generalizing n with
  | ind size ih =>
    intro e hn hsp
    obtain ⟨k, hk⟩ := exists_settles hs hn
    have hparts : ∀ m ∈ k.children, ∃ ks, m.PreOrder structs ks := by
      intro m hm
      rw [hk.children_eq hsp] at hm
      obtain ⟨f, hf, hfs⟩ := children_read hn hsp hm
      exact ih _ (h ▸ sizeOf_lt_of_mem_children hm) rfl hf hfs
    obtain ⟨below, hbelow⟩ := exists_preOrders hparts
    exact ⟨k :: below, .of_settles hk hbelow⟩

/-! ## What a tree says of its nodes -/

mutual
/-- All paths of a tree start with that of its root. -/
theorem PreOrder.startsWith : ∀ {n : Node} {ks : List Node}, n.PreOrder structs ks →
    ∀ k ∈ ks, k.path.StartsWith n.path
  | _, _, .node ht hstarts hbelow => by
    refine List.forall_mem_cons.2 ⟨.refl _, fun j hj => ?_⟩
    obtain ⟨m, hm, hstart⟩ := PreOrders.startsWith hbelow j hj
    rw [← children_eq_partsAt _ hstarts] at hm
    exact hstart.trans (child_extends hm).startsWith

theorem PreOrders.startsWith : ∀ {ms ks : List Node}, PreOrders structs ms ks →
    ∀ k ∈ ks, ∃ m ∈ ms, k.path.StartsWith m.path
  | _, _, .nil => nofun
  | _, _, .cons hm hms => by
    refine List.forall_mem_append.2 ⟨fun j hj => ?_, fun j hj => ?_⟩
    · exact ⟨_, List.mem_cons_self, PreOrder.startsWith hm j hj⟩
    · obtain ⟨m, hmem, hstart⟩ := PreOrders.startsWith hms j hj
      exact ⟨m, List.mem_cons_of_mem _ hmem, hstart⟩
end

mutual
/-- **No two nodes of a tree have the same path**, where members have names of their own. -/
theorem PreOrder.paths_nodup (hs : d.Defines structs) (hw : structs.WellNamed) :
    ∀ {n : Node} {ks : List Node} {e : TypeExpr}, n.PreOrder structs ks → n.type.Reads d e →
      n.type.SpelledOut → (ks.map (·.path)).Nodup
  | n, _, e, @PreOrder.node _ _ t _ _ _ ht hstarts hbelow, hn, hsp => by
    obtain ⟨hread, hset⟩ := (settles_of_madeReady ht).reads hs hn
    have hparts := children_eq_partsAt { n with type := t } hstarts
    have hnodup := children_paths_nodup hs hw hread
    rw [hparts] at hnodup
    rw [List.map_cons, List.nodup_cons]
    refine ⟨fun hmem => ?_, PreOrders.paths_nodup hs hw hbelow hnodup
      (fun m hm => depth_of_mem_children (hparts ▸ hm))
      fun m hm => children_read hread hset.spelledOut (hparts ▸ hm)⟩
    -- what lies below the root has a longer path
    obtain ⟨j, hj, hpath⟩ := List.mem_map.1 hmem
    obtain ⟨m, hm, hstart⟩ := PreOrders.startsWith hbelow j hj
    have hext := hstart.trans_extends (child_extends (hparts ▸ hm))
    rw [hpath] at hext
    exact hext.irrefl

theorem PreOrders.paths_nodup (hs : d.Defines structs) (hw : structs.WellNamed) :
    ∀ {ms ks : List Node} {depth : Nat}, PreOrders structs ms ks → (ms.map (·.path)).Nodup →
      (∀ m ∈ ms, m.path.depth = depth) → (∀ m ∈ ms, ∃ f, m.type.Reads d f ∧ m.type.SpelledOut) →
      (ks.map (·.path)).Nodup
  | _, _, _, .nil, _, _, _ => .nil
  | _, _, _, .cons hm hms, hnodup, hdepth, hread => by
    rw [List.map_cons, List.nodup_cons] at hnodup
    rw [List.forall_mem_cons] at hdepth hread
    obtain ⟨f, hf, hfs⟩ := hread.1
    rw [List.map_append, List.nodup_append]
    refine ⟨PreOrder.paths_nodup hs hw hm hf hfs,
      PreOrders.paths_nodup hs hw hms hnodup.2 hdepth.2 hread.2, fun p hp q hq heq => ?_⟩
    obtain ⟨j, hj, rfl⟩ := List.mem_map.1 hp
    obtain ⟨j', hj', rfl⟩ := List.mem_map.1 hq
    obtain ⟨m', hm', hstart'⟩ := PreOrders.startsWith hms j' hj'
    have hstart := PreOrder.startsWith hm j hj
    rw [heq] at hstart
    have hsame := hstart.eq_of_depth_eq hstart' (hdepth.1.trans (hdepth.2 m' hm').symm)
    exact hnodup.1 (hsame ▸ List.mem_map_of_mem hm')
end

/-! ### Elements -/

theorem elementTotal_cons (k : Node) (ks : List Node) :
    elementTotal (k :: ks) = k.type.arrayLength + elementTotal ks := List.sum_cons

theorem elementTotal_append (ks js : List Node) :
    elementTotal (ks ++ js) = elementTotal ks + elementTotal js := by
  rw [elementTotal, List.map_append, List.sum_append]
  rfl

theorem memberElementCount_le_sum : ∀ ms : List Member,
    memberElementCount ms ≤ (ms.map (·.2.elementCount)).sum
  | [] => Nat.le_refl 0
  | (_, t) :: ms => by
    rw [memberElementCount, List.map_cons, List.sum_cons]
    have hrest := memberElementCount_le_sum ms
    exact Nat.le_trans (Nat.min_le_left _ _) (Nat.add_le_add_left hrest _)

/-- A node counts at most its own elements and what its children count, also where a count
stops. -/
theorem elementCount_le_children (n : Node) :
    n.type.elementCount ≤ n.type.arrayLength + (n.children.map (·.type.elementCount)).sum := by
  rw [← Ty.elementCount_stored]
  unfold children Ty.arrayLength
  cases hs : n.type.stored with
  | struct name ms =>
    rw [members_elementCounts]
    exact Nat.le_trans (memberElementCount_le_sum ms) (Nat.le_add_left _ _)
  | fixedArray element length =>
    rw [elements_elementCounts, List.sum_replicate_nat, Nat.add_comm, ← Nat.mul_succ]
    exact Nat.le_trans (Nat.min_le_left _ _) (Nat.mul_le_mul_left _ (Nat.min_le_left _ _))
  | userDefined name kind underlying => exact absurd hs (Ty.stored_ne_userDefined n.type)
  | _ => exact Nat.zero_le _

mutual
/-- **The count of a value is no more than the elements that are there.** -/
theorem PreOrder.elementCount_le (hs : d.Defines structs) : ∀ {n : Node} {ks : List Node}
    {e : TypeExpr}, n.PreOrder structs ks → n.type.Reads d e → n.type.SpelledOut →
      n.type.elementCount ≤ elementTotal ks
  | n, _, _, @PreOrder.node _ _ t _ _ _ ht hstarts hbelow, hn, hsp => by
    have hk := settles_of_madeReady ht
    obtain ⟨hread, hset⟩ := hk.reads hs hn
    have hparts := children_eq_partsAt { n with type := t } hstarts
    have hchildren := PreOrders.elementCounts_le hs hbelow fun m hm =>
      children_read hread hset.spelledOut (hparts ▸ hm)
    have hcount := elementCount_le_children { n with type := t }
    rw [hparts] at hcount
    rw [elementTotal_cons, ← hk.elementCount_eq hsp]
    omega

theorem PreOrders.elementCounts_le (hs : d.Defines structs) :
    ∀ {ms ks : List Node}, PreOrders structs ms ks →
      (∀ m ∈ ms, ∃ f, m.type.Reads d f ∧ m.type.SpelledOut) →
      (ms.map (·.type.elementCount)).sum ≤ elementTotal ks
  | _, _, .nil, _ => Nat.le_refl 0
  | _, _, .cons hm hms, hread => by
    rw [List.forall_mem_cons] at hread
    obtain ⟨f, hf, hfs⟩ := hread.1
    have hfirst := PreOrder.elementCount_le hs hm hf hfs
    have hrest := PreOrders.elementCounts_le hs hms hread.2
    rw [List.map_cons, List.sum_cons, elementTotal_append]
    exact Nat.add_le_add hfirst hrest
end

/-- A node that the budget covers is opened, and has its own status. -/
theorem parts_of_elementCount_le {limit budget : Nat} (h : n.type.elementCount ≤ budget) :
    n.parts limit budget = ⟨n.ownStatus, n.children, budget - n.type.arrayLength⟩ := by
  cases hs : n.type.stored with
  | fixedArray element length =>
    rw [n.parts_of_covered limit hs h]
    simp only [ownStatus, hs]
  | _ => simp only [parts, ownStatus, children, Ty.arrayLength, hs, Nat.sub_zero]

/-- A tree has a node one step below its root unless there are no parts. -/
theorem PreOrders.eq_nil_of_depth {ms below : List Node} {depth : Nat}
    (h : PreOrders structs ms below) (hdepth : ∀ m ∈ ms, m.path.depth = depth + 1)
    (hcut : ∀ k ∈ below, k.path.depth ≤ depth) : ms = [] ∧ below = [] := by
  cases h with
  | nil => exact ⟨rfl, rfl⟩
  | cons hm _ =>
    cases hm with
    | node _ _ _ =>
      have hroot := hcut _ (List.mem_append_left _ List.mem_cons_self)
      rw [show _ = depth + 1 from hdepth _ List.mem_cons_self] at hroot
      exact absurd hroot (Nat.not_succ_le_self depth)

end Node

/-! ## The listing of a tree -/

namespace Listing

open Node

variable {d : Declarations} {structs : StructTable} {config : ResolverConfig}
  {contract declaredIn : String}

mutual
/-- **Where no limit is met, a listing is the pre-order of the node.** -/
theorem ofNode_preOrder (hs : d.Defines structs) : ∀ {n : Node} {ks : List Node} {e : TypeExpr}
    {room budget : Nat}, n.PreOrder structs ks → n.type.Reads d e → n.type.SpelledOut →
      (∀ k ∈ ks, k.path.depth ≤ n.path.depth + room) → elementTotal ks ≤ budget →
      ofNode structs config contract declaredIn room budget n =
        ⟨ks.map fun k => k.record contract declaredIn k.ownStatus, none,
          budget - elementTotal ks⟩
  | n, _, e, room, budget, @PreOrder.node _ _ t starts _ below ht hstarts hbelow, hn, hsp, hdepth,
      hbudget => by
    have hk := settles_of_madeReady ht
    have hcount := Nat.le_trans (PreOrder.elementCount_le hs (.node ht hstarts hbelow) hn hsp)
      hbudget
    rw [← hk.elementCount_eq hsp] at hcount
    rw [elementTotal_cons] at hbudget ⊢
    have hlisted := children_eq_partsAt { n with type := t } hstarts
    have hparts : ({ n with type := t } : Node).parts config.maxArrayElements budget = _ :=
      parts_of_elementCount_le hcount
    rw [hlisted] at hparts
    have hdeeper : ∀ m ∈ ({ n with type := t } : Node).partsAt starts,
        m.path.depth = n.path.depth + 1 := by
      intro m hm
      rw [← hlisted] at hm
      exact depth_of_mem_children (n := { n with type := t }) hm
    have hbelowDepth : ∀ j ∈ below, j.path.depth ≤ n.path.depth + room :=
      fun j hj => hdepth j (List.mem_cons_of_mem _ hj)
    cases room with
    | zero =>
      -- there is no room below the node, and nothing that would need it
      obtain ⟨hnil, rfl⟩ := hbelow.eq_nil_of_depth hdeeper hbelowDepth
      simp only [ofNode, materialize_eq_ok_iff.2 ht, hparts, hnil]
      rfl
    | succ room =>
      obtain ⟨hread, hset⟩ := hk.reads hs hn
      have hrest := @ofNodes_preOrder hs _ _ _ room
        (budget - ({ n with type := t } : Node).type.arrayLength) hbelow
        (fun m hm => children_read hread hset.spelledOut (hlisted ▸ hm)) hdeeper
        (by rwa [Nat.add_right_comm]) (by omega)
      rw [ofNode_succ hk, hparts, behind, hrest, Nat.sub_sub]
      rfl

theorem ofNodes_preOrder (hs : d.Defines structs) : ∀ {ms ks : List Node} {depth room budget : Nat},
    PreOrders structs ms ks → (∀ m ∈ ms, ∃ f, m.type.Reads d f ∧ m.type.SpelledOut) →
      (∀ m ∈ ms, m.path.depth = depth) → (∀ k ∈ ks, k.path.depth ≤ depth + room) →
      elementTotal ks ≤ budget →
      ofNodes (ofNode structs config contract declaredIn room) budget ms =
        ⟨ks.map fun k => k.record contract declaredIn k.ownStatus, none,
          budget - elementTotal ks⟩
  | _, _, _, _, _, .nil, _, _, _, _ => rfl
  | _, _, _, room, budget, .cons hm hms, hread, hdepth, hroom, hbudget => by
    rw [List.forall_mem_cons] at hread hdepth
    rw [List.forall_mem_append] at hroom
    rw [elementTotal_append] at hbudget ⊢
    obtain ⟨f, hf, hfs⟩ := hread.1
    have hfirst := @ofNode_preOrder hs _ _ f room budget hm hf hfs (hdepth.1 ▸ hroom.1) (by omega)
    rw [ofNodes, hfirst]
    simp only
    rw [ofNodes_preOrder hs hms hread.2 hdepth.2 hroom.2 (by omega), Nat.sub_sub, List.map_append]
end

end Listing

/-! ## The value at a path -/

/-- The value that a path leads to, however long the path is, and the contract that declares its
variable. -/
inductive Model.ValueAt (m : Model) (contract : String) (asked : VariablePath) :
    String → Node → Prop
  | intro {ps : List Placement} {p : Placement} {found : Derived}
    (hps : m.placements contract = .ok ps) (hp : ps.find? (·.name == asked.base) = some p)
    (hfound : derive p.location p.type asked.steps asked.depth m.structs = .ok found) :
    m.ValueAt contract asked p.declarer ⟨⟨p.name, found.steps⟩, found.location, found.type⟩

namespace Model.ValueAt

variable {m : Model} {contract declaredIn : String} {asked : VariablePath} {value : Node}
  (h : m.ValueAt contract asked declaredIn value)

include h

theorem reads {d : Declarations} (hd : d.Describes m) :
    ∃ e, value.type.Reads d e ∧ value.type.Settled := by
  cases h with
  | intro hps hp hfound =>
    obtain ⟨e, he, -⟩ := placements_read hd hps _ (List.mem_of_find?_eq_some hp)
    exact derive_reads hd.structs he hfound

theorem depth_eq : value.path.depth = asked.depth := by
  cases h with
  | intro hps hp hfound => exact (length_steps_of_derive hfound).trans (Nat.min_self _)

/-- A path that is not cut is resolved to the listing of its value. -/
theorem path_eq (config : ResolverConfig) (hdepth : asked.depth ≤ config.maxDepth) :
    (Resolver.mk m config).path contract asked =
      LayoutStore.insertListing {} ((Resolver.mk m config).listing contract declaredIn value) := by
  cases h with
  | intro hps hp hfound =>
    have hfound := (derive_of_length_le hdepth (Nat.le_refl _)).trans hfound
    have huncut : isTruncated asked.steps config.maxDepth = false :=
      decide_eq_false (Nat.not_lt.2 hdepth)
    simp only [Resolver.path, hps, hp, hfound, huncut, Bool.false_eq_true, ↓reduceIte]

end Model.ValueAt

/-- **The records at a path are the pre-order of its value.** A value that a path leads to has a
tree of nodes with different paths; where none of them lies deeper than the depth allowed, and their
arrays have no more elements together than are allowed, the path is resolved to one record for each
of them, in the order of the tree, that tells of the node and nothing else; so only references to
code are unresolved. -/
theorem path_preOrder {text : String} {m : Model} (hm : Model.parse text = .ok m)
    (hw : m.structs.WellNamed) {contract declaredIn : String} {asked : VariablePath} {value : Node}
    (hvalue : m.ValueAt contract asked declaredIn value) :
    (∃ ks, value.PreOrder m.structs ks) ∧
    ∀ ks, value.PreOrder m.structs ks → (ks.map (·.path)).Nodup ∧
      ∀ config : ResolverConfig, (∀ k ∈ ks, k.path.depth ≤ config.maxDepth) →
        Node.elementTotal ks ≤ config.maxArrayElements →
        ∃ s, (Resolver.mk m config).path contract asked = .ok s ∧
          List.Forall₂ (SlotRecord.Tells contract declaredIn) s.records ks := by
  obtain ⟨d, hd⟩ := Model.parse_describes hm
  obtain ⟨e, he, hset⟩ := hvalue.reads hd
  refine ⟨Node.exists_preOrder hd.structs he hset.spelledOut, fun ks hks => ?_⟩
  have hnodup := hks.paths_nodup hd.structs hw he hset.spelledOut
  refine ⟨hnodup, fun config hdepth helements => ?_⟩
  have hroot : value.path.depth ≤ config.maxDepth := by
    cases hks with
    | @node _ t _ _ below _ _ _ => exact hdepth { value with type := t } List.mem_cons_self
  have hlisting : (Resolver.mk m config).listing contract declaredIn value =
      ⟨ks.map fun k => k.record contract declaredIn k.ownStatus, none,
        config.maxArrayElements - Node.elementTotal ks⟩ := by
    refine Listing.ofNode_preOrder hd.structs hks he hset.spelledOut (fun k hk => ?_) helements
    rw [Nat.add_sub_cancel' hroot]
    exact hdepth k hk
  have hpaths : (((Resolver.mk m config).listing contract declaredIn value).records.map
      (·.path)).Nodup := by
    rw [hlisting, List.map_map]
    exact hnodup
  have hd : d.Describes (Resolver.mk m config).model := hd
  have hkeys := Resolver.listing_keys_nodup hd he hset hw hpaths
  have hstored := LayoutStore.insertListing_of_nodup (Resolver.listing_failure hd he) hkeys
  refine ⟨_, (hvalue.path_eq config (hvalue.depth_eq ▸ hroot)).trans hstored, ?_⟩
  rw [hlisting, List.forall₂_map_left_iff, List.forall₂_same]
  exact fun k _ => k.record_tells contract declaredIn

namespace Sample

/-- A document with a struct that has packed members, a reference to code, an array of structs of
its own kind and a static array. -/
def kinText : String :=
  r#"{"contracts":[{"name":"A","variables":[{"name":"s","type":"S"}]}],
    "structs":{"S":[{"name":"age","type":"uint8"},{"name":"hook","type":"function external"},
      {"name":"kids","type":"S[]"},{"name":"pair","type":"uint16[2]"}]}}"#

def kinMembers : List Member :=
  [("age", .uint 8), ("hook", .function true), ("kids", .dynamicArray (.structRef "S")),
    ("pair", .fixedArray (.uint 16) 2)]

def kinModel : Model :=
  ⟨[⟨"A", [⟨"s", "A", 0, .struct "S" kinMembers, false, false⟩], []⟩], [("S", kinMembers)]⟩

theorem parse_kinText : Model.parse kinText = .ok kinModel :=
  eq_ok_of_any_beq (by decide +kernel)

def kinNode : Node := ⟨⟨"s", []⟩, ⟨0, 0⟩, .struct "S" kinMembers⟩

/-- The members in their order, the array of structs spelled out once more. -/
def kinTree : List Node :=
  [kinNode,
    ⟨⟨"s", [.field "age"]⟩, ⟨0, 0⟩, .uint 8⟩,
    ⟨⟨"s", [.field "hook"]⟩, ⟨0, 1⟩, .function true⟩,
    ⟨⟨"s", [.field "kids"]⟩, ⟨1, 0⟩, .dynamicArray (.struct "S" kinMembers)⟩,
    ⟨⟨"s", [.field "pair"]⟩, ⟨2, 0⟩, .fixedArray (.uint 16) 2⟩,
    ⟨⟨"s", [.field "pair", .index 0]⟩, ⟨2, 0⟩, .uint 16⟩,
    ⟨⟨"s", [.field "pair", .index 1]⟩, ⟨2, 2⟩, .uint 16⟩]

theorem kinTree_preOrder : kinNode.PreOrder kinModel.structs kinTree := by
  have hleaf {p : VariablePath} {l : Location} {t u : Ty}
      (ht : materialize kinModel.structs t = .ok u) (hu : Node.children ⟨p, l, u⟩ = []) :
      Node.PreOrder kinModel.structs ⟨p, l, t⟩ [⟨p, l, u⟩] := by
    refine .of_settles ⟨u, ht, rfl⟩ ?_
    rw [hu]
    exact .nil
  have hpair : Node.PreOrder kinModel.structs
      ⟨⟨"s", [.field "pair"]⟩, ⟨2, 0⟩, .fixedArray (.uint 16) 2⟩ _ :=
    .of_settles ⟨_, rfl, rfl⟩ (.cons (hleaf rfl rfl) (.cons (hleaf rfl rfl) .nil))
  exact .of_settles ⟨_, rfl, rfl⟩ (.cons (hleaf rfl rfl)
    (.cons (hleaf rfl rfl) (.cons (hleaf rfl rfl) (.cons hpair .nil))))

end Sample

/-- Two steps and two elements are enough for the struct; the reference to code is unresolved. -/
theorem path_preOrder_kin : Model.parse Sample.kinText = .ok Sample.kinModel ∧
    Sample.kinModel.structs.WellNamed ∧
    Sample.kinModel.ValueAt "A" ⟨"s", []⟩ "A" Sample.kinNode ∧
    Sample.kinNode.PreOrder Sample.kinModel.structs Sample.kinTree ∧
    ∃ s, (Resolver.mk Sample.kinModel { maxDepth := 2, maxArrayElements := 2 }).path "A"
        ⟨"s", []⟩ = .ok s ∧
      List.Forall₂ (SlotRecord.Tells "A" "A") s.records Sample.kinTree := by
  have hw : Sample.kinModel.structs.WellNamed := by unfold StructTable.WellNamed; decide
  have hvalue : Sample.kinModel.ValueAt "A" ⟨"s", []⟩ "A" Sample.kinNode :=
    @Model.ValueAt.intro Sample.kinModel "A" _ _ ⟨"s", "A", .struct "S" Sample.kinMembers, ⟨0, 0⟩⟩
      ⟨⟨0, 0⟩, .struct "S" Sample.kinMembers, []⟩ rfl rfl rfl
  obtain ⟨-, hall⟩ := path_preOrder Sample.parse_kinText hw hvalue
  obtain ⟨-, hpath⟩ := hall Sample.kinTree Sample.kinTree_preOrder
  exact ⟨Sample.parse_kinText, hw, hvalue, Sample.kinTree_preOrder,
    hpath _ (by decide) (by decide)⟩

end StorageAtlas
