import StorageAtlas.Proofs.Agreement
import StorageAtlas.Proofs.Budget

/-!
# Arrays are listed whole or not at all

`listing_keepsBudget`: in the listing of a variable, or of a value that a path leads to, every
static array has the records of all its elements or says why it has none, and in an array that has
them no other array is refused for the budget.

What a listing shows of an array stands in the listing of the array itself, since nothing else has
paths that go on from the array's path: the listings that stand side by side are those of nodes with
different paths of one depth (`AllOrNothing.append`).
-/

namespace StorageAtlas

/-! ## Paths that begin alike -/

namespace VariablePath

/-- The path is the other one, or the other one with more steps. -/
def StartsWith (p q : VariablePath) : Prop := p.base = q.base ∧ q.steps <+: p.steps

variable {p q q' : VariablePath}

theorem StartsWith.refl (p : VariablePath) : p.StartsWith p := ⟨rfl, List.prefix_refl _⟩

theorem Extends.startsWith (h : p.Extends q) : p.StartsWith q := by
  obtain ⟨hbase, more, -, hsteps⟩ := h
  exact ⟨hbase, more, hsteps.symm⟩

theorem StartsWith.trans_extends (h : p.StartsWith q) (h' : q.Extends q') : p.Extends q' := by
  obtain ⟨hbase, more, hsteps⟩ := h
  obtain ⟨hbase', more', hne, hsteps'⟩ := h'
  refine ⟨hbase.trans hbase', more' ++ more, by simp [hne], ?_⟩
  rw [← hsteps, hsteps', List.append_assoc]

/-- Of each depth a path starts with one path. -/
theorem StartsWith.eq_of_depth_eq (h : p.StartsWith q) (h' : p.StartsWith q')
    (hdepth : q.depth = q'.depth) : q = q' := by
  have hprefix := List.prefix_of_prefix_length_le h.2 h'.2 (Nat.le_of_eq hdepth)
  have hsteps := hprefix.eq_of_length hdepth
  cases q
  cases q'
  obtain rfl := h.1.symm.trans h'.1
  obtain rfl := hsteps
  rfl

theorem StartsWith.trans (h : p.StartsWith q) (h' : q.StartsWith q') : p.StartsWith q' :=
  ⟨h.1.trans h'.1, h'.2.trans h.2⟩

end VariablePath

/-! ## Paths of the children of a node -/

namespace Node

variable {d : Declarations} {structs : StructTable} {n m : Node} {e : TypeExpr}

theorem depth_of_mem_children (h : m ∈ n.children) : m.path.depth = n.path.depth + 1 := by
  obtain ⟨step, hstep⟩ := exists_child_of_mem_children h
  rw [hstep, VariablePath.depth, VariablePath.child, List.length_append]
  rfl

theorem child_extends (h : m ∈ n.children) : m.path.Extends n.path := by
  obtain ⟨step, hstep⟩ := exists_child_of_mem_children h
  exact hstep ▸ VariablePath.child_extends

/-- The children of a node have paths of their own. -/
theorem children_paths_nodup (hs : d.Defines structs) (hw : structs.WellNamed)
    (hn : n.type.Reads d e) : (n.children.map (·.path)).Nodup := by
  by_cases hvalue : n.type.isValueType
  · rw [children_of_isValueType hvalue]
    exact .nil
  · have hst := hn.stored_eq hvalue
    unfold children
    rw [hst]
    cases htype : n.type with
    | struct name ms =>
      rw [htype] at hn
      obtain ⟨hnodup, -⟩ := hn.wellNamed hs hw
      have hnames : ((placeMembers ms).map (·.name)).Nodup := placeMembers_names ms ▸ hnodup
      simp only [members, List.map_map]
      refine List.pairwise_map.2 ((List.pairwise_map.1 hnames).imp fun hne heq => hne ?_)
      simpa [VariablePath.child] using heq
    | fixedArray element length =>
      simp only [elements, List.map_map]
      refine List.pairwise_map.2 (List.nodup_range.imp_of_mem fun {i j} hi hj hne heq => hne ?_)
      have hlength := length.toNat_lt
      have hword : Word.ofNat i = Word.ofNat j := by simpa [VariablePath.child] using heq
      have htoNat := congrArg BitVec.toNat hword
      rwa [Word.toNat_ofNat_of_lt (by have := List.mem_range.1 hi; omega),
        Word.toNat_ofNat_of_lt (by have := List.mem_range.1 hj; omega)] at htoNat
    | _ => exact .nil

end Node

/-! ## What is shown of an array -/

/-- All or nothing of the array in the record `a` stands in some records: its elements are all
there, and nothing in it is refused for the budget; or a reason says why nothing of it is there. -/
inductive SlotRecord.ShownIn (structs : StructTable) (limit : Nat) (records : List SlotRecord)
    (a : SlotRecord) (element : Ty) (length : Nat) : Prop
  | whole (resolved : a.status = .resolved)
    (elements : ∀ i < length, ∃ t status, materialize structs element = .ok t ∧
      (Node.mk (a.path.child (.index (Word.ofNat i)))
        (elementLocation a.location.slot element (Word.ofNat i)) t).record a.contract a.declaredIn
          status ∈ records)
    (covered : ∀ b ∈ records, b.path.Extends a.path → ¬b.IsOverBudget limit)
  | bare (reason : ∃ text, a.status = .incomplete text)
    (nothing : ∀ b ∈ records, ¬b.path.Extends a.path)

/-- Records with paths of their own, which show all or nothing of each array in them. -/
structure AllOrNothing (structs : StructTable) (limit : Nat) (records : List SlotRecord) :
    Prop where
  paths : (records.map (·.path)).Nodup
  arrays : ∀ a ∈ records, ∀ element length, a.type.stored = .fixedArray element length →
    0 < length.toNat → a.ShownIn structs limit records element length.toNat

section Shown

variable {structs : StructTable} {limit : Nat} {a : SlotRecord} {xs ys : List SlotRecord}

/-- What is added elsewhere changes nothing of what is shown of an array. -/
theorem SlotRecord.ShownIn.mono {element : Ty} {length : Nat}
    (h : a.ShownIn structs limit xs element length) (hsub : xs ⊆ ys)
    (hnew : ∀ b ∈ ys, b.path.Extends a.path → b ∈ xs) :
    a.ShownIn structs limit ys element length := by
  cases h with
  | whole resolved elements covered =>
    refine .whole resolved (fun i hi => ?_) fun b hb hext => covered b (hnew b hb hext) hext
    obtain ⟨t, status, ht, hmem⟩ := elements i hi
    exact ⟨t, status, ht, hsub hmem⟩
  | bare reason nothing => exact .bare reason fun b hb hext => nothing b (hnew b hb hext) hext

theorem AllOrNothing.nil : AllOrNothing structs limit [] := ⟨.nil, nofun⟩

/-- A record of which nothing is shown. -/
theorem AllOrNothing.singleton (h : ∀ element length, a.type.stored = .fixedArray element length →
    0 < length.toNat → ∃ text, a.status = .incomplete text) : AllOrNothing structs limit [a] := by
  refine ⟨List.pairwise_singleton _ _, ?_⟩
  refine List.forall_mem_singleton.2 fun element length hs hpos => ?_
  exact .bare (h element length hs hpos) (List.forall_mem_singleton.2 VariablePath.Extends.irrefl)

/-- A record and what stands below it. -/
theorem AllOrNothing.cons (h : AllOrNothing structs limit xs)
    (hbelow : ∀ x ∈ xs, x.path.Extends a.path)
    (ha : ∀ element length, a.type.stored = .fixedArray element length → 0 < length.toNat →
      a.ShownIn structs limit (a :: xs) element length.toNat) :
    AllOrNothing structs limit (a :: xs) := by
  refine ⟨List.nodup_cons.2 ⟨fun hmem => ?_, h.paths⟩, List.forall_mem_cons.2 ⟨ha, ?_⟩⟩
  · obtain ⟨x, hx, hpath⟩ := List.mem_map.1 hmem
    have hext := hbelow x hx
    rw [hpath] at hext
    exact hext.irrefl
  · intro x hx element length hs hpos
    refine (h.arrays x hx element length hs hpos).mono (List.subset_cons_self a xs) ?_
    intro b hb hext
    rcases List.mem_cons.1 hb with rfl | hb
    · exact absurd (hext.trans (hbelow x hx)) VariablePath.Extends.irrefl
    · exact hb

/-- Records side by side, of which none starts with a path of the others. -/
theorem AllOrNothing.append (hx : AllOrNothing structs limit xs)
    (hy : AllOrNothing structs limit ys)
    (hapart : ∀ x ∈ xs, ∀ y ∈ ys, ¬x.path.StartsWith y.path ∧ ¬y.path.StartsWith x.path) :
    AllOrNothing structs limit (xs ++ ys) := by
  refine ⟨?_, List.forall_mem_append.2 ⟨fun a ha element length hs hpos => ?_,
    fun a ha element length hs hpos => ?_⟩⟩
  · rw [List.map_append, List.nodup_append]
    refine ⟨hx.paths, hy.paths, ?_⟩
    intro p hp q hq heq
    obtain ⟨x, hx, rfl⟩ := List.mem_map.1 hp
    obtain ⟨y, hy, rfl⟩ := List.mem_map.1 hq
    exact (hapart x hx y hy).1 (heq ▸ .refl _)
  · refine (hx.arrays a ha element length hs hpos).mono (List.subset_append_left xs ys) ?_
    intro b hb hext
    exact (List.mem_append.1 hb).resolve_right fun hb => (hapart a ha b hb).2 hext.startsWith
  · refine (hy.arrays a ha element length hs hpos).mono (List.subset_append_right xs ys) ?_
    intro b hb hext
    exact (List.mem_append.1 hb).resolve_left fun hb => (hapart b hb a ha).1 hext.startsWith

end Shown

/-! ## Listings -/

namespace Listing

variable {d : Declarations} {structs : StructTable} {config : ResolverConfig}
  {contract declaredIn : String} {limit : Nat}

/-- The records of a listing have paths that start with that of the node. -/
theorem ofNode_startsWith (hs : d.Defines structs) {room budget : Nat} {n : Node} {e : TypeExpr}
    (hn : n.type.Reads d e) :
    ∀ r ∈ (ofNode structs config contract declaredIn room budget n).records,
      r.path.StartsWith n.path := by
  intro r hr
  have hnone : (ofNode structs config contract declaredIn room budget n).failure = none :=
    ofNode_failure hs hn
  obtain ⟨k, hk⟩ := Node.exists_settles hs hn
  obtain ⟨j, status, rfl, hj, -⟩ := ofNode_below (fun _ => True) k hnone hk (fun _ _ _ => trivial)
    (fun _ => .root trivial) r hr
  rw [← hk.path_eq]
  rcases hj.path_eq_or_extends with heq | hext
  · show j.path.StartsWith k.path
    rw [heq]
    exact .refl _
  · exact hext.startsWith

/-- Listings of nodes with different paths of one depth, one behind the other. -/
theorem ofNodes_allOrNothing {list : Nat → Node → Listing} {depth most : Nat} {ns : List Node}
    (hdepth : ∀ n ∈ ns, n.path.depth = depth) (hnodup : (ns.map (·.path)).Nodup)
    (hnone : ∀ n ∈ ns, ∀ b, (list b n).failure = none)
    (hstart : ∀ n ∈ ns, ∀ b, ∀ r ∈ (list b n).records, r.path.StartsWith n.path)
    (hleft : ∀ n ∈ ns, ∀ b, (list b n).budget ≤ b)
    (h : ∀ n ∈ ns, ∀ b ≤ most, AllOrNothing structs limit (list b n).records) :
    ∀ {budget : Nat}, budget ≤ most →
      AllOrNothing structs limit (ofNodes list budget ns).records ∧
        ∀ r ∈ (ofNodes list budget ns).records, ∃ n ∈ ns, r.path.StartsWith n.path := by
  induction ns with
  | nil => intro budget _; exact ⟨.nil, nofun⟩
  | cons n ns ih =>
    intro budget hbudget
    rw [List.forall_mem_cons] at hdepth hnone hstart hleft h
    rw [List.map_cons, List.nodup_cons] at hnodup
    have hn := hnone.1 budget
    have hhead := h.1 budget hbudget
    have hunder := hstart.1 budget
    have hle := hleft.1 budget
    rcases hl : list budget n with ⟨records, failure, left⟩
    rw [hl] at hn hhead hunder hle
    obtain rfl : failure = none := hn
    simp only at hhead hunder hle
    obtain ⟨hrest, hbehind⟩ := ih hdepth.2 hnodup.2 hnone.2 hstart.2 hleft.2 h.2
      (Nat.le_trans hle hbudget)
    simp only [ofNodes, hl]
    refine ⟨hhead.append hrest fun x hx y hy => ?_, List.forall_mem_append.2 ⟨?_, ?_⟩⟩
    · obtain ⟨n', hn', hy⟩ := hbehind y hy
      have hne : n.path ≠ n'.path := fun heq => hnodup.1 (heq ▸ List.mem_map_of_mem hn')
      have heq : n.path.depth = n'.path.depth := hdepth.1.trans (hdepth.2 n' hn').symm
      exact ⟨fun hxy => hne ((hunder x hx).eq_of_depth_eq (hxy.trans hy) heq),
        fun hyx => hne ((hyx.trans (hunder x hx)).eq_of_depth_eq hy heq)⟩
    · exact fun r hr => ⟨n, List.mem_cons_self, hunder r hr⟩
    · intro r hr
      obtain ⟨n', hn', hr⟩ := hbehind r hr
      exact ⟨n', List.mem_cons_of_mem _ hn', hr⟩

/-- Where the children of a node are listed, each of them has its record. -/
theorem exists_record_of_mem_children (hs : d.Defines structs) {room budget : Nat} {k m : Node}
    {e : TypeExpr} (hk : k.type.Reads d e) (hset : k.type.Settled) (hm : m ∈ k.children) :
    ∃ t status, materialize structs m.type = .ok t ∧
      (Node.mk m.path m.location t).record contract declaredIn status ∈
        (ofNodes (ofNode structs config contract declaredIn room) budget k.children).records := by
  have hnone : ∀ n ∈ k.children, ∀ b,
      (ofNode structs config contract declaredIn room b n).failure = none := by
    intro n hn b
    obtain ⟨f, hf, -⟩ := Node.children_read hk hset.spelledOut hn
    exact ofNode_failure hs hf
  obtain ⟨b, -, hsub⟩ := (ofNodes_records (ofNodes_failure hnone)).1 m hm
  obtain ⟨f, hf, -⟩ := Node.children_read hk hset.spelledOut hm
  obtain ⟨t, ht, -⟩ := materialize_reads hs hf
  obtain ⟨status, rest, hhead⟩ : ∃ status rest,
      (ofNode structs config contract declaredIn room b m).records =
        (Node.mk m.path m.location t).record contract declaredIn status :: rest :=
    ofNode_head ⟨t, ht, rfl⟩
  exact ⟨t, status, ht, hsub (hhead ▸ List.mem_cons_self)⟩

/-- The children of a node show all or nothing of the arrays in them, if each of them does. -/
theorem children_allOrNothing (hs : d.Defines structs) (hw : structs.WellNamed) {room budget : Nat}
    {k : Node} {e : TypeExpr} (hk : k.type.Reads d e) (hset : k.type.Settled)
    (h : ∀ m ∈ k.children, ∀ b ≤ budget, AllOrNothing structs limit
      (ofNode structs config contract declaredIn room b m).records) :
    AllOrNothing structs limit
        (ofNodes (ofNode structs config contract declaredIn room) budget k.children).records ∧
      ∀ r ∈ (ofNodes (ofNode structs config contract declaredIn room) budget k.children).records,
        r.path.Extends k.path := by
  have hreads : ∀ m ∈ k.children, ∃ f, m.type.Reads d f := fun m hm =>
    (Node.children_read hk hset.spelledOut hm).imp fun _ hm => hm.1
  obtain ⟨hall, hunder⟩ := ofNodes_allOrNothing (fun m hm => Node.depth_of_mem_children hm)
    (Node.children_paths_nodup hs hw hk)
    (fun m hm b => (hreads m hm).elim fun _ hf => ofNode_failure hs hf)
    (fun m hm b => (hreads m hm).elim fun _ hf => ofNode_startsWith hs hf)
    (fun m _ b => Nat.le.intro (ofNode_charged room b m)) h (Nat.le_refl budget)
  refine ⟨hall, fun r hr => ?_⟩
  obtain ⟨m, hm, hr⟩ := hunder r hr
  exact hr.trans_extends (Node.child_extends hm)

/-- An array that the budget covers is shown with all of its elements. -/
theorem shownIn_of_covered (hs : d.Defines structs) {room budget : Nat} {k : Node} {e : TypeExpr}
    (hk : k.type.Reads d e) (hset : k.type.Settled) {element : Ty} {length : UInt64}
    (hstored : k.type.stored = .fixedArray element length)
    (hstop : k.type.elementCount < UInt64.size - 1) (hcount : k.type.elementCount ≤ budget) :
    (k.record contract declaredIn .resolved).ShownIn structs config.maxArrayElements
      (k.record contract declaredIn .resolved ::
        (ofNodes (ofNode structs config contract declaredIn room)
          (budget - k.type.arrayLength) k.children).records) element length.toNat := by
  refine .whole rfl (fun i hi => ?_) fun b hb _ => ?_
  · have hchild : Node.mk (k.path.child (.index (Word.ofNat i)))
        (elementLocation k.location.slot element (Word.ofNat i)) element ∈ k.children := by
      rw [Node.children, hstored]
      exact Node.mem_elements.2 ⟨i, hi, rfl⟩
    obtain ⟨t, status, ht, hmem⟩ := exists_record_of_mem_children hs hk hset hchild
    exact ⟨t, status, ht, List.mem_cons_of_mem _ hmem⟩
  · -- the records are those of the array's own listing
    have hself : ofNode structs config contract declaredIn (room + 1) budget k = _ :=
      ofNode_succ (Node.settles_of_settled hset)
    rw [k.parts_of_covered _ hstored hcount] at hself
    have hover : ∀ r ∈ (ofNode structs config contract declaredIn (room + 1) budget k).records,
        ¬r.IsOverBudget config.maxArrayElements :=
      (ofNode_within hs _ _ _ hk hset.spelledOut hstop hcount).1
    rw [hself] at hover
    exact hover b hb

/-- **A listing shows all or nothing of each array.** -/
theorem ofNode_allOrNothing (hs : d.Defines structs) (hw : structs.WellNamed) (room budget : Nat)
    (n : Node) {e : TypeExpr} (hn : n.type.Reads d e) (hstop : budget < UInt64.size - 1) :
    AllOrNothing structs config.maxArrayElements
      (ofNode structs config contract declaredIn room budget n).records := by
  revert e hn hstop
  refine ofNode_induct (P := fun budget n l => ∀ {e : TypeExpr}, n.type.Reads d e →
    budget < UInt64.size - 1 → AllOrNothing structs config.maxArrayElements l.records)
    (fun _ _ _ _ _ _ => .nil) (fun _ _ _ _ _ => .singleton fun _ _ _ _ => ⟨_, rfl⟩) ?_
    room budget n
  intro room budget n k hk ih e hn hstop
  obtain ⟨hread, hset⟩ := hk.reads hs hn
  have hparts := k.parts_opens config.maxArrayElements budget
  generalize k.parts config.maxArrayElements budget = parts at hparts ih ⊢
  cases hparts with
  | exceeded _ => exact .singleton fun _ _ _ _ => ⟨_, rfl⟩
  | @whole status hstatus hcount =>
    obtain ⟨hrest, hbelow⟩ := @children_allOrNothing d structs config contract declaredIn
      config.maxArrayElements hs hw room (budget - k.type.arrayLength) k e hread hset
      fun m hm b hb => by
        obtain ⟨f, hf, -⟩ := Node.children_read hread hset.spelledOut hm
        exact ih m hm b hf (by omega)
    refine hrest.cons hbelow fun element length hstored hpos => ?_
    have hstored : k.type.stored = .fixedArray element length := hstored
    have hlength : k.type.arrayLength ≠ 0 := by
      rw [Ty.arrayLength_eq hstored]
      exact Nat.pos_iff_ne_zero.1 hpos
    obtain rfl := hstatus.resolve_right fun h => hlength h.1
    have hcovered := hcount.resolve_left hlength
    exact shownIn_of_covered hs hread hset hstored (Nat.lt_of_le_of_lt hcovered hstop) hcovered

end Listing

/-! ## What a resolver lists -/

/-- The values that a resolver lists in a contract: its variables, and what paths lead to that are
not cut. -/
inductive Resolver.Lists (r : Resolver) (contract : String) : String → Node → Prop
  | placed {ps : List Placement} {p : Placement} (hps : r.model.placements contract = .ok ps)
    (hp : p ∈ ps) : r.Lists contract p.declarer p.node
  | reached {ps : List Placement} {p : Placement} {steps : List AccessStep} {found : Derived}
    (hps : r.model.placements contract = .ok ps) (hp : p ∈ ps)
    (hfound : derive p.location p.type steps r.config.maxDepth r.model.structs = .ok found)
    (hcut : isTruncated steps r.config.maxDepth = false) :
    r.Lists contract p.declarer ⟨⟨p.name, found.steps⟩, found.location, found.type⟩

theorem Resolver.Lists.reads {d : Declarations} {r : Resolver} {contract declaredIn : String}
    {n : Node} (hd : d.Describes r.model) (h : r.Lists contract declaredIn n) :
    ∃ e, n.type.Reads d e ∧ n.type.Settled := by
  cases h with
  | placed hps hp => exact Model.placements_read hd hps _ hp
  | reached hps hp hfound _ =>
    obtain ⟨e, he, -⟩ := Model.placements_read hd hps _ hp
    exact derive_reads hd.structs he hfound

/-- The records of a listing have keys of their own. -/
theorem Resolver.listing_keys_nodup {d : Declarations} {r : Resolver} (hd : d.Describes r.model)
    {contract declaredIn : String} {n : Node} {e : TypeExpr} (hn : n.type.Reads d e)
    (hset : n.type.Settled) (hw : r.model.structs.WellNamed)
    (hpaths : ((r.listing contract declaredIn n).records.map (·.path)).Nodup) :
    ((r.listing contract declaredIn n).records.map (·.key)).Nodup := by
  rw [List.Nodup, List.pairwise_map] at hpaths ⊢
  refine hpaths.imp_of_mem fun {a b} ha hb hne hkey => ?_
  obtain ⟨j, status, rfl, hj⟩ := r.listing_below hd hn hset a ha
  obtain ⟨k, status', rfl, hk⟩ := r.listing_below hd hn hset b hb
  obtain rfl := Below.eq_of_text_eq hd.structs hw hn hset hj hk (congrArg RecordKey.path hkey)
  exact hne rfl

/-- What it means that the listing of a value keeps to a budget of so many elements. -/
structure Listing.KeepsBudget (structs : StructTable) (limit : Nat) (n : Node) (l : Listing) :
    Prop where
  /-- A store that was empty has all of the records. -/
  stored : LayoutStore.insertListing {} l = .ok ⟨l.records⟩
  /-- To any store at most so many elements are added, the value itself not counted. -/
  added : ∀ {s s' : LayoutStore}, s.insertListing l = .ok s' →
    ∃ more, s'.records = s.records ++ more ∧ more.Sublist l.records ∧
      more.countP (fun r => r.path.isElement ∧ r.path ≠ n.path) ≤ limit
  /-- What was taken and what is left make up the budget: nothing was taken that was not there. -/
  spent : l.budget + l.charged limit = limit
  arrays : ∀ a ∈ l.records, ∀ element length, a.type.stored = .fixedArray element length →
    0 < length.toNat → a.ShownIn structs limit l.records element length.toNat

/-- **Arrays are listed whole or not at all, within the budget.** The listing of a variable, or of a
value that a path leads to, has at most as many elements as the budget allows; a static array that
is not empty has the records of all its elements, and none in it is refused for the budget, or it
says why it has none. -/
theorem listing_keepsBudget {text : String} {m : Model} (hm : Model.parse text = .ok m)
    (hw : m.structs.WellNamed) {config : ResolverConfig}
    (hlimit : config.maxArrayElements < UInt64.size - 1) {contract declaredIn : String} {n : Node}
    (hn : (Resolver.mk m config).Lists contract declaredIn n) :
    ((Resolver.mk m config).listing contract declaredIn n).KeepsBudget m.structs
      config.maxArrayElements n := by
  obtain ⟨d, hd⟩ := Model.parse_describes hm
  obtain ⟨e, he, hset⟩ := hn.reads hd
  have hd : d.Describes (Resolver.mk m config).model := hd
  have hnone : ((Resolver.mk m config).listing contract declaredIn n).failure = none :=
    Resolver.listing_failure hd he
  have hshown : AllOrNothing m.structs config.maxArrayElements
      ((Resolver.mk m config).listing contract declaredIn n).records :=
    Listing.ofNode_allOrNothing hd.structs hw _ _ _ he hlimit
  have hcharged : ((Resolver.mk m config).listing contract declaredIn n).budget +
      ((Resolver.mk m config).listing contract declaredIn n).charged config.maxArrayElements =
        config.maxArrayElements := Listing.ofNode_charged _ _ _
  refine ⟨?_, fun hs => ?_, hcharged, hshown.arrays⟩
  · exact LayoutStore.insertListing_of_nodup hnone
      (Resolver.listing_keys_nodup hd he hset hw hshown.paths)
  · obtain ⟨more, hmore, hsub⟩ := LayoutStore.insertListing_appends hs
    have hcount : ((Resolver.mk m config).listing contract declaredIn n).records.countP
          (fun r => r.path.isElement ∧ r.path ≠ n.path) ≤
        ((Resolver.mk m config).listing contract declaredIn n).charged config.maxArrayElements :=
      Listing.ofNode_countP_below (Node.settles_of_settled hset)
    refine ⟨more, hmore, hsub, Nat.le_trans (Nat.le_trans hsub.countP_le hcount) ?_⟩
    omega

namespace Sample

/-- A document with a struct that holds rows and an array behind them. -/
def gridText : String :=
  r#"{"contracts":[{"name":"A","variables":[{"name":"s","type":"G"}]}],
    "structs":{"G":[{"name":"rows","type":"uint8[2][2]"},{"name":"rest","type":"uint8[3]"}]}}"#

def gridMembers : List Member :=
  [("rows", .fixedArray (.fixedArray (.uint 8) 2) 2), ("rest", .fixedArray (.uint 8) 3)]

def gridModel : Model :=
  ⟨[⟨"A", [⟨"s", "A", 0, .struct "G" gridMembers, false, false⟩], []⟩], [("G", gridMembers)]⟩

theorem parse_gridText : Model.parse gridText = .ok gridModel :=
  eq_ok_of_any_beq (by decide +kernel)

/-- Room for seven elements. -/
def gridResolver : Resolver := ⟨gridModel, { maxArrayElements := 7 }⟩

def gridNode : Node := ⟨⟨"s", []⟩, ⟨0, 0⟩, .struct "G" gridMembers⟩

end Sample

/-- The rows take six elements of seven, and the array behind them is left out. -/
theorem listing_keepsBudget_grid : Model.parse Sample.gridText = .ok Sample.gridModel ∧
    Sample.gridModel.structs.WellNamed ∧ 7 < UInt64.size - 1 ∧
    Sample.gridResolver.Lists "A" "A" Sample.gridNode ∧
    (Sample.gridResolver.listing "A" "A" Sample.gridNode).records.map (·.status.isResolved) =
      [true, true, true, true, true, true, true, true, false] ∧
    (Sample.gridResolver.listing "A" "A" Sample.gridNode).KeepsBudget Sample.gridModel.structs 7
      Sample.gridNode := by
  have hw : Sample.gridModel.structs.WellNamed := by unfold StructTable.WellNamed; decide
  have hn : Sample.gridResolver.Lists "A" "A" Sample.gridNode :=
    @Resolver.Lists.placed Sample.gridResolver "A" _
      ⟨"s", "A", .struct "G" Sample.gridMembers, ⟨0, 0⟩⟩ rfl List.mem_cons_self
  exact ⟨Sample.parse_gridText, hw, by decide, hn, by decide +kernel,
    listing_keepsBudget Sample.parse_gridText hw (by decide) hn⟩

end StorageAtlas
