import StorageAtlas.Proofs.PathText
import StorageAtlas.Proofs.Sources

/-!
# A layout and the paths into it

`path_of_fullLayout`: every record of a full layout is found again, first, when its own path is
asked for, provided that the members of each struct have names of their own.

A listing goes down from children to children, a path takes steps. The two agree since a child is
where the step that names it leads (`Node.children_leads`), so that whatever is below a node is
where its path leads (`Below.walk`). The listing made for the path shows at least as much as the
full layout did; no two of its records are in each other's way, as their paths have different texts.
-/

namespace StorageAtlas

/-- The members of each struct have names of their own, which may follow a dot. -/
def StructTable.WellNamed (structs : StructTable) : Prop :=
  ∀ s ∈ structs, (s.2.map Prod.fst).Nodup ∧ ∀ m ∈ s.2, isIdentifier m.1.toList

/-! ## Names of members -/

section Names

variable {d : Declarations} {structs : StructTable}

theorem MembersRead.names_eq {ms : List Member} {fields : List (String × TypeExpr)}
    (h : MembersRead d ms fields) : ms.map Prod.fst = fields.map Prod.fst := by
  induction ms generalizing fields with
  | nil => rw [show fields = [] from h]; rfl
  | cons m ms ih =>
    obtain ⟨e, rest, rfl, -, hms⟩ := h
    rw [List.map_cons, List.map_cons, ih hms]

/-- What holds of the names in the table holds of the names in every struct. -/
theorem Ty.Reads.wellNamed (hs : d.Defines structs) (hw : structs.WellNamed) {n : String}
    {ms : List Member} {e : TypeExpr} (h : (Ty.struct n ms).Reads d e) :
    (ms.map Prod.fst).Nodup ∧ ∀ m ∈ ms, isIdentifier m.1.toList := by
  obtain ⟨-, fields, hf, hms⟩ := h
  obtain ⟨definition, hdef, hread, -⟩ := hs.definition hf
  obtain ⟨hnodup, hident⟩ := hw _ (SortedMap.mem_of_lookup hdef)
  have hnames : ms.map Prod.fst = definition.map Prod.fst := hms.names_eq.trans hread.names_eq.symm
  refine ⟨hnames ▸ hnodup, ?_⟩
  have hall : ∀ name ∈ ms.map Prod.fst, isIdentifier name.toList := by
    rw [hnames]
    exact List.forall_mem_map.2 hident
  exact List.forall_mem_map.1 hall

theorem find?_of_nodup {α β : Type} [BEq β] [LawfulBEq β] {l : List α} {f : α → β}
    (h : (l.map f).Nodup) {x : α} (hx : x ∈ l) : l.find? (f · == f x) = some x := by
  induction l with
  | nil => exact nomatch hx
  | cons y l ih =>
    rw [List.map_cons, List.nodup_cons] at h
    rcases List.mem_cons.1 hx with rfl | hx
    · exact List.find?_cons_of_pos (beq_self_eq_true _)
    · have hne : f y ≠ f x := fun heq => h.1 (heq ▸ List.mem_map_of_mem hx)
      rw [List.find?_cons_of_neg (by simpa using hne)]
      exact ih h.2 hx

/-- **A child is where the step that names it leads.** -/
theorem Node.children_leads (hs : d.Defines structs) (hw : structs.WellNamed) {n m : Node}
    {e : TypeExpr} (hn : n.type.Reads d e) (hm : m ∈ n.children) :
    ∃ step, step.IsPlain ∧ m.path = n.path.child step ∧
      Leads n.location n.type.stored step (m.location, m.type, step) := by
  have hst := Node.stored_of_mem_children hn hm
  rcases Node.mem_children hm with ⟨name, ms, hstored, hm⟩ | ⟨element, length, hstored, hm⟩
  · rw [hst] at hstored
    rw [hstored] at hn
    obtain ⟨hnodup, hident⟩ := hn.wellNamed hs hw
    obtain ⟨p, hp, rfl⟩ := Node.mem_members.1 hm
    have hpm := mem_of_mem_placeMembers hp
    have hnames : ((placeMembers ms).map (·.name)).Nodup := placeMembers_names ms ▸ hnodup
    refine ⟨.field p.name, hident _ hpm, rfl, ?_⟩
    rw [hst, hstored]
    exact .member (find?_of_nodup hnames hp)
  · obtain ⟨i, hi, rfl⟩ := Node.mem_elements.1 hm
    refine ⟨.index (Word.ofNat i), trivial, rfl, ?_⟩
    rw [hstored]
    have hlt : (Word.ofNat i).toNat < length.toNat := by
      rw [BitVec.toNat_ofNat]
      exact Nat.lt_of_le_of_lt (Nat.mod_le _ _) hi
    exact .element rfl hlt

end Names

/-! ## Walking down -/

namespace Below

variable {d : Declarations} {structs : StructTable} {shown : Node → Prop} {root j k : Node}
  {e : TypeExpr} (hs : d.Defines structs) (hw : structs.WellNamed) (hr : root.type.Reads d e)
  (hset : root.type.Settled)

include hs hw hr hset

/-- **Whatever is below a node is where the steps to it lead.** -/
theorem walk (h : Below structs shown root k) : ∃ rest, (∀ s ∈ rest, s.IsPlain) ∧
    k.path = ⟨root.path.base, root.path.steps ++ rest⟩ ∧
    StorageAtlas.walk structs root.location root.type rest = .ok ⟨k.location, k.type, rest⟩ := by
  induction h with
  | root => exact ⟨[], nofun, by rw [List.append_nil], rfl⟩
  | @child n m k hn hm hk _ ih =>
    obtain ⟨rest, hplain, hpath, hwalk⟩ := ih
    obtain ⟨f, hf, -⟩ := hn.reads hs hr hset
    obtain ⟨step, hstep, hchild, hleads⟩ := Node.children_leads hs hw hf hm
    obtain ⟨t, ht, rfl⟩ := hk
    refine ⟨rest ++ [step], ?_, ?_, walk_concat hwalk hleads.applyStep ht⟩
    · exact List.forall_mem_append.2 ⟨hplain, List.forall_mem_singleton.2 hstep⟩
    · show m.path = _
      rw [hchild, hpath, VariablePath.child, List.append_assoc]

/-- From a variable on, its path leads to every node below it. -/
theorem derive (h : Below structs shown root k) (hroot : root.path.steps = []) {limit : Nat}
    (hdepth : k.path.depth ≤ limit) :
    StorageAtlas.derive root.location root.type k.path.steps limit structs =
      .ok ⟨k.location, k.type, k.path.steps⟩ := by
  obtain ⟨rest, -, hpath, hwalk⟩ := h.walk hs hw hr hset
  have hsteps : k.path.steps = rest := by rw [hpath, hroot]; rfl
  rw [StorageAtlas.derive, materialize_of_settled structs hset, List.take_of_length_le hdepth,
    hsteps]
  exact hwalk

/-- A path leads to one node. -/
theorem eq_of_path_eq (hj : Below structs shown root j) (hk : Below structs shown root k)
    (h : j.path = k.path) : j = k := by
  obtain ⟨rest, -, hpath, hwalk⟩ := hj.walk hs hw hr hset
  obtain ⟨rest', -, hpath', hwalk'⟩ := hk.walk hs hw hr hset
  have hsteps : root.path.steps ++ rest = root.path.steps ++ rest' :=
    congrArg VariablePath.steps (hpath.symm.trans (h.trans hpath'))
  obtain rfl := List.append_cancel_left hsteps
  have hsame := Except.ok.inj (hwalk.symm.trans hwalk')
  obtain ⟨path, location, type⟩ := j
  obtain ⟨path', location', type'⟩ := k
  simp only [Derived.mk.injEq] at hsame h
  rw [h, hsame.1, hsame.2.1]

/-- Below a node no two texts of paths are the same. -/
theorem eq_of_text_eq (hj : Below structs shown root j) (hk : Below structs shown root k)
    (h : j.path.text = k.path.text) : j = k := by
  obtain ⟨rest, hplain, hpath, -⟩ := hj.walk hs hw hr hset
  obtain ⟨rest', hplain', hpath', -⟩ := hk.walk hs hw hr hset
  rw [hpath, hpath'] at h
  refine eq_of_path_eq hs hw hr hset hj hk ?_
  rw [hpath, hpath', VariablePath.rest_eq_of_text hplain hplain' h]

end Below

/-! ## The listing at a path -/

/-- A store made of one listing begins with the record of the listing's node. -/
theorem head?_insertListing_listing {r : Resolver} {contract declaredIn : String} {n : Node}
    (hset : n.type.Settled) {found : LayoutStore}
    (h : LayoutStore.insertListing {} (r.listing contract declaredIn n) = .ok found) :
    ∃ status, found.records.head? = some (n.record contract declaredIn status) := by
  obtain ⟨status, rest, hhead⟩ : ∃ status rest, (r.listing contract declaredIn n).records =
      n.record contract declaredIn status :: rest :=
    Listing.ofNode_head (Node.settles_of_settled hset)
  exact ⟨status, LayoutStore.head?_insertListing hhead h⟩

section At

variable {d : Declarations} {r : Resolver} (hd : d.Describes r.model) {contract declaredIn : String}
  {n : Node} {e : TypeExpr} (hn : n.type.Reads d e)

include hd hn

theorem Resolver.listing_failure : (r.listing contract declaredIn n).failure = none :=
  Listing.ofNode_failure hd.structs hn

variable (hset : n.type.Settled)

include hset

theorem Resolver.listing_below : ∀ a ∈ (r.listing contract declaredIn n).records, ∃ k status,
    a = k.record contract declaredIn status ∧
      Below r.model.structs (fun _ => True) n k := by
  intro a ha
  obtain ⟨k, status, hk, hb, -⟩ := Listing.ofNode_below (fun _ => True) n
    (r.listing_failure hd hn) (Node.settles_of_settled hset) (fun _ _ _ => trivial)
    (fun _ => .root trivial) a ha
  exact ⟨k, status, hk, hb⟩

variable (hw : r.model.structs.WellNamed)

include hw

/-- Under one key a listing has one placement. -/
theorem Resolver.listing_samePlacement {a b : SlotRecord}
    (ha : a ∈ (r.listing contract declaredIn n).records)
    (hb : b ∈ (r.listing contract declaredIn n).records) (hkey : a.key = b.key) :
    a.samePlacement b := by
  obtain ⟨j, status, rfl, hj⟩ := r.listing_below hd hn hset a ha
  obtain ⟨k, status', rfl, hk⟩ := r.listing_below hd hn hset b hb
  obtain rfl := Below.eq_of_text_eq hd.structs hw hn hset hj hk (congrArg RecordKey.path hkey)
  exact SlotRecord.samePlacement_iff.2 ⟨rfl, rfl, rfl, rfl⟩

/-- A listing of its own is stored in full, the record of its node first. -/
theorem insertListing_listing :
    ∃ found status, LayoutStore.insertListing {} (r.listing contract declaredIn n) = .ok found ∧
      found.records.head? = some (n.record contract declaredIn status) := by
  obtain ⟨found, hfound⟩ := LayoutStore.exists_insertListing (s := {}) (r.listing_failure hd hn)
    fun _ ha _ hb => r.listing_samePlacement hd hn hset hw ha hb
  obtain ⟨status, hhead⟩ := head?_insertListing_listing hset hfound
  exact ⟨found, status, hfound, hhead⟩

end At

/-- **A layout agrees with the paths into it.** Every record of a full layout is the first one
found at its path, but for how far it got. -/
theorem path_of_fullLayout {text : String} {m : Model} (hm : Model.parse text = .ok m)
    (hw : m.structs.WellNamed) {config : ResolverConfig} {contracts : List String}
    {s : LayoutStore} (hs : (Resolver.mk m config).fullLayout contracts = .ok s) {r : SlotRecord}
    (hr : r ∈ s.records) :
    ∃ found, (Resolver.mk m config).path r.contract r.path = .ok found ∧
      ∃ q, found.records.head? = some q ∧ q.contract = r.contract ∧ q.path = r.path ∧
        q.declaredIn = r.declaredIn ∧ q.location = r.location ∧ q.size = r.size ∧
        q.type = r.type := by
  obtain ⟨d, hd⟩ := Model.parse_describes hm
  have hlay := Resolver.fullLayout_laysOut hs
  obtain ⟨c, hc, ps, hps, p, hp, k, status, rfl, hk, hdepth⟩ := hlay.below hd r hr
  obtain ⟨e, he, hset⟩ := Model.placements_read hd hps p hp
  have hderive := hk.derive hd.structs hw he hset rfl hdepth
  obtain ⟨f, hf, hkset⟩ := hk.reads hd.structs he hset
  have hbase : k.path.base = p.name := hk.base_eq
  -- the path may find another variable of that name, which the layout has found to be the same
  obtain ⟨p', hp'⟩ : ∃ p', ps.find? (·.name == k.path.base) = some p' :=
    Option.isSome_iff_exists.1 (List.find?_isSome.2 ⟨p, hp, by simp [hbase]⟩)
  have hname : p'.name = k.path.base := by
    have h := List.find?_some hp'
    rwa [beq_iff_eq] at h
  have hroot' := hlay.shows_root hd hc hps (List.mem_of_find?_eq_some hp')
  have hroot := hlay.shows_root hd hc hps hp
  obtain ⟨hl, -, ht, hdecl⟩ := hroot'.samePlacement hroot
    (by simp only [SlotRecord.key, Node.record, Placement.node, hname, hbase])
  have hl : p'.location = p.location := hl
  have ht : p'.type = p.type := ht
  have hderive' : derive p'.location p'.type k.path.steps config.maxDepth m.structs =
      .ok ⟨k.location, k.type, k.path.steps⟩ := by
    rw [hl, ht]
    exact hderive
  have hcut : isTruncated k.path.steps config.maxDepth = false :=
    decide_eq_false (Nat.not_lt.2 hdepth)
  have hnode : Node.mk ⟨p'.name, k.path.steps⟩ k.location k.type = k := by rw [hname]
  obtain ⟨found, status', hfound, hfirst⟩ :=
    @insertListing_listing d ⟨m, config⟩ hd c p'.declarer k f hf hkset hw
  refine ⟨found, ?_, _, hfirst, rfl, rfl, hdecl, rfl, rfl, rfl⟩
  show Resolver.path _ c k.path = .ok found
  unfold Resolver.path
  simp only [hps, hp', hderive', hcut, hnode]
  exact hfound

theorem path_of_fullLayout_kids : Model.parse Sample.text = .ok Sample.model ∧
    Sample.model.structs.WellNamed ∧ ∃ s r,
      (Resolver.mk Sample.model {}).fullLayout ["A"] = .ok s ∧ r ∈ s.records ∧
      r.path = ⟨"s", [.index 1, .field "kids"]⟩ ∧
      ∃ found, (Resolver.mk Sample.model {}).path r.contract r.path = .ok found ∧
        ∃ q, found.records.head? = some q ∧ q.contract = r.contract ∧ q.path = r.path ∧
          q.declaredIn = r.declaredIn ∧ q.location = r.location ∧ q.size = r.size ∧
          q.type = r.type := by
  have hw : Sample.model.structs.WellNamed := by unfold StructTable.WellNamed; decide
  obtain ⟨s, hs, hcheck⟩ := exists_ok_of_any
    (x := (Resolver.mk Sample.model {}).fullLayout ["A"])
    (p := fun s => s.records.any (·.path == ⟨"s", [.index 1, .field "kids"]⟩)) <| by decide +kernel
  obtain ⟨r, hr, hpath⟩ := List.any_eq_true.1 hcheck
  exact ⟨Sample.parse_text, hw, s, r, hs, hr, eq_of_beq hpath,
    path_of_fullLayout Sample.parse_text hw hs hr⟩

end StorageAtlas
