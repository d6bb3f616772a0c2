import StorageAtlas.Layout.Listing
import StorageAtlas.Proofs.Steps

/-!
# The parts of a value

The members of a struct and the elements of a static array lie in place in the value
(`Node.children`). A listing shows a node with all of its children or with none of them; so from
every record there is a way back up to the value listed, along which the children of each node are
shown (`Below`, `Listing.ofNode_below`). Limits decide how far down this goes, but not what it says.

A listing never fails on a type that reads a text (`Listing.ofNode_failure`).
-/

namespace StorageAtlas

namespace Node

/-- The values that lie in place in the value of a node. -/
def children (n : Node) : List Node :=
  match n.type.stored with
  | .struct _ ms => n.members ms
  | .fixedArray element length => n.elements element length.toNat
  | _ => []

theorem parts_nodes (n : Node) (limit budget : Nat) :
    (n.parts limit budget).nodes = [] ∨ (n.parts limit budget).nodes = n.children := by
  unfold parts children
  cases n.type.stored with
  | struct name ms => exact .inr rfl
  | fixedArray element length =>
    simp only
    split
    · exact .inl rfl
    · exact .inr rfl
  | _ => exact .inl rfl

/-- The node `k` is `n` with its type made ready for its place. -/
def Settles (structs : StructTable) (n k : Node) : Prop :=
  ∃ t, materialize structs n.type = .ok t ∧ k = { n with type := t }

variable {structs : StructTable} {n k m : Node}

theorem Settles.path_eq (h : n.Settles structs k) : k.path = n.path := by
  obtain ⟨t, -, rfl⟩ := h
  rfl

theorem Settles.location_eq (h : n.Settles structs k) : k.location = n.location := by
  obtain ⟨t, -, rfl⟩ := h
  rfl

theorem settles_of_settled (h : n.type.Settled) : n.Settles structs n :=
  ⟨n.type, materialize_of_settled structs h, rfl⟩

theorem mem_members {ms : List Member} : m ∈ n.members ms ↔ ∃ p ∈ placeMembers ms,
    m = ⟨n.path.child (.field p.name), p.location.within n.location.slot, p.type⟩ := by
  simp only [members, List.mem_map, eq_comm]

theorem mem_elements {element : Ty} {length : Nat} : m ∈ n.elements element length ↔
    ∃ i < length, m = ⟨n.path.child (.index (Word.ofNat i)),
      elementLocation n.location.slot element (Word.ofNat i), element⟩ := by
  simp only [elements, List.mem_map, List.mem_range, eq_comm]

/-- A child is a member of a struct or an element of a static array. -/
theorem mem_children (h : m ∈ n.children) :
    (∃ name ms, n.type.stored = .struct name ms ∧ m ∈ n.members ms) ∨
      ∃ element length, n.type.stored = .fixedArray element length ∧
        m ∈ n.elements element length.toNat := by
  unfold children at h
  split at h
  · next name ms hs => exact .inl ⟨name, ms, hs, h⟩
  · next element length hs => exact .inr ⟨element, length, hs, h⟩
  · exact nomatch h

/-- A child lies one step further. -/
theorem exists_child_of_mem_children (h : m ∈ n.children) : ∃ step, m.path = n.path.child step := by
  rcases mem_children h with ⟨name, ms, -, hm⟩ | ⟨element, length, -, hm⟩
  · obtain ⟨p, -, rfl⟩ := mem_members.1 hm
    exact ⟨_, rfl⟩
  · obtain ⟨i, -, rfl⟩ := mem_elements.1 hm
    exact ⟨_, rfl⟩

end Node

/-! ## Types of the parts -/

theorem MembersSpelledOut.of_mem {ms : List Member} (h : MembersSpelledOut ms) {m : Member}
    (hm : m ∈ ms) : m.2.SpelledOut := by
  induction ms with
  | nil => exact absurd hm List.not_mem_nil
  | cons m' ms ih =>
    rcases List.mem_cons.1 hm with rfl | hm
    · exact h.1
    · exact ih h.2 hm

theorem Ty.stored_ne_userDefined {name : String} {kind : UserKind} {underlying : Ty} :
    ∀ t : Ty, t.stored ≠ .userDefined name kind underlying
  | .userDefined _ _ u => stored_ne_userDefined u
  | .elementary _ | .fixedArray _ _ | .dynamicArray _ | .mapping _ _ | .struct _ _ | .bytes
  | .string | .function _ | .structRef _ => nofun

/-- Seeing through names makes a type no larger. -/
theorem Ty.sizeOf_stored_le : ∀ t : Ty, sizeOf t.stored ≤ sizeOf t
  | .userDefined _ _ underlying => by
    have hle := sizeOf_stored_le underlying
    simp only [stored, userDefined.sizeOf_spec]
    omega
  | .elementary _ | .fixedArray _ _ | .dynamicArray _ | .mapping _ _ | .struct _ _ | .bytes
  | .string | .function _ | .structRef _ => Nat.le_refl _

theorem Ty.sizeOf_lt_of_mem_members {t : Ty} {name : String} {ms : List Member} {m : Member}
    (hs : t.stored = .struct name ms) (hm : m ∈ ms) : sizeOf m.2 < sizeOf t := by
  obtain ⟨label, u⟩ := m
  have hstored := hs ▸ t.sizeOf_stored_le
  have hmem := List.sizeOf_lt_of_mem hm
  simp only [struct.sizeOf_spec, Prod.mk.sizeOf_spec] at hstored hmem ⊢
  omega

theorem Ty.sizeOf_lt_of_element {t element : Ty} {length : UInt64}
    (hs : t.stored = .fixedArray element length) : sizeOf element < sizeOf t := by
  have hstored := hs ▸ t.sizeOf_stored_le
  simp only [fixedArray.sizeOf_spec] at hstored
  omega

section Types

variable {d : Declarations} {structs : StructTable} {n k m : Node} {e : TypeExpr}

/-- A value type has no parts. -/
theorem Node.children_of_isValueType (h : n.type.isValueType) : n.children = [] := by
  obtain ⟨a, ha⟩ | ⟨external, he⟩ := Ty.stored_of_isValueType h
  · simp only [children, ha]
  · simp only [children, he]

theorem Node.stored_of_mem_children (hn : n.type.Reads d e) (hm : m ∈ n.children) :
    n.type.stored = n.type := by
  refine hn.stored_eq fun hv => ?_
  rw [children_of_isValueType hv] at hm
  exact nomatch hm

theorem Node.children_read (hn : n.type.Reads d e) (hsp : n.type.SpelledOut)
    (hm : m ∈ n.children) : ∃ f, m.type.Reads d f ∧ m.type.SpelledOut := by
  have hst := Node.stored_of_mem_children hn hm
  rcases Node.mem_children hm with ⟨name, ms, hs, hm⟩ | ⟨element, length, hs, hm⟩
  · rw [hst] at hs
    rw [hs] at hn hsp
    obtain ⟨p, hp, rfl⟩ := Node.mem_members.1 hm
    obtain ⟨-, fields, -, hms⟩ := hn
    obtain ⟨f, hf⟩ := hms.exists_reads (mem_of_mem_placeMembers hp)
    exact ⟨f, hf, MembersSpelledOut.of_mem hsp (mem_of_mem_placeMembers hp)⟩
  · rw [hst] at hs
    rw [hs] at hn hsp
    obtain ⟨i, -, rfl⟩ := Node.mem_elements.1 hm
    obtain ⟨f, -, hf⟩ := hn
    exact ⟨f, hf, hsp⟩

/-- Making a type ready changes neither the text that it reads nor the room it takes. -/
theorem Node.Settles.reads (hs : d.Defines structs) (h : n.Settles structs k)
    (hn : n.type.Reads d e) : k.type.Reads d e ∧ k.type.Settled := by
  obtain ⟨t, ht, rfl⟩ := h
  obtain ⟨u, hu, hr, hset⟩ := materialize_reads hs hn
  obtain rfl := Except.ok.inj (ht.symm.trans hu)
  exact ⟨hr, hset⟩

theorem Node.Settles.footprint_eq (hs : d.Defines structs) (h : n.Settles structs k)
    (hn : n.type.Reads d e) (hsp : n.type.SpelledOut) : k.type.footprint = n.type.footprint := by
  obtain ⟨hk, hset⟩ := h.reads hs hn
  exact footprint_eq_of_reads hk hn hset.spelledOut hsp

theorem Node.exists_settles (hs : d.Defines structs) (hn : n.type.Reads d e) :
    ∃ k, n.Settles structs k := by
  obtain ⟨u, hu, -⟩ := materialize_reads hs hn
  exact ⟨_, u, hu, rfl⟩

end Types

/-! ## Ways down -/

/-- The nodes in `root` that are reached from children to children, where all children of every
node on the way are shown. -/
inductive Below (structs : StructTable) (shown : Node → Prop) (root : Node) : Node → Prop
  | root (h : shown root) : Below structs shown root root
  | child {n m k : Node} (hn : Below structs shown root n) (hm : m ∈ n.children)
    (hk : m.Settles structs k)
    (hall : ∀ m' ∈ n.children, ∀ k', m'.Settles structs k' → shown k') :
    Below structs shown root k

namespace Below

variable {d : Declarations} {structs : StructTable} {shown : Node → Prop} {root k : Node}
  {e : TypeExpr}

theorem isShown (h : Below structs shown root k) : shown k := by
  cases h with
  | root h => exact h
  | child _ hm hk hall => exact hall _ hm _ hk

theorem base_eq (h : Below structs shown root k) : k.path.base = root.path.base := by
  induction h with
  | root => rfl
  | child _ hm hk _ ih =>
    obtain ⟨step, hstep⟩ := Node.exists_child_of_mem_children hm
    rw [hk.path_eq, hstep]
    exact ih

theorem reads (hs : d.Defines structs) (hr : root.type.Reads d e) (hset : root.type.Settled)
    (h : Below structs shown root k) : ∃ f, k.type.Reads d f ∧ k.type.Settled := by
  induction h with
  | root => exact ⟨e, hr, hset⟩
  | child _ hm hk _ ih =>
    obtain ⟨f, hf, hfs⟩ := ih
    obtain ⟨g, hg, -⟩ := Node.children_read hf hfs.spelledOut hm
    exact ⟨g, hk.reads hs hg⟩

end Below

/-! ## Listings -/

namespace Listing

/-- Where several listings stand one behind the other, each record is from one of them, and all
are there in full. -/
theorem ofNodes_records {list : Nat → Node → Listing} {ns : List Node} : ∀ {budget : Nat},
    (ofNodes list budget ns).failure = none →
      (∀ n ∈ ns, ∃ b, (list b n).failure = none ∧
        (list b n).records ⊆ (ofNodes list budget ns).records) ∧
      ∀ r ∈ (ofNodes list budget ns).records, ∃ n ∈ ns, ∃ b, (list b n).failure = none ∧
        r ∈ (list b n).records ∧ (list b n).records ⊆ (ofNodes list budget ns).records := by
  induction ns with
  | nil => intro budget _; exact ⟨nofun, nofun⟩
  | cons n ns ih =>
    intro budget h
    unfold ofNodes at h ⊢
    split at h
    · exact nomatch h
    · next records left hn =>
      obtain ⟨hall, hsource⟩ := ih h
      have hrecords : (list budget n).records = records := by rw [hn]
      have hnone : (list budget n).failure = none := by rw [hn]
      simp only
      refine ⟨List.forall_mem_cons.2 ⟨⟨budget, hnone, ?_⟩, fun n' hn' => ?_⟩, fun r hr => ?_⟩
      · exact hrecords ▸ List.subset_append_left _ _
      · obtain ⟨b, hb, hsub⟩ := hall n' hn'
        exact ⟨b, hb, List.Subset.trans hsub (List.subset_append_right _ _)⟩
      · rcases List.mem_append.1 hr with hr | hr
        · exact ⟨n, List.mem_cons_self, budget, hnone, hrecords ▸ hr,
            hrecords ▸ List.subset_append_left _ _⟩
        · obtain ⟨n', hn', b, hb, hrb, hsub⟩ := hsource r hr
          exact ⟨n', List.mem_cons_of_mem _ hn', b, hb, hrb,
            List.Subset.trans hsub (List.subset_append_right _ _)⟩

variable {structs : StructTable} {config : ResolverConfig} {contract declaredIn : String}

theorem exists_settles_of_failure {room budget : Nat} {n : Node}
    (h : (ofNode structs config contract declaredIn room budget n).failure = none) :
    ∃ k, n.Settles structs k := by
  unfold ofNode at h
  split at h
  · exact nomatch h
  · next t ht => exact ⟨_, t, ht, rfl⟩

/-- A listing begins with the record of its node. -/
theorem ofNode_head {room budget : Nat} {n k : Node} (hk : n.Settles structs k) :
    ∃ status rest, (ofNode structs config contract declaredIn room budget n).records =
      k.record contract declaredIn status :: rest := by
  obtain ⟨t, ht, rfl⟩ := hk
  unfold ofNode
  rw [ht]
  cases room with
  | zero => exact ⟨_, _, rfl⟩
  | succ room => exact ⟨_, _, rfl⟩

theorem ofNode_succ {room budget : Nat} {n k : Node} (hk : n.Settles structs k) :
    ofNode structs config contract declaredIn (room + 1) budget n =
      behind (k.record contract declaredIn (k.parts config.maxArrayElements budget).status)
        (ofNodes (ofNode structs config contract declaredIn room)
          (k.parts config.maxArrayElements budget).budget
          (k.parts config.maxArrayElements budget).nodes) := by
  obtain ⟨t, ht, rfl⟩ := hk
  simp only [ofNode, ht]

/-- **Every record of a listing is that of a node below the one listed**, no further down than the
room allows. -/
theorem ofNode_below (shown : Node → Prop) (root : Node) {room : Nat} :
    ∀ {budget : Nat} {n k : Node},
      (ofNode structs config contract declaredIn room budget n).failure = none →
      n.Settles structs k →
      (∀ j status, j.record contract declaredIn status ∈
        (ofNode structs config contract declaredIn room budget n).records → shown j) →
      (shown k → Below structs shown root k) →
      ∀ r ∈ (ofNode structs config contract declaredIn room budget n).records,
        ∃ j status, r = j.record contract declaredIn status ∧ Below structs shown root j ∧
          j.path.depth ≤ n.path.depth + room := by
  induction room with
  | zero =>
    intro budget n k _ hk hshown hbelow r hr
    obtain ⟨t, ht, rfl⟩ := hk
    simp only [ofNode, ht, List.mem_singleton] at hr hshown
    exact ⟨_, _, hr, hbelow (hshown _ _ rfl), Nat.le_refl _⟩
  | succ room ih =>
    intro budget n k hnone hk hshown hbelow r hr
    rw [ofNode_succ hk] at hnone hshown hr
    have hkb : Below structs shown root k := hbelow (hshown _ _ List.mem_cons_self)
    rcases List.mem_cons.1 hr with rfl | hr
    · exact ⟨k, _, rfl, hkb, by rw [hk.path_eq]; exact Nat.le_add_right _ _⟩
    · rcases k.parts_nodes config.maxArrayElements budget with hnil | hchildren
      · rw [hnil] at hr
        exact nomatch hr
      · rw [hchildren] at hnone hr hshown
        obtain ⟨hall, hsource⟩ := ofNodes_records hnone
        obtain ⟨m, hm, b, hb, hrb, hsub⟩ := hsource r hr
        obtain ⟨j, hj⟩ := exists_settles_of_failure hb
        -- a child is shown by the head of its own listing
        have hsiblings : ∀ m' ∈ k.children, ∀ k', m'.Settles structs k' → shown k' := by
          intro m' hm' k' hk'
          obtain ⟨b', -, hsub'⟩ := hall m' hm'
          obtain ⟨status, rest, hhead⟩ :=
            @ofNode_head structs config contract declaredIn room b' m' k' hk'
          exact hshown k' status (List.mem_cons_of_mem _ (hsub' (hhead ▸ List.mem_cons_self)))
        obtain ⟨j', status, rfl, hj', hdepth⟩ := ih hb hj
          (fun i status hi => hshown i status (List.mem_cons_of_mem _ (hsub hi)))
          (fun _ => .child hkb hm hj hsiblings) r hrb
        refine ⟨j', status, rfl, hj', ?_⟩
        obtain ⟨step, hstep⟩ := Node.exists_child_of_mem_children hm
        have hpath := hk.path_eq
        simp only [hstep, hpath, VariablePath.child, VariablePath.depth, List.length_append,
          List.length_singleton] at hdepth ⊢
        omega

theorem ofNodes_failure {list : Nat → Node → Listing} {ns : List Node}
    (h : ∀ n ∈ ns, ∀ budget, (list budget n).failure = none) :
    ∀ {budget : Nat}, (ofNodes list budget ns).failure = none := by
  induction ns with
  | nil => intro budget; rfl
  | cons n ns ih =>
    intro budget
    have hn := h n List.mem_cons_self budget
    unfold ofNodes
    split
    · next heq => rw [heq] at hn; exact nomatch hn
    · exact ih fun n' hn' => h n' (List.mem_cons_of_mem _ hn')

/-- **A type that reads a text is listed in full**, or as far as the limits allow. -/
theorem ofNode_failure {d : Declarations} (hs : d.Defines structs) {room : Nat} :
    ∀ {budget : Nat} {n : Node} {e : TypeExpr}, n.type.Reads d e →
      (ofNode structs config contract declaredIn room budget n).failure = none := by
  induction room with
  | zero =>
    intro budget n e hn
    obtain ⟨u, hu, -⟩ := materialize_reads hs hn
    simp only [ofNode, hu]
  | succ room ih =>
    intro budget n e hn
    obtain ⟨k, hk⟩ := Node.exists_settles hs hn
    obtain ⟨hr, hset⟩ := hk.reads hs hn
    rw [ofNode_succ hk]
    refine ofNodes_failure fun m hm budget' => ?_
    rcases k.parts_nodes config.maxArrayElements budget with hnil | hchildren
    · rw [hnil] at hm
      exact nomatch hm
    · rw [hchildren] at hm
      obtain ⟨f, hf, -⟩ := Node.children_read hr hset.spelledOut hm
      exact ih hf

end Listing

end StorageAtlas
