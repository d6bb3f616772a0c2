import Mathlib.Data.List.Pairwise
import StorageAtlas.Proofs.Packing
import StorageAtlas.Proofs.Sources

/-!
# Records lie inside each other or apart

A record takes the bytes from its place on. `fullLayout_nested`: in the layout of a contract that
spans fewer than 2 ^ 59 slots, the records of the parts of a value lie inside the record of the
value, all other records lie apart, and no record that is smaller than a slot reaches over the end
of one.

Which slots are spanned is read off the records themselves. Below 2 ^ 59 slots a size is never cut
off at the largest number of 64 bits, which is what the limit is for.

Two nodes under one path are the same node (`Below.eq_of_path`), since the store takes no second
placement under a key. This makes the two ways down to two records comparable: they share their
beginning, and where they part they part for two different children of one node.
-/

namespace StorageAtlas

/-! ## Ranges of bytes -/

/-- The bytes from `start` on, up to and without `stop`. -/
structure ByteRange where
  start : Nat
  stop : Nat

namespace ByteRange

/-- So many bytes from a place on. -/
def of (l : Location) (size : Nat) : ByteRange := ⟨l.position, l.position + size⟩

def Within (a b : ByteRange) : Prop := b.start ≤ a.start ∧ a.stop ≤ b.stop

def Apart (a b : ByteRange) : Prop := a.stop ≤ b.start ∨ b.stop ≤ a.start

variable {a a' b b' : ByteRange}

theorem Within.refl (a : ByteRange) : a.Within a := ⟨Nat.le_refl _, Nat.le_refl _⟩

theorem Within.trans (h : a.Within b) (h' : b.Within b') : a.Within b' :=
  ⟨Nat.le_trans h'.1 h.1, Nat.le_trans h.2 h'.2⟩

theorem Apart.symm (h : a.Apart b) : b.Apart a := Or.symm h

instance {α : Type} (f : α → ByteRange) : Std.Symm fun x y => (f x).Apart (f y) :=
  ⟨fun _ _ h => h.symm⟩

theorem Apart.mono (h : a'.Apart b') (ha : a.Within a') (hb : b.Within b') : a.Apart b := by
  rcases h with h | h
  · exact .inl (Nat.le_trans ha.2 (Nat.le_trans h hb.1))
  · exact .inr (Nat.le_trans hb.2 (Nat.le_trans h ha.1))

end ByteRange

def SlotRecord.bytes (r : SlotRecord) : ByteRange := .of r.location r.size

namespace Node

def bytes (n : Node) : ByteRange := .of n.location n.type.footprint.size

/-- What is packed does not reach over the end of its slot, and anything else begins with one. -/
def InSlot (n : Node) : Prop := n.location.offset.toNat + n.type.footprint.bytes ≤ slotBytes

/-- What begins at a slot of its own has no offset. -/
theorem InSlot.bytes_start {n : Node} (h : n.InSlot) (hf : n.type.footprint.startsNewSlot) :
    n.bytes.start = slotBytes * n.location.slot.toNat := by
  have hb := Footprint.bytes_of_startsNewSlot hf
  simp only [InSlot, hb, slotBytes] at h
  simp only [bytes, ByteRange.of, Location.position, slotBytes]
  omega

/-- A value smaller than a slot ends within its slot. -/
theorem InSlot.offset_add_size {n : Node} (h : n.InSlot)
    (hsize : n.type.footprint.size < slotBytes) :
    n.location.offset.toNat + n.type.footprint.size ≤ slotBytes := by
  by_cases hf : n.type.footprint.startsNewSlot
  · have hb := Footprint.bytes_of_startsNewSlot hf
    simp only [InSlot, hb] at h
    omega
  · have hx := Footprint.extent_of_not_startsNewSlot hf
    unfold InSlot at h
    generalize n.type.footprint = f at *
    cases f with
    | packed k => exact h
    | slots k => exact absurd rfl hf
    | dynamic => exact absurd rfl hf

/-! ## The children of a node -/

variable {n : Node} {most : Nat}

/-- A node of whole slots ends behind the last of them, where its size is told in full. -/
theorem bytes_stop_of_slots {count : Word} (hmost : most < UInt64.size - 1)
    (hf : n.type.footprint = .slots count) (hend : n.bytes.stop ≤ most) :
    n.bytes.stop = n.bytes.start + slotBytes * count.toNat := by
  have hsize : n.type.footprint.extent = n.type.footprint.size := by
    refine Footprint.extent_eq_size ?_
    simp only [bytes, ByteRange.of] at hend
    omega
  show _ + n.type.footprint.size = _
  rw [← hsize, hf]
  rfl

/-- **The members of a struct lie one behind the other**, inside the struct. -/
theorem members_nested (hmost : most < UInt64.size - 1) {ms : List Member}
    (hf : n.type.footprint = .slots (memberSlots ms)) (hslot : n.InSlot)
    (hend : n.bytes.stop ≤ most) (hends : ∀ m ∈ n.members ms, m.bytes.stop ≤ most) :
    (n.members ms).Pairwise (fun a b => a.bytes.Apart b.bytes) ∧
      ∀ m ∈ n.members ms, m.InSlot ∧ m.bytes.Within n.bytes := by
  have hstart : n.bytes.start = slotBytes * n.location.slot.toNat :=
    hslot.bytes_start (by rw [hf]; rfl)
  have hstop := bytes_stop_of_slots hmost hf hend
  -- the members are the places of the run, moved to the slot of the struct
  have hrooms : (n.members ms).map (fun m => (m.location, m.type.footprint)) =
      ((memberLocations ms).zip (footprints ms)).map
        fun p => (p.1.within n.location.slot, p.2) := by
    rw [← placeMembers_rooms, members, List.map_map, List.map_map]
    rfl
  have hends' : ∀ p ∈ (memberLocations ms).zip (footprints ms),
      (p.1.within n.location.slot).position + p.2.size ≤ most := by
    have hall : ∀ p ∈ (n.members ms).map (fun m => (m.location, m.type.footprint)),
        p.1.position + p.2.size ≤ most := List.forall_mem_map.2 hends
    rw [hrooms] at hall
    exact List.forall_mem_map.1 hall
  have hrun : Cursor.Run n.location.slot most ⟨0, 0⟩ (footprints ms) := by
    refine Cursor.placeAll_run hmost (fun f hf => footprints_fit hf) (Nat.zero_le _) ?_ hends'
    show slotBytes * n.location.slot.toNat + (slotBytes * 0 + 0) ≤ most
    rw [hstop, hstart] at hend
    omega
  have hlast := hrun.le_structSlots hmost
  refine ⟨?_, ?_⟩
  · have hpair : ((n.members ms).map fun m => (m.location, m.type.footprint)).Pairwise
        fun p q => (ByteRange.of p.1 p.2.size).Apart (.of q.1 q.2.size) := by
      rw [hrooms, List.pairwise_map]
      exact hrun.apart.imp fun h => .inl h
    rw [List.pairwise_map] at hpair
    exact hpair
  · have hall : ∀ p ∈ (n.members ms).map (fun m => (m.location, m.type.footprint)),
        p.1.offset.toNat + p.2.bytes ≤ slotBytes ∧ (ByteRange.of p.1 p.2.size).Within n.bytes := by
      rw [hrooms]
      refine List.forall_mem_map.2 fun p hp => ⟨hrun.inSlot p hp, ?_, ?_⟩
      · have := hrun.behind p hp
        show n.bytes.start ≤ (p.1.within n.location.slot).position
        omega
      · have := hrun.before p hp
        show (p.1.within n.location.slot).position + p.2.size ≤ n.bytes.stop
        simp only [memberSlots] at hstop
        omega
    exact List.forall_mem_map.1 hall

/-- An element that ends below the limit lies where the elements before it leave room. -/
theorem element_place {element : Ty} {base : Word} {i : Nat} (hmost : most < UInt64.size - 1)
    (hi : i < UInt64.size) (hbase : base.toNat < UInt64.size)
    (hend :
      (elementLocation base element (Word.ofNat i)).position + element.footprint.size ≤ most) :
    (elementLocation base element (Word.ofNat i)).position =
        slotBytes * base.toNat + element.footprint.elementPosition i ∧
      (elementLocation base element (Word.ofNat i)).offset.toNat + element.footprint.bytes ≤
        slotBytes ∧
      element.footprint.extent = element.footprint.size ∧
      element.footprint.slotCount.toNat < UInt64.size := by
  have hext : element.footprint.extent = element.footprint.size :=
    Footprint.extent_eq_size (by omega)
  have hcount : element.footprint.slotCount.toNat < UInt64.size := by
    by_cases hnew : element.footprint.startsNewSlot
    · have := Footprint.extent_of_startsNewSlot hnew
      simp only [slotBytes, UInt64.size] at *
      omega
    · generalize element.footprint = f at hnew
      cases f with
      | packed k => exact (by decide : (1 : Word).toNat < UInt64.size)
      | slots k => exact absurd rfl hnew
      | dynamic => exact absurd rfl hnew
  obtain ⟨hpos, hoff⟩ := elementLocation_position hi hbase hcount
  exact ⟨hpos, hoff, hext, hcount⟩

/-- **The elements of a static array lie one behind the other**, inside the array. -/
theorem elements_nested (hmost : most < UInt64.size - 1) {element : Ty} {length : UInt64}
    (hf : n.type.footprint = .slots (element.footprint.arraySlots length.toNat)) (hslot : n.InSlot)
    (hend : n.bytes.stop ≤ most)
    (hends : ∀ m ∈ n.elements element length.toNat, m.bytes.stop ≤ most) :
    (n.elements element length.toNat).Pairwise (fun a b => a.bytes.Apart b.bytes) ∧
      ∀ m ∈ n.elements element length.toNat, m.InSlot ∧ m.bytes.Within n.bytes := by
  have hstart : n.bytes.start = slotBytes * n.location.slot.toNat :=
    hslot.bytes_start (by rw [hf]; rfl)
  have hstop := bytes_stop_of_slots hmost hf hend
  have hbase : n.location.slot.toNat < UInt64.size := by
    simp only [slotBytes, UInt64.size] at *
    omega
  have hplace {i : Nat} (hi : i < length.toNat) :=
    element_place hmost (Nat.lt_trans hi length.toNat_lt) hbase
      (hends _ (mem_elements.2 ⟨i, hi, rfl⟩))
  refine ⟨?_, ?_⟩
  · refine List.pairwise_map.2 (List.pairwise_lt_range.imp_of_mem fun {i j} hi hj hlt => .inl ?_)
    obtain ⟨hpi, -, hext, -⟩ := hplace (List.mem_range.1 hi)
    obtain ⟨hpj, -⟩ := hplace (List.mem_range.1 hj)
    have hapart := Footprint.elementPosition_add_extent_le element.footprint_fits hlt
    simp only [bytes, ByteRange.of, hpi, hpj, ← hext]
    omega
  · intro m hm
    obtain ⟨i, hi, rfl⟩ := mem_elements.1 hm
    obtain ⟨hpos, hoff, hext, hcount⟩ := hplace hi
    rw [← hstart] at hpos
    have hle := Footprint.elementPosition_le_arraySlots element.footprint_fits hcount
      length.toNat_lt hi
    refine ⟨hoff, ?_, ?_⟩
    · show n.bytes.start ≤ Location.position _
      rw [hpos]
      exact Nat.le_add_right _ _
    · show Location.position _ + element.footprint.size ≤ n.bytes.stop
      rw [hpos, hstop, ← hext]
      omega

/-- The children of a node lie apart from each other, inside the node. -/
theorem children_nested {d : Declarations} {e : TypeExpr} (hmost : most < UInt64.size - 1)
    (hn : n.type.Reads d e) (hslot : n.InSlot) (hend : n.bytes.stop ≤ most)
    (hends : ∀ m ∈ n.children, m.bytes.stop ≤ most) :
    n.children.Pairwise (fun a b => a.bytes.Apart b.bytes) ∧
      ∀ m ∈ n.children, m.InSlot ∧ m.bytes.Within n.bytes := by
  by_cases hnil : n.children = []
  · rw [hnil]
    exact ⟨.nil, nofun⟩
  · obtain ⟨m, hm⟩ := List.exists_mem_of_ne_nil _ hnil
    have hst := stored_of_mem_children hn hm
    rcases mem_children hm with ⟨name, ms, hs, -⟩ | ⟨element, length, hs, -⟩
    · have hc : n.children = n.members ms := by simp only [children, hs]
      rw [hc] at hends ⊢
      exact members_nested hmost (by rw [← hst, hs]; rfl) hslot hend hends
    · have hc : n.children = n.elements element length.toNat := by simp only [children, hs]
      rw [hc] at hends ⊢
      exact elements_nested hmost (by rw [← hst, hs]; rfl) hslot hend hends

end Node

/-! ## Paths -/

namespace VariablePath

/-- The path is the other one with more steps. -/
def Extends (p q : VariablePath) : Prop :=
  p.base = q.base ∧ ∃ more, more ≠ [] ∧ p.steps = q.steps ++ more

variable {p q r : VariablePath} {step : AccessStep}

theorem Extends.trans (h : p.Extends q) (h' : q.Extends r) : p.Extends r := by
  obtain ⟨hb, more, hne, hsteps⟩ := h
  obtain ⟨hb', more', -, hsteps'⟩ := h'
  refine ⟨hb.trans hb', more' ++ more, by simp [hne], ?_⟩
  rw [hsteps, hsteps', List.append_assoc]

theorem Extends.depth_lt (h : p.Extends q) : q.depth < p.depth := by
  obtain ⟨-, more, hne, hsteps⟩ := h
  simp only [depth, hsteps, List.length_append]
  have := List.length_pos_iff.2 hne
  omega

theorem Extends.irrefl : ¬p.Extends p := fun h => absurd h.depth_lt (Nat.lt_irrefl _)

theorem child_extends : (p.child step).Extends p := ⟨rfl, [step], List.cons_ne_nil _ _, rfl⟩

/-- What a path one step further extends is the path itself or extended by it. -/
theorem Extends.of_child (h : (p.child step).Extends q) : p = q ∨ p.Extends q := by
  obtain ⟨hb, more, hne, hsteps⟩ := h
  rcases List.eq_nil_or_concat more with rfl | ⟨more, last, rfl⟩
  · exact absurd rfl hne
  · simp only [child, List.concat_eq_append, ← List.append_assoc] at hsteps
    have hinit := (List.append_inj' hsteps rfl).1
    cases more with
    | nil =>
      rw [List.append_nil] at hinit
      left
      cases p
      cases q
      simp_all only [child]
    | cons a more => exact .inr ⟨hb, a :: more, List.cons_ne_nil _ _, hinit⟩

end VariablePath

/-! ## Two ways down -/

namespace Node

variable {structs : StructTable} {n k k' : Node}

theorem Settles.eq (h : n.Settles structs k) (h' : n.Settles structs k') : k = k' := by
  obtain ⟨t, ht, rfl⟩ := h
  obtain ⟨t', ht', rfl⟩ := h'
  rw [Except.ok.inj (ht.symm.trans ht')]

variable {d : Declarations} {e : TypeExpr}

theorem Settles.bytes_eq (hs : d.Defines structs) (h : n.Settles structs k)
    (hn : n.type.Reads d e) (hsp : n.type.SpelledOut) : k.bytes = n.bytes := by
  rw [bytes, bytes, h.location_eq, h.footprint_eq hs hn hsp]

theorem Settles.inSlot (hs : d.Defines structs) (h : n.Settles structs k)
    (hn : n.type.Reads d e) (hsp : n.type.SpelledOut) (hslot : n.InSlot) : k.InSlot := by
  rw [InSlot, h.location_eq, h.footprint_eq hs hn hsp]
  exact hslot

end Node

namespace Below

variable {structs : StructTable} {shown : Node → Prop} {root n j k : Node}

theorem path_eq_or_extends (h : Below structs shown root k) :
    k.path = root.path ∨ k.path.Extends root.path := by
  induction h with
  | root => exact .inl rfl
  | child _ hm hk _ ih =>
    obtain ⟨step, hstep⟩ := Node.exists_child_of_mem_children hm
    rw [hk.path_eq, hstep]
    rcases ih with ih | ih
    · exact .inr (ih ▸ VariablePath.child_extends)
    · exact .inr (VariablePath.child_extends.trans ih)

/-- What makes the nodes below `root` comparable: they end below a limit that sizes can tell, are
told apart by their paths, and the root reads a text, is settled and lies in its slot. -/
structure Grounds (d : Declarations) (structs : StructTable) (shown : Node → Prop) (most : Nat)
    (root : Node) : Prop where
  defines : d.Defines structs
  most_lt : most < UInt64.size - 1
  ends : ∀ k, shown k → k.bytes.stop ≤ most
  same : ∀ j k, shown j → shown k → j.path = k.path → j = k
  read : ∃ e, root.type.Reads d e
  settled : root.type.Settled
  inSlot : root.InSlot

section Bytes

variable {d : Declarations} {most : Nat} (g : Grounds d structs shown most root)

include g

/-- A path leads to one node. -/
theorem eq_of_path (hj : Below structs shown root j) (hk : Below structs shown root k)
    (h : j.path = k.path) : j = k :=
  g.same j k hj.isShown hk.isShown h

/-- What a node's children being shown says of them. -/
theorem children_nested (hslot : n.InSlot) (hn : Below structs shown root n)
    (hall : ∀ m ∈ n.children, ∀ k, m.Settles structs k → shown k) :
    n.children.Pairwise (fun a b => a.bytes.Apart b.bytes) ∧
      (∀ m ∈ n.children, ∀ k, m.Settles structs k →
        k.bytes = m.bytes ∧ k.InSlot ∧ k.bytes.Within n.bytes) := by
  obtain ⟨e, he⟩ := g.read
  obtain ⟨f, hf, hfs⟩ := hn.reads g.defines he g.settled
  have hbytes : ∀ m ∈ n.children, ∀ k, m.Settles structs k → k.bytes = m.bytes := by
    intro m hm k hk
    obtain ⟨f', hf', hfs'⟩ := Node.children_read hf hfs.spelledOut hm
    exact hk.bytes_eq g.defines hf' hfs'
  have hends : ∀ m ∈ n.children, m.bytes.stop ≤ most := by
    intro m hm
    obtain ⟨f', hf', -⟩ := Node.children_read hf hfs.spelledOut hm
    obtain ⟨k, hk⟩ := Node.exists_settles g.defines hf'
    exact hbytes m hm k hk ▸ g.ends k (hall m hm k hk)
  obtain ⟨hapart, hwithin⟩ :=
    Node.children_nested g.most_lt hf hslot (g.ends n hn.isShown) hends
  refine ⟨hapart, fun m hm k hk => ?_⟩
  obtain ⟨f', hf', hfs'⟩ := Node.children_read hf hfs.spelledOut hm
  obtain ⟨hms, hmw⟩ := hwithin m hm
  exact ⟨hbytes m hm k hk, hk.inSlot g.defines hf' hfs' hms, (hbytes m hm k hk).symm ▸ hmw⟩

theorem inSlot (h : Below structs shown root k) : k.InSlot := by
  induction h with
  | root => exact g.inSlot
  | child hn hm hk hall ih => exact ((children_nested g ih hn hall).2 _ hm _ hk).2.1

/-- A child lies inside its parent. -/
theorem child_within {m : Node} (hn : Below structs shown root n) (hm : m ∈ n.children)
    (hk : m.Settles structs k) (hall : ∀ m' ∈ n.children, ∀ k', m'.Settles structs k' → shown k') :
    k.bytes.Within n.bytes :=
  ((children_nested g (inSlot g hn) hn hall).2 _ hm _ hk).2.2

theorem within_root (h : Below structs shown root k) : k.bytes.Within root.bytes := by
  induction h with
  | root => exact .refl _
  | child hn hm hk hall ih => exact (child_within g hn hm hk hall).trans ih

/-- On the way down to a node that lies deeper than `n`, one child of `n` is passed. -/
theorem exists_child (hn : Below structs shown root n) (hj : Below structs shown root j)
    (h : j.path.Extends n.path) : ∃ m ∈ n.children, ∃ k, m.Settles structs k ∧
      j.bytes.Within k.bytes ∧ (j.path = k.path ∨ j.path.Extends k.path) ∧
      ∀ m' ∈ n.children, ∀ k', m'.Settles structs k' → shown k' := by
  induction hj with
  | root =>
    rcases hn.path_eq_or_extends with heq | hext
    · exact absurd (heq ▸ h) VariablePath.Extends.irrefl
    · exact absurd (h.trans hext) VariablePath.Extends.irrefl
  | @child n₂ m₂ j hn₂ hm₂ hj hall ih =>
    obtain ⟨step, hstep⟩ := Node.exists_child_of_mem_children hm₂
    have hpath : j.path = n₂.path.child step := hj.path_eq.trans hstep
    rw [hpath] at h
    rcases h.of_child with heq | hext
    · obtain rfl := eq_of_path g hn₂ hn heq
      exact ⟨m₂, hm₂, j, hj, .refl _, .inl rfl, hall⟩
    · obtain ⟨m, hm, k, hk, hin, hway, hrest⟩ := ih hext
      refine ⟨m, hm, k, hk, ?_, ?_, hrest⟩
      · exact (child_within g hn₂ hm₂ hj hall).trans hin
      · rw [hpath]
        rcases hway with heq | hext
        · exact .inr (heq ▸ VariablePath.child_extends)
        · exact .inr (VariablePath.child_extends.trans hext)

/-- **A node lies inside those that its path extends.** -/
theorem within_of_extends (hk : Below structs shown root k) (hj : Below structs shown root j)
    (h : k.path.Extends j.path) : k.bytes.Within j.bytes := by
  obtain ⟨m, hm, i, hi, hin, -, hall⟩ := exists_child g hj hk h
  exact hin.trans (child_within g hj hm hi hall)

/-- **Nodes neither of which extends the other lie apart.** -/
theorem apart_of_not_extends (hk : Below structs shown root k) (hj : Below structs shown root j)
    (hne : k.path ≠ j.path) (hkj : ¬k.path.Extends j.path) (hjk : ¬j.path.Extends k.path) :
    k.bytes.Apart j.bytes := by
  induction hk with
  | root =>
    rcases hj.path_eq_or_extends with heq | hext
    · exact absurd heq.symm hne
    · exact absurd hext hjk
  | @child n m k hn hm hk hall ih =>
    obtain ⟨step, hstep⟩ := Node.exists_child_of_mem_children hm
    have hpath : k.path = n.path.child step := hk.path_eq.trans hstep
    have hkn : k.path.Extends n.path := hpath ▸ VariablePath.child_extends
    have hin := child_within g hn hm hk hall
    by_cases hjn : j.path.Extends n.path
    · -- both ways pass a child of `n`, and not the same one
      obtain ⟨m', hm', k', hk', hin', hway, -⟩ := exists_child g hn hj hjn
      have hdiff : m ≠ m' := by
        rintro rfl
        obtain rfl := hk.eq hk'
        rcases hway with heq | hext
        · exact hne heq.symm
        · exact hjk hext
      obtain ⟨hapart, hin₂⟩ := children_nested g (inSlot g hn) hn hall
      have hmm : m.bytes.Apart m'.bytes := hapart.forall hm hm' hdiff
      rw [← (hin₂ m hm k hk).1, ← (hin₂ m' hm' k' hk').1] at hmm
      exact hmm.mono (.refl _) hin'
    · have hnj : n.path ≠ j.path := fun heq => hkj (heq ▸ hkn)
      have hnj' : ¬n.path.Extends j.path := fun hext => hkj (hkn.trans hext)
      exact (ih hnj hnj' hjn).mono hin (.refl _)

end Bytes

end Below

/-! ## Variables -/

theorem Location.within_zero (l : Location) : l.within 0 = l := by
  rw [within, show (0 : Word) + l.slot = l.slot from BitVec.zero_add _]

/-- **Variables lie apart from each other**, as long as they end below a limit that sizes can
tell. -/
theorem Model.placements_apart {m : Model} {contract : String} {ps : List Placement}
    (h : m.placements contract = .ok ps) {most : Nat} (hmost : most < UInt64.size - 1)
    (hends : ∀ p ∈ ps, p.node.bytes.stop ≤ most) :
    ps.Pairwise (fun p q => p.node.bytes.Apart q.node.bytes) ∧ ∀ p ∈ ps, p.node.InSlot := by
  have hrooms : ((Cursor.mk 0 0).placeAll (ps.map (·.type.footprint))).1.zip
      (ps.map (·.type.footprint)) = ps.map fun p => (p.location, p.type.footprint) := by
    rw [← Model.placements_locations h, List.zip_map']
  have hrun : Cursor.Run 0 most ⟨0, 0⟩ (ps.map (·.type.footprint)) := by
    refine Cursor.placeAll_run hmost ?_ (Nat.zero_le _) (Nat.zero_le _) ?_
    · exact List.forall_mem_map.2 fun p _ => p.type.footprint_fits
    · rw [hrooms]
      exact List.forall_mem_map.2 fun p hp => by rw [Location.within_zero]; exact hends p hp
  have hapart := hrun.apart
  have hslot := hrun.inSlot
  rw [hrooms] at hapart hslot
  rw [List.pairwise_map] at hapart
  rw [List.forall_mem_map] at hslot
  refine ⟨?_, hslot⟩
  refine hapart.imp fun h => .inl ?_
  simp only [Location.within_zero] at h
  exact h

/-! ## The layout of a contract -/

/-- The slots up to the last byte of a record. -/
def LayoutStore.slotsSpanned (s : LayoutStore) : Nat :=
  (s.records.map fun r => (r.bytes.stop + (slotBytes - 1)) / slotBytes).foldr max 0

theorem le_foldr_max {l : List Nat} {n : Nat} (h : n ∈ l) : n ≤ l.foldr max 0 := by
  induction l with
  | nil => exact nomatch h
  | cons k l ih =>
    rcases List.mem_cons.1 h with rfl | h
    · exact Nat.le_max_left _ _
    · exact Nat.le_trans (ih h) (Nat.le_max_right _ _)

theorem LayoutStore.stop_le {s : LayoutStore} {r : SlotRecord} (h : r ∈ s.records) :
    r.bytes.stop ≤ slotBytes * s.slotsSpanned := by
  have hle : (r.bytes.stop + (slotBytes - 1)) / slotBytes ≤ s.slotsSpanned :=
    le_foldr_max (List.mem_map_of_mem h)
  simp only [slotBytes] at *
  omega

/-- What the paths of two records say of their bytes. -/
structure SlotRecord.Nested (r q : SlotRecord) : Prop where
  inside : r.path.Extends q.path → r.bytes.Within q.bytes
  around : q.path.Extends r.path → q.bytes.Within r.bytes
  apart : ¬r.path.Extends q.path → ¬q.path.Extends r.path → r.bytes.Apart q.bytes

theorem LayoutStore.Shows.stop_le {s : LayoutStore} {contract : String} {k : Node}
    (h : s.Shows contract k) : k.bytes.stop ≤ slotBytes * s.slotsSpanned := by
  obtain ⟨_, q, hq, hsame⟩ := h
  obtain ⟨hl, hsize, -⟩ := SlotRecord.samePlacement_iff.1 hsame
  have hstop := LayoutStore.stop_le (List.mem_of_find?_eq_some hq)
  rw [SlotRecord.bytes, hl, hsize] at hstop
  exact hstop

/-- What is known of a layout of one contract that spans fewer than 2 ^ 59 slots: its variables lie
apart, the nodes below each of them can be compared, and every record is that of such a node. -/
theorem Resolver.LaysOut.grounds {r : Resolver} {contract : String} {s : LayoutStore}
    {d : Declarations} (h : r.LaysOut [contract] s) (hd : d.Describes r.model)
    (hspan : s.slotsSpanned < 2 ^ 59) :
    ∃ ps : List Placement, ps.Pairwise (fun p q => p.node.bytes.Apart q.node.bytes) ∧
      (∀ p ∈ ps, s.Shows contract p.node ∧ Below.Grounds d r.model.structs (s.Shows contract)
        (slotBytes * s.slotsSpanned) p.node) ∧
      ∀ q ∈ s.records, ∃ p ∈ ps, ∃ k status, q = k.record contract p.declarer status ∧
        Below r.model.structs (s.Shows contract) p.node k := by
  obtain ⟨ps, hps, -⟩ := h.placed contract List.mem_cons_self
  have hmost : slotBytes * s.slotsSpanned < UInt64.size - 1 := by
    simp only [slotBytes, UInt64.size]
    omega
  have hroots : ∀ p ∈ ps, s.Shows contract p.node :=
    fun p hp => .of_holds (h.shows_root hd List.mem_cons_self hps hp)
  obtain ⟨hapart, hslots⟩ := Model.placements_apart hps hmost fun p hp => (hroots p hp).stop_le
  refine ⟨ps, hapart, fun p hp => ⟨hroots p hp, ?_⟩, fun q hq => ?_⟩
  · obtain ⟨e, he, hset⟩ := Model.placements_read hd hps p hp
    exact ⟨hd.structs, hmost, fun k hk => hk.stop_le, fun j k hj hk => hj.eq_of_path hk, ⟨e, he⟩,
      hset, hslots p hp⟩
  · obtain ⟨c, hc, ps', hps', p, hp, k, status, hk, hb, -⟩ := h.below hd q hq
    obtain rfl := List.mem_singleton.1 hc
    obtain rfl := Except.ok.inj (hps.symm.trans hps')
    exact ⟨p, hp, k, status, hk, hb⟩

/-- **Records lie inside each other or apart.** In a layout that spans fewer than 2 ^ 59 slots a
record lies inside those that its path extends, records neither of which extends the other share no
byte, and what is smaller than a slot lies in one slot. -/
theorem fullLayout_nested {text : String} {m : Model} (hm : Model.parse text = .ok m)
    {config : ResolverConfig} {contract : String} {s : LayoutStore}
    (hs : (Resolver.mk m config).fullLayout [contract] = .ok s) (hspan : s.slotsSpanned < 2 ^ 59) :
    s.records.Pairwise SlotRecord.Nested ∧
      ∀ r ∈ s.records, r.size < slotBytes → r.location.offset.toNat + r.size ≤ slotBytes := by
  obtain ⟨d, hd⟩ := Model.parse_describes hm
  have hlay := Resolver.fullLayout_laysOut hs
  obtain ⟨ps, hapart, hroots, hbelow⟩ := hlay.grounds hd hspan
  refine ⟨?_, fun r hr hsize => ?_⟩
  · refine (List.pairwise_map.1 hlay.keys).imp_of_mem fun {r q} hr hq hkey => ?_
    obtain ⟨p, hp, j, status, rfl, hj⟩ := hbelow r hr
    obtain ⟨p', hp', k, status', rfl, hk⟩ := hbelow q hq
    have hpath : j.path ≠ k.path := fun h => hkey (by simp only [SlotRecord.key, Node.record, h])
    obtain ⟨hshow, hg⟩ := hroots p hp
    obtain ⟨hshow', hg'⟩ := hroots p' hp'
    have hbase := hj.base_eq
    have hbase' := hk.base_eq
    by_cases hname : p.name = p'.name
    · -- variables of one name have been found to be the same
      have hroot : p.node = p'.node :=
        hshow.eq_of_path hshow' (by simp only [Placement.node, hname])
      rw [← hroot] at hk
      refine ⟨fun h => ?_, fun h => ?_, fun hjk hkj => ?_⟩
      · exact Below.within_of_extends hg hj hk h
      · exact Below.within_of_extends hg hk hj h
      · exact Below.apart_of_not_extends hg hj hk hpath hjk hkj
    · have hne : p ≠ p' := fun h => hname (h ▸ rfl)
      refine ⟨fun h => ?_, fun h => ?_, fun _ _ => ?_⟩
      · exact absurd (hbase.symm.trans (h.1.trans hbase')) hname
      · exact absurd (hbase.symm.trans (h.1.symm.trans hbase')) hname
      · exact (hapart.forall hp hp' hne).mono (Below.within_root hg hj) (Below.within_root hg' hk)
  · obtain ⟨p, hp, k, status, rfl, hk⟩ := hbelow r hr
    exact (Below.inSlot (hroots p hp).2 hk).offset_add_size hsize

theorem fullLayout_nested_sample : Model.parse Sample.text = .ok Sample.model ∧
    ∃ s, (Resolver.mk Sample.model {}).fullLayout ["A"] = .ok s ∧ s.slotsSpanned < 2 ^ 59 ∧
      s.records.length = 7 ∧ s.records.Pairwise SlotRecord.Nested ∧
      ∀ r ∈ s.records, r.size < slotBytes → r.location.offset.toNat + r.size ≤ slotBytes := by
  obtain ⟨s, hs, hcheck⟩ := exists_ok_of_any
    (x := (Resolver.mk Sample.model {}).fullLayout ["A"])
    (p := fun s => decide (s.slotsSpanned < 2 ^ 59 ∧ s.records.length = 7)) <| by decide +kernel
  obtain ⟨hspan, hlength⟩ := of_decide_eq_true hcheck
  exact ⟨Sample.parse_text, s, hs, hspan, hlength, fullLayout_nested Sample.parse_text hs hspan⟩

end StorageAtlas
