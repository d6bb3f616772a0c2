import Mathlib.Algebra.GroupWithZero.Nat
import Mathlib.Algebra.Order.BigOperators.Group.List
import Mathlib.Algebra.Order.Group.Nat
import StorageAtlas.Proofs.Decimal
import StorageAtlas.Proofs.Nesting

/-!
# The budget of a listing

A listing spells static arrays out as long as its budget lasts. An array is opened if all elements
that it leads to, those of the arrays in it included, are covered by what is left; what it takes
from the budget are its own elements only, and the arrays in it take theirs when their turn comes.
So nothing is taken that is not there (`Node.charge_parts`), what was taken and what is left make up
the budget at any time (`Listing.ofNode_charged`), and within a value that the budget covers no
array is refused (`Listing.ofNode_within`).
-/

namespace StorageAtlas

/-! ## Elements of a type -/

/-- How many elements a value is spelled out into itself. -/
def Ty.arrayLength (t : Ty) : Nat :=
  match t.stored with
  | .fixedArray _ length => length.toNat
  | _ => 0

theorem Ty.arrayLength_eq {t element : Ty} {length : UInt64}
    (h : t.stored = .fixedArray element length) : t.arrayLength = length.toNat := by
  rw [arrayLength, h]

theorem Ty.elementCount_stored : ∀ t : Ty, t.stored.elementCount = t.elementCount
  | .userDefined _ _ underlying => elementCount_stored underlying
  | .elementary _ | .fixedArray _ _ | .dynamicArray _ | .mapping _ _ | .struct _ _ | .bytes
  | .string | .function _ | .structRef _ => rfl

/-- **An array counts at least its own elements**, also where the count stops. -/
theorem Ty.arrayLength_le (t : Ty) : t.arrayLength ≤ t.elementCount := by
  rw [← elementCount_stored, arrayLength]
  cases t.stored with
  | fixedArray element length =>
    have hlength := length.toNat_lt
    have hpos : 0 < min (element.elementCount + 1) (UInt64.size - 1) := by
      simp only [UInt64.size]
      omega
    refine Nat.le_min.2 ⟨Nat.le_mul_of_pos_right _ hpos, ?_⟩
    simp only [UInt64.size]
    omega
  | _ => exact Nat.zero_le _

/-- Where the count of an array has not stopped, it is the product. -/
theorem Ty.elementCount_fixedArray {element : Ty} {length : UInt64}
    (h : (fixedArray element length).elementCount < UInt64.size - 1) :
    (fixedArray element length).elementCount = length.toNat * (element.elementCount + 1) := by
  rw [elementCount] at h ⊢
  rcases Nat.eq_zero_or_pos length.toNat with hzero | hpos
  · rw [hzero, Nat.zero_mul, Nat.zero_mul, Nat.zero_min]
  · by_cases hstop : element.elementCount + 1 ≤ UInt64.size - 1
    · rw [Nat.min_eq_left hstop] at h ⊢
      exact Nat.min_eq_left (by omega)
    · rw [Nat.min_eq_right (Nat.le_of_not_le hstop),
        Nat.min_eq_right (Nat.le_mul_of_pos_left _ hpos)] at h
      exact absurd h (Nat.lt_irrefl _)

/-- Where the count of some members has not stopped, it is the sum. -/
theorem memberElementCount_eq_sum : ∀ {ms : List Member},
    memberElementCount ms < UInt64.size - 1 →
      memberElementCount ms = (ms.map (·.2.elementCount)).sum
  | [], _ => rfl
  | (_, t) :: ms, h => by
    rw [memberElementCount] at h ⊢
    have hrest : memberElementCount ms = _ := memberElementCount_eq_sum (by omega)
    rw [List.map_cons, List.sum_cons, ← hrest]
    exact Nat.min_eq_left (by omega)

/-- Making a spelled-out type ready does not change what is counted. -/
theorem elementCount_materialize {structs : StructTable} {t u : Ty} (h : t.SpelledOut)
    (hu : materialize structs t = .ok u) : u.elementCount = t.elementCount := by
  rcases eq_of_materialize h hu with rfl | ⟨element, element', rfl, rfl⟩
  · rfl
  · rfl

/-! ## Records -/

/-- The path of an element: its last step is an index. -/
def VariablePath.isElement (p : VariablePath) : Bool :=
  match p.steps.getLast? with
  | some (.index _) => true
  | _ => false

theorem VariablePath.isElement_field (p : VariablePath) (name : String) :
    (p.child (.field name)).isElement = false := by
  simp only [isElement, child, List.getLast?_concat]

namespace SlotRecord

/-- The record is that of an array with more elements than were left of the budget. -/
def IsOverBudget (limit : Nat) (r : SlotRecord) : Prop :=
  ∃ left < r.type.elementCount, r.status = Node.overBudget r.type.elementCount limit left

instance (limit : Nat) (r : SlotRecord) : Decidable (r.IsOverBudget limit) :=
  inferInstanceAs (Decidable (∃ left < r.type.elementCount,
    r.status = Node.overBudget r.type.elementCount limit left))

/-- What the record takes from the budget. -/
def charge (limit : Nat) (r : SlotRecord) : Nat :=
  if r.IsOverBudget limit then 0 else r.type.arrayLength

end SlotRecord

/-- What the records of a listing take from the budget. -/
def Listing.charged (limit : Nat) (l : Listing) : Nat := (l.records.map (·.charge limit)).sum

namespace Node

variable {n k : Node} {limit budget most : Nat} {contract declaredIn : String} {status : Status}

/-- Told of a node whose parts lie too deep. -/
def tooDeep (n : Node) (most : Nat) : Status :=
  .incomplete (Error.depthExceeded (n.path.depth + 1) most).message

theorem tooDeep_ne_overBudget {elements left : Nat} :
    n.tooDeep most ≠ overBudget elements limit left := by
  unfold tooDeep overBudget Error.message
  intro h
  injection h with htext
  simp only [String.append_assoc] at htext
  have hword : "Max depth exceeded: path has ".toList =
      'M' :: "ax depth exceeded: path has ".toList := by decide
  exact Text.append_ne_decimal_append hword (by decide) _ _ _ htext

theorem not_isOverBudget_tooDeep :
    ¬(n.record contract declaredIn (n.tooDeep most)).IsOverBudget limit := by
  rintro ⟨left, -, h⟩
  exact tooDeep_ne_overBudget h

/-! ## Parts -/

/-- The two ways in which the parts of a node are found: they exceed the budget, or they are all
there. -/
inductive Opens (n : Node) (limit budget : Nat) : Parts → Prop
  | exceeded (h : budget < n.type.elementCount) :
    Opens n limit budget ⟨overBudget n.type.elementCount limit budget, [], budget⟩
  | whole {status : Status} (hstatus : status = .resolved ∨
      n.type.arrayLength = 0 ∧ ∃ reason, status = .unresolved reason)
    (hcount : n.type.arrayLength = 0 ∨ n.type.elementCount ≤ budget) :
    Opens n limit budget ⟨status, n.children, budget - n.type.arrayLength⟩

/-- An array that the budget covers is opened. -/
theorem parts_of_covered (n : Node) (limit : Nat) {element : Ty} {length : UInt64}
    (hs : n.type.stored = .fixedArray element length) (h : n.type.elementCount ≤ budget) :
    n.parts limit budget = ⟨.resolved, n.children, budget - n.type.arrayLength⟩ := by
  rw [Ty.arrayLength_eq hs]
  simp only [parts, children, hs, Nat.not_lt.2 h, ↓reduceIte]

theorem parts_opens (n : Node) (limit budget : Nat) :
    n.Opens limit budget (n.parts limit budget) := by
  have hwhole {status : Status} (hlength : n.type.arrayLength = 0)
      (hstatus : status = .resolved ∨ ∃ reason, status = .unresolved reason) :
      n.Opens limit budget ⟨status, n.children, budget⟩ := by
    have h := @Opens.whole n limit budget status (hstatus.imp_right fun h => ⟨hlength, h⟩)
      (.inl hlength)
    rwa [hlength, Nat.sub_zero] at h
  unfold Ty.arrayLength children at hwhole
  unfold parts
  cases hs : n.type.stored with
  | function external =>
    rw [hs] at hwhole
    exact hwhole rfl (.inr ⟨_, rfl⟩)
  | fixedArray element length =>
    by_cases hover : budget < n.type.elementCount
    · simp only [hover, ↓reduceIte]
      exact .exceeded hover
    · have hle := Nat.le_of_not_lt hover
      have hparts := n.parts_of_covered limit hs hle
      simp only [parts, hs, hover, ↓reduceIte] at hparts ⊢
      rw [hparts]
      exact .whole (.inl rfl) (.inr hle)
  | _ =>
    rw [hs] at hwhole
    exact hwhole rfl (.inl rfl)

theorem not_isOverBudget (h : status = .resolved ∨ ∃ reason, status = .unresolved reason) :
    ¬(n.record contract declaredIn status).IsOverBudget limit := by
  rintro ⟨left, -, hover⟩
  obtain rfl | ⟨reason, rfl⟩ := h <;> exact nomatch hover

/-- **Nothing is taken from the budget that is not there**: what is left and what the record takes
make up what there was. -/
theorem charge_parts : (n.parts limit budget).budget +
    (n.record contract declaredIn (n.parts limit budget).status).charge limit = budget := by
  have hparts := n.parts_opens limit budget
  generalize n.parts limit budget = parts at hparts
  cases hparts with
  | exceeded h =>
    have hover : (n.record contract declaredIn
        (overBudget n.type.elementCount limit budget)).IsOverBudget limit := ⟨budget, h, rfl⟩
    rw [SlotRecord.charge, if_pos hover, Nat.add_zero]
  | @whole status hstatus hcount =>
    have hle := n.type.arrayLength_le
    rw [SlotRecord.charge, if_neg (not_isOverBudget (hstatus.imp_right (·.2)))]
    show budget - n.type.arrayLength + n.type.arrayLength = budget
    omega

/-- The same holds of a node whose parts lie too deep. -/
theorem charge_tooDeep (h : (n.parts limit budget).nodes ≠ []) : (n.parts limit budget).budget +
    (n.record contract declaredIn (n.tooDeep most)).charge limit = budget := by
  have hparts := n.parts_opens limit budget
  generalize n.parts limit budget = parts at hparts h
  cases hparts with
  | exceeded _ => exact absurd rfl h
  | whole _ hcount =>
    have hle := n.type.arrayLength_le
    rw [SlotRecord.charge, if_neg not_isOverBudget_tooDeep]
    show budget - n.type.arrayLength + n.type.arrayLength = budget
    omega

/-- No more elements are listed than are taken from the budget. -/
theorem countP_parts_le : (n.parts limit budget).nodes.countP (·.path.isElement) ≤
    (n.record contract declaredIn (n.parts limit budget).status).charge limit := by
  have hparts := n.parts_opens limit budget
  generalize n.parts limit budget = parts at hparts
  cases hparts with
  | exceeded _ => exact Nat.zero_le _
  | @whole status hstatus _ =>
    rw [SlotRecord.charge, if_neg (not_isOverBudget (hstatus.imp_right (·.2)))]
    show n.children.countP _ ≤ n.type.arrayLength
    unfold children Ty.arrayLength
    cases n.type.stored with
    | struct name ms =>
      refine Nat.le_of_eq (List.countP_eq_zero.2 fun m hm => ?_)
      obtain ⟨p, -, rfl⟩ := mem_members.1 hm
      simp only [VariablePath.isElement_field, Bool.false_eq_true, not_false_eq_true]
    | fixedArray element length =>
      refine Nat.le_trans List.countP_le_length (Nat.le_of_eq ?_)
      show (n.elements element length.toNat).length = length.toNat
      rw [elements, List.length_map, List.length_range]
    | _ => exact Nat.zero_le _

theorem Settles.elementCount_eq {structs : StructTable} (h : n.Settles structs k)
    (hsp : n.type.SpelledOut) : k.type.elementCount = n.type.elementCount := by
  obtain ⟨t, ht, rfl⟩ := h
  exact elementCount_materialize hsp ht

theorem members_elementCounts (n : Node) (ms : List Member) :
    (n.members ms).map (·.type.elementCount) = ms.map (·.2.elementCount) := by
  have hmembers := congrArg (List.map fun m : Member => m.2.elementCount) (placeMembers_members ms)
  rw [List.map_map] at hmembers
  rw [members, List.map_map]
  exact hmembers

theorem elements_elementCounts (n : Node) (element : Ty) (length : Nat) :
    (n.elements element length).map (·.type.elementCount) =
      List.replicate length element.elementCount := by
  simp only [elements, List.map_map, Function.comp_def, List.map_const', List.length_range]

/-- **The count of a node is that of its children and its own elements**, where it has not
stopped. -/
theorem children_elementCount (h : n.type.elementCount < UInt64.size - 1) :
    (n.children.map (·.type.elementCount)).sum + n.type.arrayLength = n.type.elementCount := by
  rw [← Ty.elementCount_stored] at h ⊢
  unfold children Ty.arrayLength
  cases hs : n.type.stored with
  | struct name ms =>
    rw [hs] at h
    rw [members_elementCounts, ← memberElementCount_eq_sum h]
    rfl
  | fixedArray element length =>
    rw [hs] at h
    rw [Ty.elementCount_fixedArray h, elements_elementCounts, List.sum_replicate_nat, Nat.mul_add,
      Nat.mul_one]
  | userDefined name kind underlying => exact absurd hs (Ty.stored_ne_userDefined n.type)
  | _ => rfl

end Node

/-! ## Listings -/

namespace Listing

variable {structs : StructTable} {config : ResolverConfig} {contract declaredIn : String}
  {limit : Nat}

/-- A listing ends with an error, with a record whose parts lie too deep, or with the parts of a
node, which are listed in the same way. -/
theorem ofNode_induct {P : Nat → Node → Listing → Prop}
    (failed : ∀ budget n e, P budget n ⟨[], some e, budget⟩)
    (cut : ∀ {budget n k}, n.Settles structs k →
      (k.parts config.maxArrayElements budget).nodes ≠ [] →
      P budget n ⟨[k.record contract declaredIn (k.tooDeep config.maxDepth)], none,
        (k.parts config.maxArrayElements budget).budget⟩)
    (parts : ∀ {room budget n k}, n.Settles structs k →
      (∀ m ∈ (k.parts config.maxArrayElements budget).nodes, ∀ b,
        P b m (ofNode structs config contract declaredIn room b m)) →
      P budget n (behind
        (k.record contract declaredIn (k.parts config.maxArrayElements budget).status)
        (ofNodes (ofNode structs config contract declaredIn room)
          (k.parts config.maxArrayElements budget).budget
          (k.parts config.maxArrayElements budget).nodes)))
    (room : Nat) :
    ∀ budget n, P budget n (ofNode structs config contract declaredIn room budget n) := by
  induction room with
  | zero =>
    intro budget n
    cases ht : materialize structs n.type with
    | error e =>
      simp only [ofNode, ht]
      exact failed budget n e
    | ok t =>
      have hk : n.Settles structs { n with type := t } := ⟨t, ht, rfl⟩
      have hcut := @cut budget n _ hk
      have hparts := @parts 0 budget n _ hk
      simp only [ofNode, ht]
      generalize Node.parts _ _ _ = found at hcut hparts ⊢
      cases hnodes : found.nodes with
      | nil =>
        rw [hnodes] at hparts
        exact hparts fun _ hm => absurd hm List.not_mem_nil
      | cons m ms => exact hcut (by rw [hnodes]; exact List.cons_ne_nil m ms)
  | succ room ih =>
    intro budget n
    cases ht : materialize structs n.type with
    | error e =>
      simp only [ofNode, ht]
      exact failed budget n e
    | ok t =>
      have hk : n.Settles structs { n with type := t } := ⟨t, ht, rfl⟩
      rw [ofNode_succ hk]
      exact parts hk fun m _ b => ih b m

/-! ### What is taken and what is left -/

theorem ofNodes_charged {list : Nat → Node → Listing} {ns : List Node}
    (h : ∀ n ∈ ns, ∀ b, (list b n).budget + (list b n).charged limit = b) : ∀ {budget : Nat},
    (ofNodes list budget ns).budget + (ofNodes list budget ns).charged limit = budget := by
  induction ns with
  | nil => intro budget; rfl
  | cons n ns ih =>
    intro budget
    have hn := h n List.mem_cons_self budget
    have hrest := @ih fun n' hn' => h n' (List.mem_cons_of_mem _ hn')
    rcases hl : list budget n with ⟨records, _ | e, left⟩
    · rw [hl] at hn
      have hleft := @hrest left
      simp only [ofNodes, hl, charged, List.map_append, List.sum_append] at hn hleft ⊢
      omega
    · rw [hl] at hn
      simp only [ofNodes, hl]
      exact hn

/-- **What was taken and what is left make up the budget.** -/
theorem ofNode_charged (room budget : Nat) (n : Node) :
    (ofNode structs config contract declaredIn room budget n).budget +
      (ofNode structs config contract declaredIn room budget n).charged config.maxArrayElements =
        budget := by
  refine ofNode_induct
    (P := fun budget _ l => l.budget + l.charged config.maxArrayElements = budget)
    (fun _ _ _ => rfl) (fun _ hnodes => Node.charge_tooDeep hnodes) ?_ room budget n
  intro room budget n k _ ih
  have hrest := @ofNodes_charged _ _ _ ih (k.parts config.maxArrayElements budget).budget
  have hparts := @Node.charge_parts k config.maxArrayElements budget contract declaredIn
  simp only [behind, charged, List.map_cons, List.sum_cons] at hrest ⊢
  omega

/-! ### How many elements are listed -/

theorem ofNodes_countP {list : Nat → Node → Listing} {ns : List Node}
    (h : ∀ n ∈ ns, ∀ b, (list b n).records.countP (·.path.isElement) ≤
      (if n.path.isElement then 1 else 0) + (list b n).charged limit) : ∀ {budget : Nat},
    (ofNodes list budget ns).records.countP (·.path.isElement) ≤
      ns.countP (·.path.isElement) + (ofNodes list budget ns).charged limit := by
  induction ns with
  | nil => intro budget; exact Nat.zero_le _
  | cons n ns ih =>
    intro budget
    have hn := h n List.mem_cons_self budget
    have hrest := @ih fun n' hn' => h n' (List.mem_cons_of_mem _ hn')
    rcases hl : list budget n with ⟨records, _ | e, left⟩
    · have hleft := @hrest left
      simp only [ofNodes, hl, charged, List.map_append, List.sum_append, List.countP_append,
        List.countP_cons] at hn hleft ⊢
      omega
    · simp only [ofNodes, hl, List.countP_cons] at hn ⊢
      omega

/-- **A listing has no more elements than were taken from the budget**, the node itself apart. -/
theorem ofNode_countP (room budget : Nat) (n : Node) :
    (ofNode structs config contract declaredIn room budget n).records.countP (·.path.isElement) ≤
      (if n.path.isElement then 1 else 0) +
        (ofNode structs config contract declaredIn room budget n).charged
          config.maxArrayElements := by
  refine ofNode_induct (P := fun _ n l => l.records.countP (·.path.isElement) ≤
    (if n.path.isElement then 1 else 0) + l.charged config.maxArrayElements)
    (fun _ _ _ => Nat.zero_le _) ?_ ?_ room budget n
  · intro budget n k hk _
    simp only [List.countP_singleton, Node.record, hk.path_eq]
    exact Nat.le_add_right _ _
  · intro room budget n k hk ih
    have hrest := @ofNodes_countP _ _ _ ih (k.parts config.maxArrayElements budget).budget
    have hparts := @Node.countP_parts_le k config.maxArrayElements budget contract declaredIn
    have hhead : (k.record contract declaredIn
      (k.parts config.maxArrayElements budget).status).path = n.path := hk.path_eq
    simp only [behind, charged, List.map_cons, List.sum_cons, List.countP_cons, hhead] at hrest ⊢
    omega

/-- The records of elements, that of the node itself not counted. -/
theorem ofNode_countP_below {room budget : Nat} {n k : Node} (hk : n.Settles structs k) :
    (ofNode structs config contract declaredIn room budget n).records.countP
        (fun r => r.path.isElement ∧ r.path ≠ n.path) ≤
      (ofNode structs config contract declaredIn room budget n).charged
        config.maxArrayElements := by
  have hcount := @ofNode_countP structs config contract declaredIn room budget n
  obtain ⟨status, rest, hhead⟩ :=
    @ofNode_head structs config contract declaredIn room budget n k hk
  have hpath : (k.record contract declaredIn status).path = n.path := hk.path_eq
  have hrest : rest.countP (fun r => r.path.isElement ∧ r.path ≠ n.path) ≤
      rest.countP (·.path.isElement) :=
    List.countP_mono_left fun r _ h => (of_decide_eq_true h).1
  rw [hhead, List.countP_cons, hpath] at hcount ⊢
  simp only [ne_eq, not_true_eq_false, and_false, decide_false, Bool.false_eq_true, ↓reduceIte]
  simp only [ne_eq] at hrest
  omega

/-! ### Values that the budget covers -/

theorem ofNodes_within {list : Nat → Node → Listing} {ns : List Node}
    (h : ∀ n ∈ ns, ∀ b, n.type.elementCount ≤ b →
      (∀ r ∈ (list b n).records, ¬r.IsOverBudget limit) ∧
        b ≤ (list b n).budget + n.type.elementCount) : ∀ {budget : Nat},
    (ns.map (·.type.elementCount)).sum ≤ budget →
      (∀ r ∈ (ofNodes list budget ns).records, ¬r.IsOverBudget limit) ∧
        budget ≤ (ofNodes list budget ns).budget + (ns.map (·.type.elementCount)).sum := by
  induction ns with
  | nil => intro budget _; exact ⟨nofun, Nat.le_refl _⟩
  | cons n ns ih =>
    intro budget hle
    rw [List.map_cons, List.sum_cons] at hle ⊢
    obtain ⟨hover, hleft⟩ := h n List.mem_cons_self budget (by omega)
    have hrest := @ih fun n' hn' => h n' (List.mem_cons_of_mem _ hn')
    rcases hl : list budget n with ⟨records, _ | e, left⟩
    · rw [hl] at hover hleft
      simp only at hover hleft
      obtain ⟨hover', hleft'⟩ := @hrest left (by omega)
      simp only [ofNodes, hl]
      exact ⟨List.forall_mem_append.2 ⟨hover, hover'⟩, by omega⟩
    · rw [hl] at hover hleft
      simp only at hover hleft
      simp only [ofNodes, hl]
      exact ⟨hover, by omega⟩

/-- **In a value that the budget covers no array is refused**, and the listing takes no more than
the value counts. -/
theorem ofNode_within {d : Declarations} (hs : d.Defines structs) (room budget : Nat) (n : Node)
    {e : TypeExpr} (hn : n.type.Reads d e) (hsp : n.type.SpelledOut)
    (hstop : n.type.elementCount < UInt64.size - 1) (hle : n.type.elementCount ≤ budget) :
    (∀ r ∈ (ofNode structs config contract declaredIn room budget n).records,
      ¬r.IsOverBudget config.maxArrayElements) ∧
    budget ≤ (ofNode structs config contract declaredIn room budget n).budget +
      n.type.elementCount := by
  revert e hn hsp hstop hle
  refine ofNode_induct (P := fun budget n l => ∀ {e : TypeExpr}, n.type.Reads d e →
    n.type.SpelledOut → n.type.elementCount < UInt64.size - 1 → n.type.elementCount ≤ budget →
      (∀ r ∈ l.records, ¬r.IsOverBudget config.maxArrayElements) ∧
        budget ≤ l.budget + n.type.elementCount)
    (fun _ _ _ _ _ _ _ _ => ⟨nofun, Nat.le_add_right _ _⟩) ?_ ?_ room budget n
  · intro budget n k hk hnodes e _ hsp _ _
    have hcharge := @Node.charge_tooDeep k config.maxArrayElements budget config.maxDepth contract
      declaredIn hnodes
    have hlength := k.type.arrayLength_le
    rw [hk.elementCount_eq hsp] at hlength
    rw [SlotRecord.charge, if_neg Node.not_isOverBudget_tooDeep] at hcharge
    have hcharge : _ + k.type.arrayLength = budget := hcharge
    refine ⟨List.forall_mem_singleton.2 Node.not_isOverBudget_tooDeep, ?_⟩
    show budget ≤ (k.parts config.maxArrayElements budget).budget + _
    omega
  · intro room budget n k hk ih e hn hsp hstop hle
    obtain ⟨hread, hset⟩ := hk.reads hs hn
    rw [← hk.elementCount_eq hsp] at hstop hle ⊢
    have hsum := Node.children_elementCount hstop
    have hparts := k.parts_opens config.maxArrayElements budget
    generalize k.parts config.maxArrayElements budget = parts at hparts ih
    cases hparts with
    | exceeded h => exact absurd h (Nat.not_lt.2 hle)
    | whole hstatus _ =>
      have hchild : ∀ m ∈ k.children, ∀ b, m.type.elementCount ≤ b →
          (∀ r ∈ (ofNode structs config contract declaredIn room b m).records,
            ¬r.IsOverBudget config.maxArrayElements) ∧
          b ≤ (ofNode structs config contract declaredIn room b m).budget +
            m.type.elementCount := by
        intro m hm b hb
        obtain ⟨f, hf, hfs⟩ := Node.children_read hread hset.spelledOut hm
        have hcount := List.le_sum_of_mem (List.mem_map_of_mem (f := (·.type.elementCount)) hm)
        exact ih m hm b hf hfs (by omega) hb
      obtain ⟨hover, hleft⟩ :=
        @ofNodes_within _ _ _ hchild (budget - k.type.arrayLength) (by omega)
      refine ⟨List.forall_mem_cons.2 ⟨Node.not_isOverBudget (hstatus.imp_right (·.2)), hover⟩, ?_⟩
      show budget ≤ (ofNodes (ofNode structs config contract declaredIn room)
        (budget - k.type.arrayLength) k.children).budget + _
      omega

end Listing

end StorageAtlas
