import StorageAtlas.Decode.Frames
import StorageAtlas.Layout.Emission
import StorageAtlas.Proofs.CompositeParts
import StorageAtlas.Proofs.Parts

/-!
# The loops over stacks

Two loops work off a stack: one adds the records of a value, the other decodes a composite. Both
come to an end, and to the same as the recursions that everything else is said of: the one to adding
the listing of the value (`Resolver.emits_iff`), the other to decoding it in place
(`decodesTo_iff`), if the words can be counted in 64 bits.

For both, what is on top of the stack is worked off whole before what lies below it is looked at
(`Emission.worksOff_ofNode`, `Decoding.enters`), and so are values side by side. The induction is on
the steps left below a node, and on the type entered.
-/

namespace StorageAtlas

/-! ## Records -/

namespace LayoutStore

theorem insertAll_append (rs rs' : List SlotRecord) : ∀ s : LayoutStore,
    s.insertAll (rs ++ rs') =
      match s.insertAll rs with
      | (s', none) => s'.insertAll rs'
      | (s', some e) => (s', some e) := by
  induction rs with
  | nil => intro s; rfl
  | cons r rs ih =>
    intro s
    rw [List.cons_append, insertAll, insertAll]
    cases s.insert r with
    | error e => rfl
    | ok added => exact ih added.1

/-- The record in front is added first. -/
theorem insertListing_cons (s : LayoutStore) (r : SlotRecord) (l : Listing) :
    s.insertListing (.behind r l) =
      match s.insert r with
      | .error e => .error e
      | .ok (s', _) => s'.insertListing l := by
  rw [insertListing, Listing.behind, insertAll]
  cases s.insert r with
  | error e => rfl
  | ok added => rfl

/-- The listing of the first value is added first, and nothing behind it if that fails. -/
theorem insertListing_ofNodes_cons (s : LayoutStore) (list : Nat → Node → Listing) (budget : Nat)
    (n : Node) (rest : List Node) :
    s.insertListing (.ofNodes list budget (n :: rest)) =
      (s.insertListing (list budget n)).bind
        (·.insertListing (.ofNodes list (list budget n).budget rest)) := by
  rw [Listing.ofNodes]
  rcases list budget n with ⟨records, failure, left⟩
  cases failure with
  | some e =>
    simp only [insertListing]
    rcases s.insertAll records with ⟨s', e'⟩
    cases e' <;> rfl
  | none =>
    simp only [insertListing, insertAll_append]
    rcases s.insertAll records with ⟨s', e'⟩
    cases e' <;> rfl

end LayoutStore

theorem Listing.budget_ofNodes_cons {list : Nat → Node → Listing} {budget : Nat} {n : Node}
    (rest : List Node) (h : (list budget n).failure = none) :
    (ofNodes list budget (n :: rest)).budget =
      (ofNodes list (list budget n).budget rest).budget := by
  rw [ofNodes]
  revert h
  rcases list budget n with ⟨records, failure, left⟩
  rintro rfl
  rfl

/-- The parts of a value lie one step further. -/
theorem Node.depth_of_mem_parts {n m : Node} {limit budget : Nat}
    (h : m ∈ (n.parts limit budget).nodes) : m.path.depth = n.path.depth + 1 := by
  rcases n.parts_nodes limit budget with hnone | hall
  · rw [hnone] at h
    exact absurd h List.not_mem_nil
  · rw [hall] at h
    obtain ⟨step, hstep⟩ := exists_child_of_mem_children h
    rw [hstep, VariablePath.child, VariablePath.depth, List.length_append]
    rfl

namespace Emission

variable {structs : StructTable} {config : ResolverConfig} {contract declaredIn : String}

/-- What the loop comes to below the topmost values once their records are added, if none was
refused. -/
def GoesOn (turn : Emission → Option (Except Error Emission)) (rest : List Node) (budget : Nat)
    (added : Except Error LayoutStore) (result : Except Error Emission) : Prop :=
  match added with
  | .error e => result = .error e
  | .ok store => Ends turn ⟨rest, budget, store⟩ result

/-- The loop works off the value as its listing, whatever lies below. -/
def WorksOff (turn : Emission → Option (Except Error Emission)) (list : Nat → Node → Listing)
    (n : Node) : Prop :=
  ∀ rest budget store result, Ends turn ⟨n :: rest, budget, store⟩ result ↔
    GoesOn turn rest (list budget n).budget (store.insertListing (list budget n)) result

theorem ends_empty {budget : Nat} {store : LayoutStore} {result : Except Error Emission} :
    Ends (turn structs config contract declaredIn) ⟨[], budget, store⟩ result ↔
      result = .ok ⟨[], budget, store⟩ :=
  ends_finished rfl

/-- Values side by side are worked off in order. -/
theorem ends_nodes {turn : Emission → Option (Except Error Emission)}
    {list : Nat → Node → Listing} {ns : List Node} (hone : ∀ n ∈ ns, WorksOff turn list n)
    (rest : List Node) : ∀ budget store result, Ends turn ⟨ns ++ rest, budget, store⟩ result ↔
      GoesOn turn rest (Listing.ofNodes list budget ns).budget
        (store.insertListing (Listing.ofNodes list budget ns)) result := by
  induction ns with
  | nil => exact fun _ _ _ => .rfl
  | cons n ns ih =>
    intro budget store result
    rw [List.cons_append, hone n List.mem_cons_self, LayoutStore.insertListing_ofNodes_cons]
    cases hadded : store.insertListing (list budget n) with
    | error e => rfl
    | ok store' =>
      rw [Listing.budget_ofNodes_cons ns (LayoutStore.insertListing_grows hadded).1]
      exact ih (fun m hm => hone m (List.mem_cons_of_mem n hm)) _ _ _

/-- A value whose record is added makes way for others. -/
theorem ends_record {s : Emission} {r : SlotRecord} {work : List Node} {budget : Nat}
    (h : turn structs config contract declaredIn s =
      match s.store.insert r with
      | .error e => some (.error e)
      | .ok (store, _) => some (.ok ⟨work, budget, store⟩)) (result : Except Error Emission) :
    Ends (turn structs config contract declaredIn) s result ↔
      GoesOn (turn structs config contract declaredIn) work budget
        ((s.store.insert r).map (·.1)) result := by
  cases hr : s.store.insert r with
  | error e =>
    rw [hr] at h
    exact ends_failed h
  | ok added =>
    rw [hr] at h
    exact ends_again h

/-! ### One value -/

section OneValue

variable {n : Node} {t : Ty}

/-- A type that cannot be made ready ends the loop, as it ends the listing. -/
theorem worksOff_of_error {e : Error} (ht : materialize structs n.type = .error e) (room : Nat) :
    WorksOff (turn structs config contract declaredIn)
      (Listing.ofNode structs config contract declaredIn room) n := by
  intro rest budget store result
  have hlisting : Listing.ofNode structs config contract declaredIn room budget n =
      ⟨[], some e, budget⟩ := by
    cases room <;> simp only [Listing.ofNode, ht]
  rw [ends_failed (e := e) (by simp only [turn, ht]), hlisting]
  rfl

/-- Nothing is put on the stack at the greatest depth. -/
theorem worksOff_deep (ht : materialize structs n.type = .ok t)
    (hdeep : config.maxDepth ≤ n.path.depth) :
    WorksOff (turn structs config contract declaredIn)
      (Listing.ofNode structs config contract declaredIn 0) n := by
  intro rest budget store result
  let parts := Node.parts { n with type := t } config.maxArrayElements budget
  let status := if parts.nodes.isEmpty then parts.status
    else .incomplete (Error.depthExceeded (n.path.depth + 1) config.maxDepth).message
  have hturn : turn structs config contract declaredIn ⟨n :: rest, budget, store⟩ =
      match store.insert (Node.record { n with type := t } contract declaredIn status) with
      | .error e => some (.error e)
      | .ok (store, _) => some (.ok ⟨rest, parts.budget, store⟩) := by
    simp only [turn, ht, hdeep, decide_true, Bool.and_true, pushAll_eq_append]
    cases hnodes : parts.nodes with
    | nil =>
      simp only [parts, status, hnodes]
      rfl
    | cons m ms =>
      simp only [parts, status, hnodes]
      rfl
  simp only [Listing.ofNode, ht]
  rw [ends_record hturn]
  simp only [LayoutStore.insertListing, LayoutStore.insertAll]
  cases store.insert (Node.record { n with type := t } contract declaredIn status) with
  | error e => rfl
  | ok added => rfl

/-- Above the greatest depth a value makes way for its parts. -/
theorem worksOff_shallow {room : Nat} (ht : materialize structs n.type = .ok t)
    (hshallow : ¬config.maxDepth ≤ n.path.depth)
    (hparts : ∀ m : Node, m.path.depth = n.path.depth + 1 →
      WorksOff (turn structs config contract declaredIn)
        (Listing.ofNode structs config contract declaredIn room) m) :
    WorksOff (turn structs config contract declaredIn)
      (Listing.ofNode structs config contract declaredIn (room + 1)) n := by
  intro rest budget store result
  let parts := Node.parts { n with type := t } config.maxArrayElements budget
  have hturn : turn structs config contract declaredIn ⟨n :: rest, budget, store⟩ =
      match store.insert (Node.record { n with type := t } contract declaredIn parts.status) with
      | .error e => some (.error e)
      | .ok (store, _) => some (.ok ⟨parts.nodes ++ rest, parts.budget, store⟩) := by
    simp only [turn, ht, hshallow, decide_false, Bool.and_false, Bool.false_eq_true, ↓reduceIte,
      pushAll_eq_append]
    rfl
  have hdeeper : ∀ m ∈ parts.nodes, m.path.depth = n.path.depth + 1 :=
    fun m hm => Node.depth_of_mem_parts (n := { n with type := t }) hm
  simp only [Listing.ofNode, ht]
  rw [ends_record hturn, LayoutStore.insertListing_cons]
  cases store.insert (Node.record { n with type := t } contract declaredIn parts.status) with
  | error e => rfl
  | ok added => exact ends_nodes (fun m hm => hparts m (hdeeper m hm)) rest _ _ _

/-- **A value on top of the stack is worked off as its listing.** -/
theorem worksOff_ofNode (room : Nat) : ∀ {n : Node}, config.maxDepth - n.path.depth = room →
    WorksOff (turn structs config contract declaredIn)
      (Listing.ofNode structs config contract declaredIn room) n := by
  induction room with
  | zero =>
    intro n hroom
    cases ht : materialize structs n.type with
    | error e => exact worksOff_of_error ht 0
    | ok t => exact worksOff_deep ht (Nat.sub_eq_zero_iff_le.1 hroom)
  | succ room ih =>
    intro n hroom
    cases ht : materialize structs n.type with
    | error e => exact worksOff_of_error ht (room + 1)
    | ok t => exact worksOff_shallow ht (by omega) fun m hm => ih (by omega)

end OneValue

end Emission

/-- **The loop adds the listing of a value**, and comes to an end in doing so. -/
theorem Resolver.emits_iff {r : Resolver} {contract declaredIn : String} {store : LayoutStore}
    {n : Node} {result : Except Error LayoutStore} : r.Emits contract declaredIn store n result ↔
      result = store.insertListing (r.listing contract declaredIn n) := by
  rw [Emits]
  simp only [Emission.worksOff_ofNode _ rfl _, listing, Listing.of]
  cases store.insertListing _ with
  | error e =>
    simp only [Emission.GoesOn, exists_eq_left]
    exact eq_comm
  | ok store' =>
    simp only [Emission.GoesOn, Emission.ends_empty, exists_eq_left]
    exact eq_comm

/-! ## Decoding -/

/-- What the loop enters are the parts of the type. -/
theorem partsInPlace?_eq (t : Ty) :
    partsInPlace? t = if t.isComposite then some t.placedParts else none := by
  unfold partsInPlace? Ty.isComposite Ty.placedParts
  cases t.stored <;> rfl

/-- Slots that are counted in 64 bits are as far behind one another as those that are not. -/
theorem slotBehind_min (slot : Nat) (relative : Word) :
    slotBehind (min slot (UInt64.size - 1)) relative =
      min (slot + relative.toNat) (UInt64.size - 1) := by
  rw [slotBehind, Word.clamp64]
  omega

/-- Nothing is decoded behind the words, where slots stop being counted. -/
theorem decodePart_min {words : List Word} (hwords : words.length < UInt64.size) (t : Ty)
    (slot offset : Nat) :
    decodePart t words (min slot (UInt64.size - 1)) offset = decodePart t words slot offset := by
  rcases Nat.le_total slot (UInt64.size - 1) with hle | hge
  · rw [Nat.min_eq_left hle]
  · rw [Nat.min_eq_right hge, decodePart_of_length_le (Nat.le_sub_one_of_lt hwords),
      decodePart_of_length_le (Nat.le_trans (Nat.le_sub_one_of_lt hwords) hge)]

/-- The entries of a composite stand under the names of its parts. -/
theorem map_fst_of_decodeEntry {words : List Word} {slot : Nat} {ps : List PlacedMember}
    {es : List (String × Option Value)} (h : ps.mapM (decodeEntry words slot) = .ok es) :
    es.map (·.1) = ps.map (·.name) := by
  have hall := mapM_eq_ok_iff.1 h
  clear h
  induction hall with
  | nil => rfl
  | cons he _ ih =>
    obtain ⟨v, -, rfl⟩ := exists_of_map_eq_ok he
    rw [List.map_cons, List.map_cons, ih]

namespace Decoding

variable {words : List Word}

/-- What the loop comes to below the topmost frames with the values that they gave, if they did not
fail. -/
def GoesOn (words : List Word) (rest : List Frame) (values : List (Option Value))
    (given : Except Error (List (Option Value))) (result : Except Error Decoding) : Prop :=
  match given with
  | .error e => result = .error e
  | .ok vs => Ends (turn words) ⟨rest, values ++ vs⟩ result

/-- The loop enters the type at a slot as decoding in place does, whatever lies below. -/
def Enters (words : List Word) (t : Ty) : Prop :=
  ∀ slot offset rest values result,
    Ends (turn words) ⟨.enter t (min slot (UInt64.size - 1)) offset :: rest, values⟩ result ↔
      GoesOn words rest values ((decodeInPlace words t slot offset).map ([·])) result

theorem ends_empty {values : List (Option Value)} {result : Except Error Decoding} :
    Ends (turn words) ⟨[], values⟩ result ↔ result = .ok ⟨[], values⟩ :=
  ends_finished rfl

/-- Parts side by side are entered in order. -/
theorem ends_parts {ps : List PlacedMember} (hone : ∀ p ∈ ps, Enters words p.type) (slot : Nat)
    (rest : List Frame) : ∀ values result,
      Ends (turn words) ⟨ps.map (Frame.ofPart (min slot (UInt64.size - 1))) ++ rest, values⟩
          result ↔
        GoesOn words rest values ((ps.mapM (decodeEntry words slot)).map (·.map (·.2))) result := by
  induction ps with
  | nil =>
    intro values result
    have hnone : GoesOn words rest values (.ok []) result ↔
        Ends (turn words) ⟨rest, values⟩ result := by
      rw [GoesOn, List.append_nil]
    exact hnone.symm
  | cons p ps ih =>
    intro values result
    rw [List.map_cons, List.cons_append, Frame.ofPart, slotBehind_min,
      hone p List.mem_cons_self, List.mapM_cons, decodeEntry]
    cases decodeInPlace words p.type (slot + p.location.slot.toNat) p.location.offset.toNat with
    | error e => rfl
    | ok v =>
      have hrest := ih (fun q hq => hone q (List.mem_cons_of_mem p hq)) (values ++ [v]) result
      refine hrest.trans ?_
      cases ps.mapM (decodeEntry words slot) with
      | error e => rfl
      | ok es =>
        have hvalues := List.append_assoc values [v] (es.map (·.2))
        exact iff_of_eq (congrArg (fun vs => Ends (turn words) ⟨rest, vs⟩ result) hvalues)

/-- The last values become the entries of a composite. -/
theorem ends_leave (es : List (String × Option Value)) (rest : List Frame)
    (values : List (Option Value)) (result : Except Error Decoding) :
    Ends (turn words) ⟨.leave (es.map (·.1)) :: rest, values ++ es.map (·.2)⟩ result ↔
      Ends (turn words) ⟨rest, values ++ [some (.composite es)]⟩ result := by
  refine ends_again ?_
  have hsplit : (values ++ es.map (·.2)).length - (es.map (·.1)).length = values.length := by
    simp only [List.length_append, List.length_map, Nat.add_sub_cancel]
  have hzip : (es.map (·.1)).zip (es.map (·.2)) = es := (List.zip_of_prod rfl rfl).symm
  simp only [turn]
  rw [hsplit, List.take_left, List.drop_left, hzip]

/-- **A type is entered as decoding in place does**, if the words can be counted. -/
theorem enters (hwords : words.length < UInt64.size) (t : Ty) : Enters words t := by
  induction t using Ty.induct_parts with
  | h t ih =>
    intro slot offset rest values result
    by_cases ht : t.isComposite
    · have hturn : turn words ⟨.enter t (min slot (UInt64.size - 1)) offset :: rest, values⟩ =
          some (.ok ⟨t.placedParts.map (Frame.ofPart (min slot (UInt64.size - 1))) ++
            .leave (t.placedParts.map (·.name)) :: rest, values⟩) := by
        simp only [turn, partsInPlace?_eq, ht, ↓reduceIte, pushAll_eq_append]
      rw [ends_again hturn, ends_parts ih, Ty.decodeInPlace_composite ht]
      cases hes : t.placedParts.mapM (decodeEntry words slot) with
      | error e => rfl
      | ok es =>
        rw [← map_fst_of_decodeEntry hes]
        exact ends_leave es rest values result
    · rw [Ty.decodeInPlace_part ht, ← decodePart_min hwords]
      cases hv : decodePart t words (min slot (UInt64.size - 1)) offset with
      | error e => exact ends_failed (by simp only [turn, partsInPlace?_eq, ht, hv]; rfl)
      | ok v => exact ends_again (by simp only [turn, partsInPlace?_eq, ht, hv]; rfl)

end Decoding

/-- **The loop over frames decodes a composite in place**, and comes to an end in doing so, if the
words can be counted in 64 bits. -/
theorem decodesTo_iff {t : Ty} {words : List Word} {result : Except Error Value}
    (hwords : words.length < UInt64.size) :
    DecodesTo t words result ↔ result = decodeComposite t words := by
  have hentered := Decoding.enters hwords t 0 0 [] []
  rw [Nat.zero_min] at hentered
  simp only [DecodesTo, hentered, decodeComposite]
  cases decodeInPlace words t 0 0 with
  | error e =>
    simp only [Except.map, Decoding.GoesOn, exists_eq_left]
    exact eq_comm
  | ok v =>
    simp only [Except.map, Decoding.GoesOn, Decoding.ends_empty, List.nil_append, exists_eq_left]
    cases v <;> exact eq_comm

end StorageAtlas
