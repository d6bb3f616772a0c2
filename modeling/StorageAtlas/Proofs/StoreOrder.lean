import Mathlib.Data.List.Nodup
import StorageAtlas.Fetch.Plan
import StorageAtlas.Proofs.Insertion
import StorageAtlas.Proofs.Parts
import StorageAtlas.Proofs.PathText

/-!
# Outer values come first

A listing goes from a value to its parts, and a store keeps the order of its listings. So no record
of a store that a resolver made stands in front of a value it lies in (`LayoutStore.InOrder`,
`Resolver.makes_inOrder`). Keys are texts, and two paths may have one text; the order is therefore
proved of texts. It takes nothing of the names in the model, since a text that begins another one
is never longer.
-/

namespace StorageAtlas

namespace VariablePath

variable {p : VariablePath} {k depth : Nat}

theorem truncated_child {step : AccessStep} (h : k ≤ p.depth) :
    (p.child step).truncated k = p.truncated k := by
  simp only [truncated, child, List.take_append_of_le_length h]

theorem truncated_self (h : p.depth ≤ k) : p.truncated k = p := by
  simp only [truncated, List.take_of_length_le h]

theorem truncated_truncated (h : depth ≤ k) :
    (p.truncated k).truncated depth = p.truncated depth := by
  simp only [truncated, List.take_take, Nat.min_eq_left h]

/-- The text of a path goes on from the text of what the path goes through. -/
theorem toList_text_truncated (p : VariablePath) (k : Nat) : p.text.toList =
    (p.truncated k).text.toList ++ ((p.steps.drop k).map (·.text.toList)).flatten := by
  rw [toList_text, toList_text, List.append_assoc, truncated, ← List.flatten_append,
    ← List.map_append, List.take_append_drop]

theorem length_text_truncated_le : (p.truncated k).text.length ≤ p.text.length := by
  have h := congrArg List.length (toList_text_truncated p k)
  rw [List.length_append, String.length_toList, String.length_toList] at h
  omega

/-- The text of what a path goes through is shorter, as each step takes a character. -/
theorem length_text_truncated_lt (h : k < p.depth) :
    (p.truncated k).text.length < p.text.length := by
  have hlen := congrArg List.length (toList_text_truncated p k)
  have hstep : 0 < p.steps[k].text.toList.length := by
    cases p.steps[k] with
    | index i => simp [AccessStep.text]
    | key literal => simp [AccessStep.text]
    | field name => simp [AccessStep.text]
  rw [List.drop_eq_getElem_cons h, List.map_cons, List.flatten_cons, List.length_append,
    List.length_append, String.length_toList, String.length_toList] at hlen
  omega

end VariablePath

namespace SlotRecord

/-- The key of the value that a record's path goes through after so many steps. -/
def outerKey (r : SlotRecord) (depth : Nat) : RecordKey :=
  ⟨r.contract, (r.path.truncated depth).text⟩

theorem mem_ancestors {r : SlotRecord} {key : RecordKey} :
    key ∈ r.ancestors ↔ ∃ depth < r.path.depth, key = r.outerKey depth := by
  simp only [ancestors, List.mem_map, List.mem_range, outerKey, eq_comm]

theorem key_not_mem_ancestors (r : SlotRecord) : r.key ∉ r.ancestors := by
  intro h
  obtain ⟨depth, hdepth, hkey⟩ := mem_ancestors.1 h
  have hlt := VariablePath.length_text_truncated_lt hdepth
  have htext : r.path.text = (r.path.truncated depth).text := congrArg RecordKey.path hkey
  rw [htext] at hlt
  exact Nat.lt_irrefl _ hlt

end SlotRecord

namespace LayoutStore

/-- Every key once, and no record in front of a value it lies in. -/
structure InOrder (s : LayoutStore) : Prop where
  keys : (s.records.map (·.key)).Nodup
  outerFirst : s.records.Pairwise fun r q => q.key ∉ r.ancestors

theorem InOrder.sublist {s : LayoutStore} (h : s.InOrder) {rs : List SlotRecord}
    (hrs : rs.Sublist s.records) : InOrder ⟨rs⟩ :=
  ⟨h.keys.sublist (hrs.map _), h.outerFirst.sublist hrs⟩

theorem inOrder_singleton (r : SlotRecord) : InOrder ⟨[r]⟩ :=
  ⟨List.nodup_singleton _, List.pairwise_singleton _ _⟩

end LayoutStore

/-! ## What stands in front -/

/-- The values that each record lies in, from so many steps on, are among the `seen` or in front. -/
def OuterSeen (first : Nat) : List RecordKey → List SlotRecord → Prop
  | _, [] => True
  | seen, r :: rest =>
    (∀ depth, first ≤ depth → depth < r.path.depth → r.outerKey depth ∈ seen) ∧
      OuterSeen first (r.key :: seen) rest

namespace OuterSeen

variable {first : Nat} {rs rs' : List SlotRecord}

theorem mono : ∀ {seen seen' : List RecordKey}, OuterSeen first seen rs → seen ⊆ seen' →
    OuterSeen first seen' rs := by
  induction rs with
  | nil => intro seen seen' _ _; trivial
  | cons r rs ih =>
    intro seen seen' h hsub
    refine ⟨fun depth hfirst hdepth => hsub (h.1 depth hfirst hdepth), ih h.2 ?_⟩
    exact List.cons_subset_cons _ hsub

theorem append : ∀ {seen : List RecordKey}, OuterSeen first seen rs →
    OuterSeen first seen rs' → OuterSeen first seen (rs ++ rs') := by
  induction rs with
  | nil => intro seen _ h'; exact h'
  | cons r rs ih =>
    intro seen h h'
    exact ⟨h.1, ih h.2 (h'.mono (List.subset_cons_self _ _))⟩

/-- Appending a record whose outer values are seen. -/
theorem concat : ∀ {seen : List RecordKey} {r : SlotRecord}, OuterSeen first seen rs →
    (∀ depth, first ≤ depth → depth < r.path.depth →
      r.outerKey depth ∈ seen ∨ r.outerKey depth ∈ rs.map (·.key)) →
    OuterSeen first seen (rs ++ [r]) := by
  induction rs with
  | nil =>
    intro seen r _ hr
    exact ⟨fun depth hfirst hdepth => (hr depth hfirst hdepth).resolve_right nofun, trivial⟩
  | cons q rs ih =>
    intro seen r h hr
    refine ⟨h.1, ih h.2 fun depth hfirst hdepth => ?_⟩
    rcases hr depth hfirst hdepth with hseen | hrs
    · exact .inl (List.mem_cons_of_mem _ hseen)
    · rcases List.mem_cons.1 hrs with hq | hrs
      · exact .inl (hq ▸ List.mem_cons_self)
      · exact .inr hrs

/-- Outer values that were not seen before stand in the list. -/
theorem outerKey_mem : ∀ {seen : List RecordKey}, OuterSeen first seen rs → ∀ r ∈ rs,
    ∀ depth, first ≤ depth → depth < r.path.depth →
      r.outerKey depth ∈ seen ∨ r.outerKey depth ∈ rs.map (·.key) := by
  induction rs with
  | nil => intro seen _ r hr; exact nomatch hr
  | cons q rs ih =>
    intro seen h r hr depth hfirst hdepth
    rcases List.mem_cons.1 hr with rfl | hr
    · exact .inl (h.1 depth hfirst hdepth)
    · rcases ih h.2 r hr depth hfirst hdepth with hseen | hrs
      · rcases List.mem_cons.1 hseen with heq | hseen
        · exact .inr (heq ▸ List.mem_cons_self)
        · exact .inl hseen
      · exact .inr (List.mem_cons_of_mem _ hrs)

/-- With every key once, what stands in front is not behind as well. -/
theorem pairwise : ∀ {seen : List RecordKey}, OuterSeen first seen rs →
    (rs.map (·.key)).Nodup → (∀ r ∈ rs, r.key ∉ seen) →
    (∀ r ∈ rs, ∀ q ∈ rs, ∀ depth < first, depth < r.path.depth → q.key ≠ r.outerKey depth) →
    rs.Pairwise fun r q => q.key ∉ r.ancestors := by
  induction rs with
  | nil => intro seen _ _ _ _; exact List.Pairwise.nil
  | cons r rs ih =>
    intro seen h hkeys hnew houter
    rw [List.map_cons, List.nodup_cons] at hkeys
    refine List.Pairwise.cons (fun q hq hancestor => ?_) (ih h.2 hkeys.2 ?_ ?_)
    · obtain ⟨depth, hdepth, hkey⟩ := SlotRecord.mem_ancestors.1 hancestor
      by_cases hfirst : first ≤ depth
      · exact hnew q (List.mem_cons_of_mem _ hq) (hkey ▸ h.1 depth hfirst hdepth)
      · exact houter r List.mem_cons_self q (List.mem_cons_of_mem _ hq) depth
          (Nat.lt_of_not_le hfirst) hdepth hkey
    · intro q hq hseen
      rcases List.mem_cons.1 hseen with heq | hseen
      · exact hkeys.1 (heq ▸ List.mem_map_of_mem hq)
      · exact hnew q (List.mem_cons_of_mem _ hq) hseen
    · intro a ha b hb
      exact houter a (List.mem_cons_of_mem _ ha) b (List.mem_cons_of_mem _ hb)

end OuterSeen

/-! ## Listings -/

namespace Listing

variable (structs : StructTable) (config : ResolverConfig) (contract declaredIn : String)

/-- A listing is empty, or it is the record of its node, alone or with the listings of the node's
children behind it. -/
theorem ofNode_records_cases (room budget : Nat) (n : Node) :
    (ofNode structs config contract declaredIn room budget n).records = [] ∨
      ∃ k status rest, n.Settles structs k ∧
        (ofNode structs config contract declaredIn room budget n).records =
          k.record contract declaredIn status :: rest ∧
        (rest = [] ∨ ∃ below left, room = below + 1 ∧ rest =
          (ofNodes (ofNode structs config contract declaredIn below) left k.children).records) := by
  cases hn : materialize structs n.type with
  | error e =>
    unfold ofNode
    rw [hn]
    exact .inl rfl
  | ok t =>
    have hk : n.Settles structs { n with type := t } := ⟨t, hn, rfl⟩
    cases room with
    | zero =>
      obtain ⟨status, rest, hhead⟩ :=
        @ofNode_head structs config contract declaredIn 0 budget n _ hk
      have hone : (ofNode structs config contract declaredIn 0 budget n).records.length = 1 := by
        unfold ofNode
        rw [hn]
        rfl
      rw [hhead, List.length_cons, Nat.add_eq_right, List.length_eq_zero_iff] at hone
      exact .inr ⟨_, status, rest, hk, hhead, .inl hone⟩
    | succ below =>
      rw [ofNode_succ hk]
      refine .inr ⟨_, _, _, hk, rfl, ?_⟩
      rcases Node.parts_nodes { n with type := t } config.maxArrayElements budget with h | h
      · rw [h]
        exact .inl rfl
      · rw [h]
        exact .inr ⟨below, _, rfl, rfl⟩

variable {structs config contract declaredIn} {first : Nat}

/-- Lists of records one behind the other have what each of them has. -/
theorem ofNodes_induction {P : List SlotRecord → Prop} (hnil : P [])
    (happend : ∀ {rs rs'}, P rs → P rs' → P (rs ++ rs')) {list : Nat → Node → Listing}
    {ns : List Node} (h : ∀ n ∈ ns, ∀ budget, P (list budget n).records) :
    ∀ {budget : Nat}, P (ofNodes list budget ns).records := by
  induction ns with
  | nil => intro budget; exact hnil
  | cons n ns ih =>
    intro budget
    have hn := h n List.mem_cons_self budget
    unfold ofNodes
    split
    · next heq => rw [heq] at hn; exact hn
    · next heq =>
      rw [heq] at hn
      exact happend hn (ih fun n' hn' => h n' (List.mem_cons_of_mem _ hn'))

/-- All records of a listing belong to the contract, and their paths go through that of the node. -/
theorem ofNode_through {room : Nat} : ∀ {budget : Nat} {n : Node},
    ∀ r ∈ (ofNode structs config contract declaredIn room budget n).records,
      r.contract = contract ∧ n.path.depth ≤ r.path.depth ∧
        r.path.truncated n.path.depth = n.path := by
  induction room using Nat.strongRecOn with
  | ind room ih =>
    intro budget n
    rcases ofNode_records_cases structs config contract declaredIn room budget n with
      hnil | ⟨k, status, rest, hk, hrecords, hrest⟩
    · rw [hnil]
      exact nofun
    · rw [hrecords]
      refine List.forall_mem_cons.2 ⟨⟨rfl, ?_, ?_⟩, ?_⟩
      · exact Nat.le_of_eq (congrArg VariablePath.depth hk.path_eq.symm)
      · show k.path.truncated n.path.depth = n.path
        rw [hk.path_eq]
        exact VariablePath.truncated_self (Nat.le_refl _)
      · rcases hrest with rfl | ⟨below, left, rfl, rfl⟩
        · exact nofun
        · refine ofNodes_induction (P := fun rs => ∀ r ∈ rs, r.contract = contract ∧
            n.path.depth ≤ r.path.depth ∧ r.path.truncated n.path.depth = n.path) nofun
            (fun h h' => List.forall_mem_append.2 ⟨h, h'⟩) fun m hm budget r hr => ?_
          obtain ⟨step, hstep⟩ := Node.exists_child_of_mem_children hm
          rw [hk.path_eq] at hstep
          have hdepth : m.path.depth = n.path.depth + 1 := by
            rw [hstep, VariablePath.child, VariablePath.depth, List.length_append]
            rfl
          obtain ⟨hcontract, hle, hcut⟩ := ih below (Nat.lt_succ_self _) r hr
          have hnode : n.path.depth ≤ m.path.depth := by omega
          refine ⟨hcontract, Nat.le_trans hnode hle, ?_⟩
          -- cut to the child first, then to the node
          rw [← VariablePath.truncated_truncated hnode, hcut, hstep,
            VariablePath.truncated_child (Nat.le_refl _),
            VariablePath.truncated_self (Nat.le_refl _)]

/-- The records of a listing stand behind the values they lie in, if what the node lies in is
seen. -/
theorem ofNode_outerSeen {room : Nat} : ∀ {budget : Nat} {n : Node} {seen : List RecordKey},
    (∀ depth, first ≤ depth → depth < n.path.depth →
      (⟨contract, (n.path.truncated depth).text⟩ : RecordKey) ∈ seen) →
    OuterSeen first seen (ofNode structs config contract declaredIn room budget n).records := by
  induction room using Nat.strongRecOn with
  | ind room ih =>
    intro budget n seen hseen
    rcases ofNode_records_cases structs config contract declaredIn room budget n with
      hnil | ⟨k, status, rest, hk, hrecords, hrest⟩
    · rw [hnil]
      trivial
    · rw [hrecords]
      have hpath := hk.path_eq
      refine ⟨fun depth hfirst hdepth => ?_, ?_⟩
      · show (⟨contract, (k.path.truncated depth).text⟩ : RecordKey) ∈ seen
        rw [hpath]
        exact hseen depth hfirst (hpath ▸ hdepth)
      · rcases hrest with rfl | ⟨below, left, rfl, rfl⟩
        · trivial
        · refine ofNodes_induction trivial OuterSeen.append fun m hm budget => ?_
          refine ih below (Nat.lt_succ_self _) fun depth hfirst hdepth => ?_
          obtain ⟨step, hstep⟩ := Node.exists_child_of_mem_children hm
          rw [hpath] at hstep
          have hle : depth ≤ n.path.depth := by
            rw [hstep, VariablePath.child, VariablePath.depth, List.length_append] at hdepth
            exact Nat.le_of_lt_succ hdepth
          rw [hstep, VariablePath.truncated_child hle]
          rcases Nat.lt_or_eq_of_le hle with hlt | rfl
          · exact List.mem_cons_of_mem _ (hseen depth hfirst hlt)
          · rw [VariablePath.truncated_self (Nat.le_refl _)]
            exact List.mem_cons.2 (.inl (by simp only [SlotRecord.key, Node.record, hpath]))

end Listing

/-! ## Stores -/

namespace LayoutStore

variable {first : Nat}

/-- Adding records keeps outer values in front. -/
theorem insertAll_outerSeen {rs : List SlotRecord} : ∀ {s s' : LayoutStore},
    s.insertAll rs = (s', none) → OuterSeen first [] s.records →
    OuterSeen first (s.records.map (·.key)) rs → OuterSeen first [] s'.records := by
  induction rs with
  | nil =>
    intro s s' h hs _
    obtain rfl := (Prod.mk.inj h).1
    exact hs
  | cons r rs ih =>
    intro s s' h hs hrs
    unfold insertAll at h
    split at h
    · next s₁ new hr =>
      have hgrows := insert_grows hr
      obtain ⟨q, hq, -⟩ := hgrows.holds r List.mem_cons_self
      have hkey : r.key ∈ s₁.records.map (·.key) := by
        have hqr : q.key = r.key := by simpa using List.find?_some hq
        exact List.mem_map.2 ⟨q, List.mem_of_find?_eq_some hq, hqr⟩
      have hkeys : s.records.map (·.key) ⊆ s₁.records.map (·.key) :=
        (hgrows.before.map _).subset
      refine ih h ?_ (hrs.2.mono (List.cons_subset.2 ⟨hkey, hkeys⟩))
      unfold insert at hr
      split at hr
      · obtain ⟨rfl, -⟩ := Prod.mk.inj (Except.ok.inj hr)
        exact hs.concat fun depth hfirst hdepth => .inr (hrs.1 depth hfirst hdepth)
      · split at hr
        · obtain ⟨rfl, -⟩ := Prod.mk.inj (Except.ok.inj hr)
          exact hs
        · exact nomatch hr
    · exact nomatch h

theorem insertListing_outerSeen {s s' : LayoutStore} {l : Listing}
    (h : s.insertListing l = .ok s') (hs : OuterSeen first [] s.records)
    (hl : OuterSeen first (s.records.map (·.key)) l.records) : OuterSeen first [] s'.records := by
  unfold insertListing at h
  split at h
  · exact nomatch h
  · next hall =>
    split at h
    · exact nomatch h
    · obtain rfl := Except.ok.inj h
      exact insertAll_outerSeen hall hs hl

end LayoutStore

namespace Resolver

variable {r : Resolver}

theorem addPlacements_outerSeen {contract : String} {ps : List Placement} :
    ∀ {s s' : LayoutStore}, r.addPlacements contract s ps = .ok s' →
      OuterSeen 0 [] s.records → OuterSeen 0 [] s'.records := by
  induction ps with
  | nil =>
    intro s s' h hs
    obtain rfl := Except.ok.inj h
    exact hs
  | cons p ps ih =>
    intro s s' h hs
    unfold addPlacements at h
    split at h
    · exact nomatch h
    · next s₁ hp =>
      refine ih h (LayoutStore.insertListing_outerSeen hp hs ?_)
      exact Listing.ofNode_outerSeen fun depth _ hdepth => absurd hdepth (Nat.not_lt_zero depth)

theorem addContracts_outerSeen {contracts : List String} : ∀ {s s' : LayoutStore},
    r.addContracts s contracts = .ok s' → OuterSeen 0 [] s.records →
      OuterSeen 0 [] s'.records := by
  induction contracts with
  | nil =>
    intro s s' h hs
    obtain rfl := Except.ok.inj h
    exact hs
  | cons c contracts ih =>
    intro s s' h hs
    unfold addContracts at h
    split at h
    · exact nomatch h
    · split at h
      · exact nomatch h
      · next hs₁ => exact ih h (addPlacements_outerSeen hs₁ hs)

theorem fullLayout_inOrder {contracts : List String} {s : LayoutStore}
    (h : r.fullLayout contracts = .ok s) : s.InOrder := by
  have hkeys := (fullLayout_laysOut h).keys
  have hseen := addContracts_outerSeen (fullLayout_eq_ok_iff.1 h).1 trivial
  exact ⟨hkeys, hseen.pairwise hkeys (fun _ _ => List.not_mem_nil)
    fun _ _ _ _ depth hdepth => absurd hdepth (Nat.not_lt_zero depth)⟩

/-- What the root of a listing lies in is not listed, as its text is too short. -/
theorem insertListing_listing_inOrder {contract declaredIn : String} {n : Node} {s : LayoutStore}
    (h : LayoutStore.insertListing {} (r.listing contract declaredIn n) = .ok s) : s.InOrder := by
  have hgrows := (LayoutStore.insertListing_grows h).2
  have hkeys := hgrows.keys List.nodup_nil
  have hthrough : ∀ q ∈ s.records, n.path.depth ≤ q.path.depth ∧
      q.path.truncated n.path.depth = n.path := by
    intro q hq
    rcases hgrows.source q hq with hq | hq
    · exact nomatch hq
    · exact (Listing.ofNode_through q hq).2
  have hseen : OuterSeen n.path.depth [] s.records :=
    LayoutStore.insertListing_outerSeen h trivial <|
      Listing.ofNode_outerSeen fun depth hfirst hdepth => absurd hdepth (Nat.not_lt.2 hfirst)
  refine ⟨hkeys, hseen.pairwise hkeys (fun _ _ => List.not_mem_nil) ?_⟩
  intro a ha q hq depth hfirst _ hkey
  have htext : q.path.text = (a.path.truncated depth).text := congrArg RecordKey.path hkey
  have hlower : n.path.text.length ≤ q.path.text.length := by
    rw [← (hthrough q hq).2]
    exact VariablePath.length_text_truncated_le
  have hshort : (n.path.truncated depth).text.length < n.path.text.length :=
    VariablePath.length_text_truncated_lt hfirst
  rw [htext, ← VariablePath.truncated_truncated (Nat.le_of_lt hfirst), (hthrough a ha).2]
    at hlower
  exact Nat.not_lt.2 hlower hshort

theorem path_inOrder {contract : String} {asked : VariablePath} {s : LayoutStore}
    (h : r.path contract asked = .ok s) : s.InOrder := by
  unfold path at h
  split at h
  · exact nomatch h
  · split at h
    · exact nomatch h
    · split at h
      · exact nomatch h
      · split at h
        · obtain rfl := Except.ok.inj h
          exact LayoutStore.inOrder_singleton _
        · exact insertListing_listing_inOrder h

/-- The stores that a resolver gives: full layouts and what lies at a path. -/
inductive Makes (r : Resolver) (s : LayoutStore) : Prop
  | fullLayout {contracts : List String} (h : r.fullLayout contracts = .ok s)
  | path {contract : String} {asked : VariablePath} (h : r.path contract asked = .ok s)

/-- **In a store that a resolver gives, outer values come first.** -/
theorem Makes.inOrder {s : LayoutStore} (h : r.Makes s) : s.InOrder := by
  cases h with
  | fullLayout h => exact fullLayout_inOrder h
  | path h => exact path_inOrder h

end Resolver

end StorageAtlas
