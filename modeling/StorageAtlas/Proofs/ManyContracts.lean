import Mathlib.Data.List.Induction
import StorageAtlas.Proofs.CompositeParts
import StorageAtlas.Proofs.ReportedNames
import StorageAtlas.Proofs.Validation

/-!
# Layouts of several contracts

Contracts do not interfere: the layout of several contracts is the layouts of each of them, one
behind the other (`fullLayout_separates`).

A key begins with its contract. What a store has under other contracts is therefore a frame: records
are added to it, or refused, as if it were not there (`insertAll_behind` and what follows from it).
A contract that a store has already adds nothing, since the store holds all of its records.
-/

namespace StorageAtlas

/-! ## First occurrences -/

theorem eraseDups_concat (names : List String) (name : String) : (names ++ [name]).eraseDups =
    if name ∈ names then names.eraseDups else names.eraseDups ++ [name] := by
  rw [List.eraseDups_append]
  by_cases h : name ∈ names
  · have hnone : [name].removeAll names = [] := by simp [List.removeAll, h]
    rw [hnone, if_pos h]
    exact List.append_nil _
  · have hself : [name].removeAll names = [name] := by simp [List.removeAll, h]
    rw [hself, if_neg h]
    rfl

namespace LayoutStore

/-- The store with other records in front of its own. -/
def behind (front : List SlotRecord) (s : LayoutStore) : LayoutStore := ⟨front ++ s.records⟩

/-! ## Records of other contracts -/

section Frame

variable {front : List SlotRecord} {contract : String}
  (hfront : ∀ q ∈ front, q.contract ≠ contract)

include hfront

theorem find?_behind (s : LayoutStore) {key : RecordKey} (hkey : key.contract = contract) :
    (s.behind front).find? key = s.find? key := by
  have hnone : front.find? (·.key == key) = none := by
    refine List.find?_eq_none.2 fun q hq heq => hfront q hq ?_
    exact (congrArg RecordKey.contract (eq_of_beq heq)).trans hkey
  rw [find?, behind, List.find?_append, hnone]
  rfl

theorem insert_behind (s : LayoutStore) {r : SlotRecord} (hr : r.contract = contract) :
    (s.behind front).insert r = (s.insert r).map (Prod.map (behind front) id) := by
  have hkey : r.key.contract = contract := hr
  rw [insert, insert, find?_behind hfront s hkey]
  cases s.find? r.key with
  | none => simp [behind, Except.map]
  | some q => by_cases h : q.samePlacement r <;> simp [h, Except.map]

theorem insertAll_behind {rs : List SlotRecord} (hrs : ∀ r ∈ rs, r.contract = contract) :
    ∀ s : LayoutStore, (s.behind front).insertAll rs = (s.insertAll rs).map (behind front) id := by
  induction rs with
  | nil => exact fun _ => rfl
  | cons r rs ih =>
    intro s
    obtain ⟨hr, hrs⟩ := List.forall_mem_cons.1 hrs
    rw [insertAll, insertAll, insert_behind hfront s hr]
    cases s.insert r with
    | error e => rfl
    | ok t => exact ih hrs t.1

theorem insertListing_behind {l : Listing} (hl : ∀ r ∈ l.records, r.contract = contract)
    (s : LayoutStore) :
    (s.behind front).insertListing l = (s.insertListing l).map (behind front) := by
  rw [insertListing, insertListing, insertAll_behind hfront hl]
  rcases s.insertAll l.records with ⟨t, _ | e⟩
  · cases l.failure <;> rfl
  · rfl

end Frame

/-- Records that a store holds are not added again. -/
theorem insertAll_of_holds {s : LayoutStore} {rs : List SlotRecord} (h : ∀ r ∈ rs, s.Holds r) :
    s.insertAll rs = (s, none) := by
  induction rs with
  | nil => rfl
  | cons r rs ih =>
    obtain ⟨⟨q, hq, hsame⟩, hrs⟩ := List.forall_mem_cons.1 h
    simp only [insertAll, insert, hq, hsame, ↓reduceIte]
    exact ih hrs

section Records

variable {front : List SlotRecord} {s : LayoutStore} {contract : String}

theorem forContract_eq_nil (h : ∀ q ∈ s.records, q.contract ≠ contract) :
    s.forContract contract = [] :=
  List.filter_eq_nil_iff.2 fun q hq hname => h q hq (eq_of_beq hname)

/-- The records of a contract in front of those of others. -/
theorem forContract_behind_of_ne (hs : ∀ q ∈ s.records, q.contract ≠ contract) :
    (s.behind front).forContract contract = forContract ⟨front⟩ contract := by
  have hnone : s.records.filter (·.contract == contract) = [] := forContract_eq_nil hs
  rw [forContract, behind, List.filter_append, hnone]
  exact List.append_nil _

/-- The records of a contract behind those of others. -/
theorem forContract_behind_of_eq (hfront : ∀ q ∈ front, q.contract ≠ contract)
    (hs : ∀ q ∈ s.records, q.contract = contract) :
    (s.behind front).forContract contract = s.records := by
  have hnone : front.filter (·.contract == contract) = [] :=
    forContract_eq_nil (s := ⟨front⟩) hfront
  rw [forContract, behind, List.filter_append, hnone]
  exact List.filter_eq_self.2 fun q hq => beq_iff_eq.2 (hs q hq)

end Records

end LayoutStore

namespace Resolver

variable {r : Resolver} {s t : LayoutStore} {names : List String} {name : String}

theorem addPlacements_behind {front : List SlotRecord} {contract : String}
    (hfront : ∀ q ∈ front, q.contract ≠ contract) {ps : List Placement} : ∀ s : LayoutStore,
    r.addPlacements contract (s.behind front) ps =
      (r.addPlacements contract s ps).map (LayoutStore.behind front) := by
  induction ps with
  | nil => exact fun _ => rfl
  | cons p ps ih =>
    intro s
    rw [addPlacements, addPlacements, LayoutStore.insertListing_behind hfront]
    · cases s.insertListing _ with
      | error e => rfl
      | ok t => exact ih t
    · exact fun q hq => (Listing.ofNode_through q hq).1

/-- A contract whose variables a store has already adds nothing. -/
theorem addPlacements_of_holds {contract : String} {ps : List Placement}
    (h : ∀ p ∈ ps, (r.listing contract p.declarer p.node).failure = none ∧
      ∀ q ∈ r.records contract p, s.Holds q) : r.addPlacements contract s ps = .ok s := by
  induction ps with
  | nil => rfl
  | cons p ps ih =>
    obtain ⟨⟨hnone, hholds⟩, hps⟩ := List.forall_mem_cons.1 h
    have hall : s.insertAll (r.listing contract p.declarer p.node).records = (s, none) :=
      LayoutStore.insertAll_of_holds hholds
    have hp : s.insertListing (r.listing contract p.declarer
        ⟨⟨p.name, []⟩, p.location, p.type⟩) = .ok s := by
      rw [← Placement.node, LayoutStore.insertListing, hall]
      simp only [hnone]
    rw [addPlacements, hp]
    exact ih hps

/-! ## Contracts one after the other -/

theorem addContracts_append (s : LayoutStore) (names names' : List String) :
    r.addContracts s (names ++ names') =
      match r.addContracts s names with
      | .error e => .error e
      | .ok t => r.addContracts t names' := by
  induction names generalizing s with
  | nil => rfl
  | cons name names ih =>
    simp only [List.cons_append, addContracts]
    cases r.model.placements name with
    | error e => rfl
    | ok ps =>
      dsimp only
      cases r.addPlacements name s ps with
      | error e => rfl
      | ok t => exact ih t

/-- The records of a layout belong to the contracts that it is of. -/
theorem contract_mem (h : r.addContracts {} names = .ok s) :
    ∀ q ∈ s.records, q.contract ∈ names := by
  obtain ⟨rs, hgrows, -, hsource⟩ := addContracts_grows h
  intro q hq
  obtain ⟨c, hc, ps, -, p, -, hq⟩ := hsource q ((hgrows.source q hq).resolve_left List.not_mem_nil)
  rw [(Listing.ofNode_through q hq).1]
  exact hc

theorem contract_ne (h : r.addContracts {} names = .ok s) (hname : name ∉ names) :
    ∀ q ∈ s.records, q.contract ≠ name :=
  fun q hq heq => hname (heq ▸ contract_mem h q hq)

/-- **A contract once more changes nothing.** -/
theorem addContracts_again (h : r.addContracts {} names = .ok s) (hname : name ∈ names) :
    r.addContracts s [name] = .ok s := by
  obtain ⟨rs, hgrows, hplaced, -⟩ := addContracts_grows h
  obtain ⟨ps, hps, hall⟩ := hplaced name hname
  have hadd : r.addPlacements name s ps = .ok s := addPlacements_of_holds fun p hp =>
    ⟨(hall p hp).1, fun q hq => hgrows.holds q ((hall p hp).2 q hq)⟩
  simp only [addContracts, hps, hadd]

/-- **A further contract is laid out as if it were alone**, behind the others. -/
theorem addContracts_further (h : r.addContracts {} names = .ok s) (hname : name ∉ names) :
    r.addContracts s [name] = (r.addContracts {} [name]).map (LayoutStore.behind s.records) := by
  have hself : s = LayoutStore.behind s.records {} := by
    rw [LayoutStore.behind, List.append_nil]
  simp only [addContracts]
  cases r.model.placements name with
  | error e => rfl
  | ok ps =>
    conv_lhs => rw [hself]
    simp only [addPlacements_behind (contract_ne h hname)]
    cases r.addPlacements name {} ps <;> rfl

theorem addContracts_concat_eq_ok : r.addContracts {} (names ++ [name]) = .ok s ↔
    ∃ t, r.addContracts {} names = .ok t ∧ r.addContracts t [name] = .ok s := by
  rw [addContracts_append]
  cases r.addContracts {} names with
  | error e => exact ⟨nofun, fun ⟨_, h, _⟩ => nomatch h⟩
  | ok t => exact ⟨fun h => ⟨t, rfl, h⟩, fun ⟨_, h, h'⟩ => Except.ok.inj h ▸ h'⟩

/-- Contracts are laid out if each of them alone is, and only then. -/
theorem exists_addContracts_iff : (∃ s, r.addContracts {} names = .ok s) ↔
    ∀ name ∈ names, ∃ a, r.addContracts {} [name] = .ok a := by
  induction names using List.reverseRecOn with
  | nil => exact ⟨fun _ => nofun, fun _ => ⟨{}, rfl⟩⟩
  | append_singleton names name ih =>
    rw [List.forall_mem_append, List.forall_mem_singleton, ← ih]
    simp only [addContracts_concat_eq_ok]
    rw [exists_comm]
    refine ⟨fun ⟨t, s, ht, hs⟩ => ⟨⟨t, ht⟩, ?_⟩, fun ⟨⟨t, ht⟩, a, ha⟩ => ⟨t, ?_⟩⟩
    · by_cases hname : name ∈ names
      · exact ih.1 ⟨t, ht⟩ name hname
      · rw [addContracts_further ht hname] at hs
        exact (exists_of_map_eq_ok hs).imp fun _ ha => ha.1
    · by_cases hname : name ∈ names
      · exact ⟨t, ht, addContracts_again ht hname⟩
      · exact ⟨_, ht, by rw [addContracts_further ht hname, ha]; rfl⟩

/-- **Contracts, before they are checked, stand one behind the other**, each as if it were alone. -/
theorem addContracts_separates (h : r.addContracts {} names = .ok s) :
    (∀ name ∈ names, r.addContracts {} [name] = .ok (s.ofContract name)) ∧
      s.records = names.eraseDups.flatMap s.forContract := by
  induction names using List.reverseRecOn generalizing s with
  | nil =>
    obtain rfl := Except.ok.inj h
    exact ⟨nofun, rfl⟩
  | append_singleton names name ih =>
    obtain ⟨t, ht, hs⟩ := addContracts_concat_eq_ok.1 h
    obtain ⟨halone, hrecords⟩ := ih ht
    rw [eraseDups_concat]
    by_cases hname : name ∈ names
    · obtain rfl := Except.ok.inj ((addContracts_again ht hname).symm.trans hs)
      rw [if_pos hname]
      exact ⟨List.forall_mem_append.2 ⟨halone, List.forall_mem_singleton.2 (halone name hname)⟩,
        hrecords⟩
    · rw [addContracts_further ht hname] at hs
      obtain ⟨a, ha, rfl⟩ := exists_of_map_eq_ok hs
      have howned : ∀ q ∈ a.records, q.contract = name := fun q hq =>
        List.mem_singleton.1 (contract_mem ha q hq)
      have hnew : (a.behind t.records).forContract name = a.records :=
        LayoutStore.forContract_behind_of_eq (contract_ne ht hname) howned
      have hold : ∀ other ∈ names, (a.behind t.records).forContract other = t.forContract other :=
        fun other hother => LayoutStore.forContract_behind_of_ne fun q hq heq =>
          hname ((howned q hq).symm.trans heq ▸ hother)
      rw [if_neg hname, List.forall_mem_append, List.forall_mem_singleton, List.flatMap_append,
        List.flatMap_singleton, hnew]
      refine ⟨⟨fun other hother => ?_, ?_⟩, ?_⟩
      · rw [LayoutStore.ofContract, hold other hother]
        exact halone other hother
      · rw [LayoutStore.ofContract, hnew]
        exact ha
      · show t.records ++ a.records = _
        conv_lhs => rw [hrecords]
        rw [List.flatMap_congr fun other hother => (hold other (List.mem_eraseDups.1 hother)).symm]

/-- **The check of a layout is that of each of its contracts.** -/
theorem validate_iff_of_mem (h : r.addContracts {} names = .ok s) :
    s.validate = .ok () ↔ ∀ name ∈ names, (s.ofContract name).validate = .ok () := by
  rw [LayoutStore.validate_iff_ofContract]
  refine ⟨fun hall name _ => hall name, fun hall name => ?_⟩
  by_cases hname : name ∈ names
  · exact hall name hname
  · rw [LayoutStore.ofContract, LayoutStore.forContract_eq_nil (contract_ne h hname)]
    rfl

end Resolver

/-- **Contracts do not interfere.** Several contracts, of which some may be named more than once,
have a layout if each of them has one by itself, and only then. The records of each contract are
those of its own layout, in their order, and the layouts stand one behind the other, in the order in
which the contracts are named first. -/
theorem fullLayout_separates (r : Resolver) (names : List String) :
    ((∃ s, r.fullLayout names = .ok s) ↔ ∀ name ∈ names, ∃ a, r.fullLayout [name] = .ok a) ∧
    ∀ s, r.fullLayout names = .ok s →
      (∀ name ∈ names, r.fullLayout [name] = .ok (s.ofContract name)) ∧
      s.records = names.eraseDups.flatMap s.forContract := by
  simp only [Resolver.fullLayout_eq_ok_iff]
  refine ⟨⟨?_, fun h => ?_⟩, fun s ⟨hadd, hcheck⟩ => ?_⟩
  · rintro ⟨s, hadd, hcheck⟩ name hname
    obtain ⟨halone, -⟩ := Resolver.addContracts_separates hadd
    exact ⟨_, halone name hname, (Resolver.validate_iff_of_mem hadd).1 hcheck name hname⟩
  · obtain ⟨s, hadd⟩ := Resolver.exists_addContracts_iff.2 fun name hname =>
      (h name hname).imp fun _ ha => ha.1
    obtain ⟨halone, -⟩ := Resolver.addContracts_separates hadd
    refine ⟨s, hadd, (Resolver.validate_iff_of_mem hadd).2 fun name hname => ?_⟩
    obtain ⟨a, ha, hvalid⟩ := h name hname
    obtain rfl := Except.ok.inj (ha.symm.trans (halone name hname))
    exact hvalid
  · obtain ⟨halone, hrecords⟩ := Resolver.addContracts_separates hadd
    exact ⟨fun name hname =>
      ⟨halone name hname, (Resolver.validate_iff_of_mem hadd).1 hcheck name hname⟩, hrecords⟩

/-- A contract between two mentions of its heir. The heir reports a variable of its own and, under
another name, the one that it inherits. -/
theorem fullLayout_separates_hiding :
    ∃ s, (Resolver.mk Sample.hidingModel {}).fullLayout ["B", "A", "B"] = .ok s ∧
      s.records.map (·.key.text) = ["B.A.x", "B.x", "A.x"] ∧
      (Resolver.mk Sample.hidingModel {}).fullLayout ["B"] = .ok (s.ofContract "B") ∧
      (Resolver.mk Sample.hidingModel {}).fullLayout ["A"] = .ok (s.ofContract "A") ∧
      s.records = s.forContract "B" ++ s.forContract "A" := by
  obtain ⟨s, hs, hkeys⟩ := exists_ok_of_any
    (x := (Resolver.mk Sample.hidingModel {}).fullLayout ["B", "A", "B"])
    (p := fun s => s.records.map (·.key.text) == ["B.A.x", "B.x", "A.x"]) (by decide +kernel)
  obtain ⟨-, hall⟩ := fullLayout_separates (Resolver.mk Sample.hidingModel {}) ["B", "A", "B"]
  obtain ⟨halone, hrecords⟩ := hall s hs
  refine ⟨s, hs, eq_of_beq hkeys, halone "B" (by decide), halone "A" (by decide), ?_⟩
  have hnames : ["B", "A", "B"].eraseDups = ["B", "A"] := by decide
  rw [hnames] at hrecords
  simpa using hrecords

end StorageAtlas
