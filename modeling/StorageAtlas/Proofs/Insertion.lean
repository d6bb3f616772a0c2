import StorageAtlas.Layout

/-!
# What a store takes up

Adding records only ever grows a store (`LayoutStore.Grows`): what it has stays in front, and every
record that was added is held, by itself or by an earlier one under its key that says the same of
its place. A full layout is therefore known by the listings it was made from
(`Resolver.fullLayout_laysOut`).
-/

namespace StorageAtlas

theorem SlotRecord.samePlacement_iff {r q : SlotRecord} :
    r.samePlacement q ↔ r.location = q.location ∧ r.size = q.size ∧ r.type = q.type ∧
      r.declaredIn = q.declaredIn := by
  simp only [samePlacement, Bool.and_eq_true, beq_iff_eq, and_assoc]

namespace LayoutStore

/-- The store has a record under the key of `r` that says the same of its place. -/
def Holds (s : LayoutStore) (r : SlotRecord) : Prop :=
  ∃ q, s.find? r.key = some q ∧ q.samePlacement r

/-- Under one key there is one placement. -/
theorem Holds.samePlacement {s : LayoutStore} {a b : SlotRecord} (ha : s.Holds a) (hb : s.Holds b)
    (hkey : a.key = b.key) : a.location = b.location ∧ a.size = b.size ∧ a.type = b.type ∧
      a.declaredIn = b.declaredIn := by
  obtain ⟨q, hqa, ha⟩ := ha
  obtain ⟨q', hqb, hb⟩ := hb
  rw [hkey] at hqa
  obtain rfl := Option.some.inj (hqa.symm.trans hqb)
  obtain ⟨hl, hs, ht, hd⟩ := SlotRecord.samePlacement_iff.1 ha
  obtain ⟨hl', hs', ht', hd'⟩ := SlotRecord.samePlacement_iff.1 hb
  exact ⟨hl.symm.trans hl', hs.symm.trans hs', ht.symm.trans ht', hd.symm.trans hd'⟩

/-- What adding the records `rs` makes of a store. -/
structure Grows (s : LayoutStore) (rs : List SlotRecord) (s' : LayoutStore) : Prop where
  before : s.records <+: s'.records
  source : ∀ r ∈ s'.records, r ∈ s.records ∨ r ∈ rs
  holds : ∀ r ∈ rs, s'.Holds r
  keys : (s.records.map (·.key)).Nodup → (s'.records.map (·.key)).Nodup

theorem Grows.refl (s : LayoutStore) : s.Grows [] s :=
  ⟨List.prefix_refl _, fun _ h => .inl h, nofun, id⟩

theorem Grows.trans {s s' s'' : LayoutStore} {rs rs' : List SlotRecord} (h : s.Grows rs s')
    (h' : s'.Grows rs' s'') : s.Grows (rs ++ rs') s'' where
  before := h.before.trans h'.before
  source r hr := by
    rcases h'.source r hr with hr | hr
    · exact (h.source r hr).imp_right (List.mem_append_left _)
    · exact .inr (List.mem_append_right _ hr)
  holds r hr := by
    rcases List.mem_append.1 hr with hr | hr
    · obtain ⟨q, hq, hsame⟩ := h.holds r hr
      exact ⟨q, h'.before.find?_eq_some hq, hsame⟩
    · exact h'.holds r hr
  keys hs := h'.keys (h.keys hs)

/-- **Adding a record** appends it, unless its key is taken by the same placement. -/
theorem insert_grows {s s' : LayoutStore} {r : SlotRecord} {new : Bool}
    (h : s.insert r = .ok (s', new)) : s.Grows [r] s' := by
  unfold insert at h
  split at h
  · next hnone =>
    obtain ⟨rfl, -⟩ := Prod.mk.inj (Except.ok.inj h)
    have hfresh : ∀ q ∈ s.records, q.key ≠ r.key := by
      simpa [find?, List.find?_eq_none] using hnone
    refine ⟨List.prefix_append _ _, fun q hq => List.mem_append.1 hq, ?_, ?_⟩
    · have hself : r.samePlacement r := SlotRecord.samePlacement_iff.2 ⟨rfl, rfl, rfl, rfl⟩
      refine List.forall_mem_singleton.2 ⟨r, ?_, hself⟩
      show (s.records ++ [r]).find? _ = _
      rw [List.find?_append, show s.records.find? _ = none from hnone]
      simp
    · intro hs
      show ((s.records ++ [r]).map _).Nodup
      rw [List.map_append, List.nodup_append]
      refine ⟨hs, by simp, ?_⟩
      intro a ha b hb
      obtain ⟨q, hq, rfl⟩ := List.mem_map.1 ha
      obtain rfl := List.mem_singleton.1 hb
      exact hfresh q hq
  · next q hq =>
    split at h
    · next hsame =>
      obtain ⟨rfl, -⟩ := Prod.mk.inj (Except.ok.inj h)
      have hholds : s.Holds r := ⟨q, hq, hsame⟩
      exact ⟨List.prefix_refl _, fun _ hr => .inl hr, List.forall_mem_singleton.2 hholds, id⟩
    · exact nomatch h

theorem insertAll_grows {rs : List SlotRecord} : ∀ {s s' : LayoutStore},
    s.insertAll rs = (s', none) → s.Grows rs s' := by
  induction rs with
  | nil =>
    intro s s' h
    obtain rfl := (Prod.mk.inj h).1
    exact Grows.refl s
  | cons r rs ih =>
    intro s s' h
    unfold insertAll at h
    split at h
    · next hr => exact (insert_grows hr).trans (ih h)
    · exact nomatch h

theorem insertListing_grows {s s' : LayoutStore} {l : Listing} (h : s.insertListing l = .ok s') :
    l.failure = none ∧ s.Grows l.records s' := by
  unfold insertListing at h
  split at h
  · exact nomatch h
  · next hall =>
    split at h
    · exact nomatch h
    · next hnone =>
      obtain rfl := Except.ok.inj h
      exact ⟨hnone, insertAll_grows hall⟩

/-- Records that do not contradict each other are all taken up. -/
theorem exists_insertAll {rs : List SlotRecord} : ∀ {s : LayoutStore},
    (∀ a ∈ s.records ++ rs, ∀ b ∈ s.records ++ rs, a.key = b.key → a.samePlacement b) →
      ∃ s', s.insertAll rs = (s', none) := by
  induction rs with
  | nil => intro s _; exact ⟨s, rfl⟩
  | cons r rs ih =>
    intro s h
    unfold insertAll insert
    split
    · next s₁ new hr =>
      split at hr
      · obtain ⟨rfl, -⟩ := Prod.mk.inj (Except.ok.inj hr)
        refine ih ?_
        simpa only [List.append_assoc, List.singleton_append] using h
      · split at hr
        · obtain ⟨rfl, -⟩ := Prod.mk.inj (Except.ok.inj hr)
          have hsub : s.records ++ rs ⊆ s.records ++ r :: rs :=
            ((List.sublist_cons_self r rs).append_left s.records).subset
          exact ih fun a ha b hb => h a (hsub ha) b (hsub hb)
        · exact nomatch hr
    · next e hr =>
      split at hr
      · exact nomatch hr
      · next q hq =>
        have hkey : q.key = r.key := by simpa using List.find?_some hq
        have hsame : q.samePlacement r :=
          h q (List.mem_append_left _ (List.mem_of_find?_eq_some hq)) r
            (List.mem_append_right _ List.mem_cons_self) hkey
        rw [if_pos hsame] at hr
        exact nomatch hr

/-- A listing without failure whose records agree with each other and the store is taken up. -/
theorem exists_insertListing {s : LayoutStore} {l : Listing} (hl : l.failure = none)
    (h : ∀ a ∈ s.records ++ l.records, ∀ b ∈ s.records ++ l.records, a.key = b.key →
      a.samePlacement b) : ∃ s', s.insertListing l = .ok s' := by
  obtain ⟨s', hs'⟩ := exists_insertAll h
  exact ⟨s', by simp only [insertListing, hs', hl]⟩

/-- Records under keys of their own are all appended. -/
theorem insertAll_of_nodup {rs : List SlotRecord} : ∀ {s : LayoutStore},
    ((s.records ++ rs).map (·.key)).Nodup → s.insertAll rs = (⟨s.records ++ rs⟩, none) := by
  induction rs with
  | nil => intro s _; rw [List.append_nil]; rfl
  | cons r rs ih =>
    intro s h
    have hfresh : s.find? r.key = none := by
      rw [List.map_append, List.map_cons, List.nodup_append] at h
      refine List.find?_eq_none.2 fun q hq hkey => ?_
      exact h.2.2 _ (List.mem_map_of_mem hq) _ List.mem_cons_self (eq_of_beq hkey)
    rw [List.append_cons] at h ⊢
    simp only [insertAll, insert, hfresh]
    exact ih h

theorem insertListing_of_nodup {l : Listing} (hl : l.failure = none)
    (h : (l.records.map (·.key)).Nodup) : insertListing {} l = .ok ⟨l.records⟩ := by
  have hall : insertAll {} l.records = (⟨l.records⟩, none) := insertAll_of_nodup h
  simp only [insertListing, hall, hl]

/-- What is added of some records are some of them, in their order. -/
theorem insertAll_appends {rs : List SlotRecord} : ∀ {s s' : LayoutStore} {e : Option Error},
    s.insertAll rs = (s', e) → ∃ added, s'.records = s.records ++ added ∧ added.Sublist rs := by
  induction rs with
  | nil =>
    intro s s' e h
    obtain rfl := (Prod.mk.inj h).1
    exact ⟨[], (List.append_nil _).symm, .slnil⟩
  | cons r rs ih =>
    intro s s' e h
    unfold insertAll insert at h
    cases hfind : s.find? r.key with
    | none =>
      simp only [hfind] at h
      obtain ⟨added, hadded, hsub⟩ := ih h
      exact ⟨r :: added, by rw [hadded, List.append_assoc, List.singleton_append], hsub.cons_cons r⟩
    | some q =>
      by_cases hsame : q.samePlacement r
      · simp only [hfind, hsame, ↓reduceIte] at h
        obtain ⟨added, hadded, hsub⟩ := ih h
        exact ⟨added, hadded, hsub.cons r⟩
      · simp only [hfind, hsame] at h
        obtain rfl := (Prod.mk.inj h).1
        exact ⟨[], (List.append_nil _).symm, List.nil_sublist _⟩

theorem insertListing_appends {s s' : LayoutStore} {l : Listing}
    (h : s.insertListing l = .ok s') :
    ∃ added, s'.records = s.records ++ added ∧ added.Sublist l.records := by
  unfold insertListing at h
  split at h
  · exact nomatch h
  · next hall =>
    split at h
    · exact nomatch h
    · obtain rfl := Except.ok.inj h
      exact insertAll_appends hall

/-- A record is refused for another one under its key, and for nothing else. -/
theorem insertAll_conflict {rs : List SlotRecord} : ∀ {s s' : LayoutStore} {e : Error},
    s.insertAll rs = (s', some e) → ∃ fault, e = .conflict fault := by
  induction rs with
  | nil => intro s s' e h; exact nomatch h
  | cons r rs ih =>
    intro s s' e h
    unfold insertAll at h
    split at h
    · exact ih h
    · next hr =>
      obtain ⟨-, rfl⟩ : _ ∧ _ = e := by simpa using h
      unfold insert at hr
      split at hr
      · exact nomatch hr
      · split at hr
        · exact nomatch hr
        · exact ⟨_, (Except.error.inj hr).symm⟩

/-- The first record of a listing comes first in a store made of it. -/
theorem head?_insertListing {l : Listing} {s : LayoutStore} {r : SlotRecord}
    {rest : List SlotRecord} (hl : l.records = r :: rest) (h : insertListing {} l = .ok s) :
    s.records.head? = some r := by
  unfold insertListing at h
  rw [hl] at h
  have hfirst : insertAll {} (r :: rest) = insertAll ⟨[r]⟩ rest := rfl
  rw [hfirst] at h
  split at h
  · exact nomatch h
  · next s₁ hall =>
    split at h
    · exact nomatch h
    · obtain rfl := Except.ok.inj h
      obtain ⟨more, hmore⟩ := (insertAll_grows hall).before
      rw [← hmore]
      rfl

end LayoutStore

/-- A variable, taken as a node. -/
def Placement.node (p : Placement) : Node := ⟨⟨p.name, []⟩, p.location, p.type⟩

namespace Resolver

variable {r : Resolver}

/-- The records of a variable in a layout. -/
def records (r : Resolver) (contract : String) (p : Placement) : List SlotRecord :=
  (r.listing contract p.declarer p.node).records

theorem addPlacements_grows {contract : String} {ps : List Placement} : ∀ {s s' : LayoutStore},
    r.addPlacements contract s ps = .ok s' →
      (∀ p ∈ ps, (r.listing contract p.declarer p.node).failure = none) ∧
        s.Grows (ps.flatMap (r.records contract)) s' := by
  induction ps with
  | nil =>
    intro s s' h
    obtain rfl := Except.ok.inj h
    exact ⟨nofun, LayoutStore.Grows.refl s⟩
  | cons p ps ih =>
    intro s s' h
    unfold addPlacements at h
    split at h
    · exact nomatch h
    · next s₁ hp =>
      obtain ⟨hfail, hgrows⟩ := LayoutStore.insertListing_grows hp
      obtain ⟨hrest, hgrows'⟩ := ih h
      exact ⟨List.forall_mem_cons.2 ⟨hfail, hrest⟩, hgrows.trans hgrows'⟩

/-- Variables whose listings agree with each other and the store are all taken up. -/
theorem exists_addPlacements {contract : String} {ps : List Placement} : ∀ {s : LayoutStore},
    (∀ p ∈ ps, (r.listing contract p.declarer p.node).failure = none) →
      (∀ a ∈ s.records ++ ps.flatMap (r.records contract),
        ∀ b ∈ s.records ++ ps.flatMap (r.records contract), a.key = b.key → a.samePlacement b) →
      ∃ s', r.addPlacements contract s ps = .ok s' := by
  induction ps with
  | nil => intro s _ _; exact ⟨s, rfl⟩
  | cons p ps ih =>
    intro s hfail h
    obtain ⟨hp, hps⟩ := List.forall_mem_cons.1 hfail
    rw [List.flatMap_cons, ← List.append_assoc] at h
    have hfirst : ∀ a ∈ s.records ++ r.records contract p, ∀ b ∈ s.records ++ r.records contract p,
        a.key = b.key → a.samePlacement b :=
      fun a ha b hb => h a (List.mem_append_left _ ha) b (List.mem_append_left _ hb)
    obtain ⟨s₁, hs₁⟩ := LayoutStore.exists_insertListing hp hfirst
    obtain ⟨-, hgrows⟩ := LayoutStore.insertListing_grows hs₁
    have hsub : s₁.records ++ ps.flatMap (r.records contract) ⊆
        s.records ++ r.records contract p ++ ps.flatMap (r.records contract) := by
      refine List.append_subset.2 ⟨fun q hq => ?_, List.subset_append_right _ _⟩
      exact List.mem_append_left _ (List.mem_append.2 (hgrows.source q hq))
    obtain ⟨s', hs'⟩ := ih hps fun a ha b hb => h a (hsub ha) b (hsub hb)
    have hfolded : s.insertListing (r.listing contract p.declarer ⟨⟨p.name, []⟩, p.location,
      p.type⟩) = .ok s₁ := hs₁
    exact ⟨s', by simp only [addPlacements, hfolded, hs']⟩

theorem addPlacements_conflict {contract : String} {ps : List Placement} :
    ∀ {s : LayoutStore} {e : Error},
      (∀ p ∈ ps, (r.listing contract p.declarer p.node).failure = none) →
      r.addPlacements contract s ps = .error e → ∃ fault, e = .conflict fault := by
  induction ps with
  | nil => intro s e _ h; exact nomatch h
  | cons p ps ih =>
    intro s e hfail h
    obtain ⟨hp, hps⟩ := List.forall_mem_cons.1 hfail
    unfold addPlacements at h
    split at h
    · next hs =>
      obtain rfl := Except.error.inj h
      unfold LayoutStore.insertListing at hs
      split at hs
      · next hall =>
        obtain rfl := Except.error.inj hs
        exact LayoutStore.insertAll_conflict hall
      · split at hs
        · next hsome => exact nomatch hp.symm.trans hsome
        · exact nomatch hs
    · exact ih hps h

/-- What a layout of contracts consists of: the listings of all their variables, every record of
which is held, and nothing else. -/
structure LaysOut (r : Resolver) (contracts : List String) (s : LayoutStore) : Prop where
  placed : ∀ c ∈ contracts, ∃ ps, r.model.placements c = .ok ps ∧ ∀ p ∈ ps,
    (r.listing c p.declarer p.node).failure = none ∧ ∀ q ∈ r.records c p, s.Holds q
  source : ∀ q ∈ s.records, ∃ c ∈ contracts, ∃ ps, r.model.placements c = .ok ps ∧
    ∃ p ∈ ps, q ∈ r.records c p
  keys : (s.records.map (·.key)).Nodup

theorem addContracts_grows {contracts : List String} : ∀ {s s' : LayoutStore},
    r.addContracts s contracts = .ok s' → ∃ rs, s.Grows rs s' ∧
      (∀ c ∈ contracts, ∃ ps, r.model.placements c = .ok ps ∧ ∀ p ∈ ps,
        (r.listing c p.declarer p.node).failure = none ∧ ∀ q ∈ r.records c p, q ∈ rs) ∧
      ∀ q ∈ rs, ∃ c ∈ contracts, ∃ ps, r.model.placements c = .ok ps ∧
        ∃ p ∈ ps, q ∈ r.records c p := by
  induction contracts with
  | nil =>
    intro s s' h
    obtain rfl := Except.ok.inj h
    exact ⟨[], LayoutStore.Grows.refl s, nofun, nofun⟩
  | cons c contracts ih =>
    intro s s' h
    unfold addContracts at h
    split at h
    · exact nomatch h
    · next ps hps =>
      split at h
      · exact nomatch h
      · next s₁ hs₁ =>
        obtain ⟨hfail, hgrows⟩ := addPlacements_grows hs₁
        obtain ⟨rs, hgrows', hplaced, hsource⟩ := ih h
        refine ⟨_, hgrows.trans hgrows', List.forall_mem_cons.2 ⟨⟨ps, hps, ?_⟩, ?_⟩, ?_⟩
        · intro p hp
          refine ⟨hfail p hp, fun q hq => ?_⟩
          exact List.mem_append_left _ (List.mem_flatMap.2 ⟨p, hp, hq⟩)
        · intro c' hc'
          obtain ⟨ps', hps', hall⟩ := hplaced c' hc'
          exact ⟨ps', hps', fun p hp =>
            ⟨(hall p hp).1, fun q hq => List.mem_append_right _ ((hall p hp).2 q hq)⟩⟩
        · intro q hq
          rcases List.mem_append.1 hq with hq | hq
          · obtain ⟨p, hp, hq⟩ := List.mem_flatMap.1 hq
            exact ⟨c, List.mem_cons_self, ps, hps, p, hp, hq⟩
          · obtain ⟨c', hc', rest⟩ := hsource q hq
            exact ⟨c', List.mem_cons_of_mem _ hc', rest⟩

theorem fullLayout_eq_ok_iff {contracts : List String} {s : LayoutStore} :
    r.fullLayout contracts = .ok s ↔ r.addContracts {} contracts = .ok s ∧ s.validate = .ok () := by
  unfold fullLayout
  split
  · next h => exact ⟨nofun, fun ⟨hadd, _⟩ => nomatch h.symm.trans hadd⟩
  · next t h =>
    rw [h]
    split
    · next e hcheck =>
      refine ⟨nofun, fun ⟨hadd, hok⟩ => ?_⟩
      obtain rfl := Except.ok.inj hadd
      exact nomatch hcheck.symm.trans hok
    · next hcheck =>
      exact ⟨fun h => ⟨h, Except.ok.inj h ▸ hcheck⟩, And.left⟩

/-- **A full layout consists of the listings of its variables.** -/
theorem fullLayout_laysOut {contracts : List String} {s : LayoutStore}
    (h : r.fullLayout contracts = .ok s) : r.LaysOut contracts s := by
  obtain ⟨rs, hgrows, hplaced, hsource⟩ := addContracts_grows (fullLayout_eq_ok_iff.1 h).1
  refine ⟨?_, ?_, hgrows.keys List.nodup_nil⟩
  · intro c hc
    obtain ⟨ps, hps, hall⟩ := hplaced c hc
    exact ⟨ps, hps, fun p hp =>
      ⟨(hall p hp).1, fun q hq => hgrows.holds q ((hall p hp).2 q hq)⟩⟩
  · intro q hq
    rcases hgrows.source q hq with hq | hq
    · exact nomatch hq
    · exact hsource q hq

end Resolver

end StorageAtlas
