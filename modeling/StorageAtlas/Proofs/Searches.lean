import StorageAtlas.Layout.Search
import StorageAtlas.Proofs.ManyContracts

/-!
# A value sought in several contracts

A search looks in one contract after the other. It passes over those that lack the variable
(`Resolver.Lacks`), which are the only ones that fail for want of it (`soughtIn_notFound_iff`), and
stops at the first that fails for another reason. What it finds are the records of each contract,
which stand behind those of the contracts before it and never contradict them (`foundIn_merge`).
`search_everywhere`: what a search comes to, for every list of contracts.
-/

namespace StorageAtlas

/-! ## Failures for want of a variable -/

/-- A result that is no failure for want of a variable. -/
def Conclusive {α : Type} (x : Except Error α) : Prop :=
  ∀ contract name, x ≠ .error (.variableNotFound contract name)

theorem conclusive_ok {α : Type} (a : α) : Conclusive (.ok a) := nofun

/-- What fails as a conclusive result does is conclusive. -/
theorem Conclusive.of_error {α β : Type} {x : Except Error α} (h : Conclusive x) {e : Error}
    (he : x = .error e) : Conclusive (.error e : Except Error β) :=
  fun contract name heq => h contract name (he.trans (Except.error.inj heq ▸ rfl))

variable {structs : StructTable}

theorem materialize_conclusive (t : Ty) : Conclusive (materialize structs t) := by
  unfold materialize
  split
  · split
    · exact conclusive_ok _
    · rintro _ _ ⟨⟩
  · split
    · exact conclusive_ok _
    · rintro _ _ ⟨⟩

theorem placeVariables_conclusive : ∀ {vs : List StateVariable} {c : Cursor},
    Conclusive (placeVariables structs c vs) := by
  intro vs
  induction vs with
  | nil => exact fun {c} => conclusive_ok _
  | cons v vs ih =>
    intro c
    unfold placeVariables
    split
    · next h => exact (materialize_conclusive v.type).of_error h
    · split
      · next h => exact ih.of_error h
      · exact conclusive_ok _

namespace Model

variable {m : Model}

theorem contract_conclusive (name : String) : Conclusive (m.contract name) := by
  unfold contract
  split
  · exact conclusive_ok _
  · exact nofun

theorem baseVariables_conclusive (self : String) (bases : List String) :
    Conclusive (m.baseVariables self bases) := by
  induction bases with
  | nil => exact conclusive_ok _
  | cons base bases ih =>
    unfold baseVariables
    split
    · exact ih
    · split
      · next h => exact (contract_conclusive base).of_error h
      · split
        · next h => exact ih.of_error h
        · exact conclusive_ok _

theorem placements_conclusive (name : String) : Conclusive (m.placements name) := by
  unfold placements storageVariables
  split
  · next h =>
    split at h
    · next hcontract => exact Except.error.inj h ▸ (contract_conclusive name).of_error hcontract
    · split at h
      · next hbases =>
        exact Except.error.inj h ▸ (baseVariables_conclusive name _).of_error hbases
      · cases h
  · exact placeVariables_conclusive

end Model

theorem stepIndex_conclusive (step : AccessStep) : Conclusive (stepIndex step) := by
  unfold stepIndex
  split
  · exact conclusive_ok _
  · split
    · exact conclusive_ok _
    · exact nofun
  · exact nofun

theorem applyStep_conclusive (here : Location) (t : Ty) (step : AccessStep) :
    Conclusive (applyStep here t step) := by
  have hindex {α : Type} {e : Error} (h : stepIndex step = .error e) :
      Conclusive (.error e : Except Error α) := (stepIndex_conclusive step).of_error h
  unfold applyStep
  split
  · split
    · exact conclusive_ok _
    · exact nofun
  · split
    · exact conclusive_ok _
    · exact nofun
  · split
    · exact conclusive_ok _
    · next h => exact hindex h
  · split
    · exact conclusive_ok _
    · next h => exact hindex h
  · split
    · split
      · exact conclusive_ok _
      · exact nofun
    · next h => exact hindex h
  · split
    · split
      · exact conclusive_ok _
      · exact nofun
    · next h => exact hindex h
  · split
    · exact conclusive_ok _
    · exact nofun
  · exact nofun

theorem walk_conclusive (steps : List AccessStep) : ∀ (here : Location) (t : Ty),
    Conclusive (walk structs here t steps) := by
  induction steps with
  | nil => exact fun _ _ => conclusive_ok _
  | cons step steps ih =>
    intro here t
    unfold walk
    split
    · next h => exact (applyStep_conclusive here t step).of_error h
    · split
      · next h => exact (materialize_conclusive _).of_error h
      · split
        · next h => exact (ih _ _).of_error h
        · exact conclusive_ok _

theorem derive_conclusive (base : Location) (t : Ty) (steps : List AccessStep) (limit : Nat) :
    Conclusive (derive base t steps limit structs) := by
  unfold derive
  split
  · next h => exact (materialize_conclusive t).of_error h
  · exact walk_conclusive _ _ _

namespace Listing

variable {config : ResolverConfig} {contract declaredIn : String}

theorem ofNodes_conclusive {list : Nat → Node → Listing} {ns : List Node}
    (h : ∀ n ∈ ns, ∀ budget e, (list budget n).failure = some e →
      Conclusive (.error e : Except Error LayoutStore)) : ∀ {budget : Nat} {e : Error},
    (ofNodes list budget ns).failure = some e →
      Conclusive (.error e : Except Error LayoutStore) := by
  induction ns with
  | nil => exact nofun
  | cons n ns ih =>
    obtain ⟨hn, hns⟩ := List.forall_mem_cons.1 h
    intro budget e he
    unfold ofNodes at he
    split at he
    · next hlist => exact hn budget e (by rw [hlist]; exact he)
    · exact ih hns he

theorem ofNode_conclusive {room : Nat} : ∀ {budget : Nat} {n : Node} {e : Error},
    (ofNode structs config contract declaredIn room budget n).failure = some e →
      Conclusive (.error e : Except Error LayoutStore) := by
  induction room with
  | zero =>
    intro budget n e he
    unfold ofNode at he
    split at he
    · next h => exact Option.some.inj he ▸ (materialize_conclusive n.type).of_error h
    · exact nomatch he
  | succ room ih =>
    intro budget n e he
    unfold ofNode at he
    split at he
    · next h => exact Option.some.inj he ▸ (materialize_conclusive n.type).of_error h
    · exact ofNodes_conclusive (fun m _ budget e => ih) he

end Listing

theorem insertListing_conclusive {l : Listing}
    (hl : ∀ e, l.failure = some e → Conclusive (.error e : Except Error LayoutStore)) :
    Conclusive (LayoutStore.insertListing {} l) := by
  unfold LayoutStore.insertListing
  split
  · next hall =>
    obtain ⟨fault, rfl⟩ := LayoutStore.insertAll_conflict hall
    exact nofun
  · split
    · next e he => exact hl e he
    · exact conclusive_ok _

/-! ## One contract -/

/-- The path to what is sought. -/
def Sought.path : Sought → Except PathFault VariablePath
  | .query text => VariablePath.parse text
  | .target t => t.path

namespace Resolver

variable {r : Resolver} {sought : Sought} {name : String}

/-- What is sought can be looked for in the contract, and the contract has no variable of that
name. -/
def Lacks (r : Resolver) (sought : Sought) (name : String) : Prop :=
  ∃ asked ps, sought.path = .ok asked ∧ r.model.placements name = .ok ps ∧
    ∀ p ∈ ps, p.name ≠ asked.base

theorem soughtIn_eq (r : Resolver) (sought : Sought) (name : String) : r.soughtIn name sought =
    match sought.path with
    | .error fault => .error (.invalidPath fault)
    | .ok asked => r.path name asked := by
  cases sought with
  | query text => rfl
  | target t => rfl

/-- **Only a contract without the variable fails for want of it.** -/
theorem soughtIn_notFound_iff :
    (∃ c v, r.soughtIn name sought = .error (.variableNotFound c v)) ↔ r.Lacks sought name := by
  rw [soughtIn_eq, Lacks]
  cases sought.path with
  | error fault =>
    refine iff_of_false ?_ ?_
    · rintro ⟨c, v, h⟩
      exact nomatch h
    · rintro ⟨asked, ps, h, -⟩
      exact nomatch h
  | ok asked =>
    simp only [path]
    cases hps : r.model.placements name with
    | error e =>
      refine iff_of_false ?_ ?_
      · rintro ⟨c, v, h⟩
        exact (Model.placements_conclusive name).of_error hps c v h
      · rintro ⟨asked', ps', -, h, -⟩
        exact nomatch h
    | ok ps =>
      dsimp only
      cases hfind : ps.find? (·.name == asked.base) with
      | none =>
        refine iff_of_true ⟨_, _, rfl⟩ ⟨asked, ps, rfl, rfl, fun p hp heq => ?_⟩
        exact List.find?_eq_none.1 hfind p hp (beq_iff_eq.2 heq)
      | some p =>
        refine iff_of_false ?_ ?_
        · rintro ⟨c, v, h⟩
          dsimp only at h
          split at h
          · next hderive => exact (derive_conclusive _ _ _ _).of_error hderive c v h
          · split at h
            · exact nomatch h
            · exact insertListing_conclusive (fun e => Listing.ofNode_conclusive) c v h
        · rintro ⟨asked', ps', hasked, hps', hnone⟩
          obtain rfl := Except.ok.inj hasked
          obtain rfl := Except.ok.inj hps'
          exact hnone p (List.mem_of_find?_eq_some hfind) (by simpa using List.find?_some hfind)

/-- The records of a value in a contract: there are some, they belong to the contract, and each has
a key of its own. -/
structure RecordsOf (name : String) (rs : List SlotRecord) : Prop where
  ne_nil : rs ≠ []
  contract : ∀ q ∈ rs, q.contract = name
  nodup : (rs.map (·.key)).Nodup

theorem recordsOf_insertListing {declaredIn : String} {n : Node} {s : LayoutStore}
    (h : LayoutStore.insertListing {} (r.listing name declaredIn n) = .ok s) :
    RecordsOf name s.records := by
  obtain ⟨hnone, hgrows⟩ := LayoutStore.insertListing_grows h
  refine ⟨?_, fun q hq => ?_, hgrows.keys List.nodup_nil⟩
  · obtain ⟨t, ht⟩ : ∃ t, materialize r.model.structs n.type = .ok t := by
      cases ht : materialize r.model.structs n.type with
      | ok t => exact ⟨t, rfl⟩
      | error e =>
        unfold listing Listing.of Listing.ofNode at hnone
        simp only [ht] at hnone
        cases hnone
    obtain ⟨status, rest, hhead⟩ : ∃ status rest, (r.listing name declaredIn n).records =
        (Node.mk n.path n.location t).record name declaredIn status :: rest :=
      Listing.ofNode_head ⟨t, ht, rfl⟩
    exact List.ne_nil_of_mem (List.mem_of_head? (LayoutStore.head?_insertListing hhead h))
  · exact (Listing.ofNode_through q ((hgrows.source q hq).resolve_left List.not_mem_nil)).1

theorem recordsOf_soughtIn {s : LayoutStore} (h : r.soughtIn name sought = .ok s) :
    RecordsOf name s.records := by
  rw [soughtIn_eq] at h
  split at h
  · exact nomatch h
  · unfold path at h
    split at h
    · exact nomatch h
    · split at h
      · exact nomatch h
      · split at h
        · exact nomatch h
        · split at h
          · obtain rfl := Except.ok.inj h
            exact ⟨List.cons_ne_nil _ _, List.forall_mem_singleton.2 rfl, List.nodup_singleton _⟩
          · exact recordsOf_insertListing h

/-! ## What is found -/

/-- The records of the value in a contract; none where it cannot be had. -/
def recordsIn (r : Resolver) (sought : Sought) (name : String) : List SlotRecord :=
  match r.soughtIn name sought with
  | .ok s => s.records
  | .error _ => []

/-- The records of the value in contracts, one contract behind the other, each of them once. -/
def foundIn (r : Resolver) (sought : Sought) (names : List String) : LayoutStore :=
  ⟨names.eraseDups.flatMap (r.recordsIn sought)⟩

variable {names before after : List String} {s : LayoutStore}

theorem recordsIn_of_ok (h : r.soughtIn name sought = .ok s) :
    r.recordsIn sought name = s.records := by
  rw [recordsIn, h]

theorem recordsIn_of_error {e : Error} (h : r.soughtIn name sought = .error e) :
    r.recordsIn sought name = [] := by
  rw [recordsIn, h]

theorem contract_of_mem_recordsIn {q : SlotRecord} (hq : q ∈ r.recordsIn sought name) :
    q.contract = name := by
  unfold recordsIn at hq
  split at hq
  · next h => exact (recordsOf_soughtIn h).contract q hq
  · exact nomatch hq

theorem mem_foundIn {q : SlotRecord} :
    q ∈ (r.foundIn sought names).records ↔ ∃ name ∈ names, q ∈ r.recordsIn sought name := by
  simp only [foundIn, List.mem_flatMap, List.mem_eraseDups]

theorem foundIn_concat : r.foundIn sought (names ++ [name]) =
    if name ∈ names then r.foundIn sought names
    else ⟨(r.foundIn sought names).records ++ r.recordsIn sought name⟩ := by
  rw [foundIn, eraseDups_concat]
  split
  · rfl
  · rw [List.flatMap_append, List.flatMap_singleton]
    rfl

/-- **What further contracts have does not contradict what is found**: that of a new contract stands
behind it, and a contract once more adds nothing. -/
theorem foundIn_merge (h : r.soughtIn name sought = .ok s) :
    (r.foundIn sought names).merge s = (r.foundIn sought (names ++ [name]), none) := by
  have hrecords := recordsOf_soughtIn h
  rw [foundIn_concat, LayoutStore.merge]
  split
  · next hname =>
    refine LayoutStore.insertAll_of_holds fun q hq => ?_
    have hfound : q ∈ (r.foundIn sought names).records :=
      mem_foundIn.2 ⟨name, hname, by rwa [recordsIn_of_ok h]⟩
    obtain ⟨q', hq'⟩ : ∃ q', (r.foundIn sought names).find? q.key = some q' :=
      Option.isSome_iff_exists.1 (List.find?_isSome.2 ⟨q, hfound, beq_self_eq_true q.key⟩)
    have hkey : q'.key = q.key := by simpa using List.find?_some hq'
    -- a record under the same key belongs to the same contract
    obtain ⟨other, -, hother⟩ := mem_foundIn.1 (List.mem_of_find?_eq_some hq')
    have hsame : other = name := by
      rw [← contract_of_mem_recordsIn hother, ← hrecords.contract q hq]
      exact congrArg RecordKey.contract hkey
    rw [hsame, recordsIn_of_ok h] at hother
    obtain rfl := List.inj_on_of_nodup_map hrecords.nodup hother hq hkey
    exact ⟨q', hq', SlotRecord.samePlacement_iff.2 ⟨rfl, rfl, rfl, rfl⟩⟩
  · next hname =>
    have hself : r.foundIn sought names =
        LayoutStore.behind (r.foundIn sought names).records {} := by
      rw [LayoutStore.behind, List.append_nil]
    have hfront : ∀ q ∈ (r.foundIn sought names).records, q.contract ≠ name := by
      intro q hq heq
      obtain ⟨other, hother, hq⟩ := mem_foundIn.1 hq
      exact hname (heq ▸ contract_of_mem_recordsIn hq ▸ hother)
    have halone : LayoutStore.insertAll {} s.records = (s, none) :=
      LayoutStore.insertAll_of_nodup hrecords.nodup
    conv_lhs => rw [hself]
    rw [LayoutStore.insertAll_behind hfront hrecords.contract, halone, recordsIn_of_ok h]
    rfl

/-! ## One contract after the other -/

/-- The search goes on behind the contract: the value is found there, or the variable is lacking. -/
def Passes (r : Resolver) (sought : Sought) (name : String) : Prop :=
  r.Lacks sought name ∨ ∃ s, r.soughtIn name sought = .ok s

theorem not_lacks_of_ok (h : r.soughtIn name sought = .ok s) : ¬r.Lacks sought name := by
  rw [← soughtIn_notFound_iff, h]
  exact fun ⟨_, _, h⟩ => nomatch h

/-- **A search that comes past some contracts** has found what they have, and remembers whether one
of them lacks the variable. -/
theorem search_append (hbefore : ∀ b ∈ before, r.Passes sought b) (after : List String) :
    ∃ missing : Option Error, r.search sought (before ++ after) =
        r.searchOn sought (r.foundIn sought before) missing after ∧
      (missing = none ↔ ∀ b ∈ before, ¬r.Lacks sought b) ∧
      ∀ e ∈ missing, ∃ c v, e = .variableNotFound c v := by
  induction before using List.reverseRecOn generalizing after with
  | nil => exact ⟨none, rfl, iff_of_true rfl nofun, nofun⟩
  | append_singleton before name ih =>
    obtain ⟨hbefore, hname⟩ := List.forall_mem_append.1 hbefore
    obtain ⟨missing, hsearch, hnone, hmissing⟩ := ih hbefore (name :: after)
    rw [List.append_assoc, List.singleton_append, hsearch, searchOn, List.forall_mem_append,
      List.forall_mem_singleton]
    rcases List.forall_mem_singleton.1 hname with hlacks | ⟨s, hs⟩
    · obtain ⟨c, v, hnot⟩ := soughtIn_notFound_iff.2 hlacks
      have hsame : r.foundIn sought (before ++ [name]) = r.foundIn sought before := by
        rw [foundIn_concat, recordsIn_of_error hnot, List.append_nil, ite_self]
      rw [hnot, hsame]
      refine ⟨_, rfl, iff_of_false nofun fun h => h.2 hlacks, fun e he => ⟨c, v, ?_⟩⟩
      exact (Option.some.inj he).symm
    · rw [hs]
      simp only [foundIn_merge hs]
      exact ⟨missing, rfl, by rw [hnone, and_iff_left (not_lacks_of_ok hs)], hmissing⟩

theorem foundIn_ne_nil (hname : name ∈ names) (h : r.soughtIn name sought = .ok s) :
    (r.foundIn sought names).records ≠ [] := by
  obtain ⟨q, hq⟩ := List.exists_mem_of_ne_nil _ (recordsOf_soughtIn h).ne_nil
  exact List.ne_nil_of_mem (mem_foundIn.2 ⟨name, hname, by rwa [recordsIn_of_ok h]⟩)

/-- Where all contracts lack the variable, that is what the search fails for. -/
theorem search_of_lacks (hne : names ≠ []) (h : ∀ name ∈ names, r.Lacks sought name) :
    ∃ c v, r.search sought names = .error (.variableNotFound c v) := by
  obtain ⟨missing, hsearch, hnone, hmissing⟩ :=
    search_append (fun name hname => .inl (h name hname)) []
  obtain ⟨name, hname⟩ := List.exists_mem_of_ne_nil _ hne
  obtain ⟨e, rfl⟩ : ∃ e, missing = some e := by
    refine Option.ne_none_iff_exists'.1 fun heq => ?_
    exact hnone.1 heq name hname (h name hname)
  obtain ⟨c, v, rfl⟩ := hmissing e rfl
  have hempty : r.foundIn sought names = {} := by
    refine congrArg LayoutStore.mk (List.flatMap_eq_nil_iff.2 fun name hname => ?_)
    obtain ⟨c, v, hnot⟩ := soughtIn_notFound_iff.2 (h name (List.mem_eraseDups.1 hname))
    exact recordsIn_of_error hnot
  rw [List.append_nil, hempty] at hsearch
  exact ⟨c, v, hsearch⟩

/-- Where the value is found in some contract, and no contract fails for another reason than the
variable, it is found. -/
theorem search_of_found (h : ∀ name ∈ names, r.Passes sought name)
    (hsome : names = [] ∨ ∃ name ∈ names, ¬r.Lacks sought name) :
    r.search sought names = .ok (r.foundIn sought names) := by
  rcases hsome with rfl | ⟨name, hname, hfound⟩
  · rfl
  · obtain ⟨s, hs⟩ := (h name hname).resolve_left hfound
    obtain ⟨missing, hsearch, -, -⟩ := search_append h []
    rw [List.append_nil] at hsearch
    rw [hsearch]
    cases missing with
    | none => rfl
    | some e =>
      simp only [searchOn, LayoutStore.isEmpty, List.isEmpty_iff, foundIn_ne_nil hname hs, if_false]

/-- **The first contract that fails for another reason** is what the search fails for. -/
theorem search_of_failed {e : Error} (hbefore : ∀ b ∈ before, r.Passes sought b)
    (he : r.soughtIn name sought = .error e) (hother : ∀ c v, e ≠ .variableNotFound c v) :
    r.search sought (before ++ name :: after) = .error e := by
  obtain ⟨missing, hsearch, -, -⟩ := search_append hbefore (name :: after)
  rw [hsearch, searchOn, he]
  split
  · next h => exact absurd (Except.error.inj h) (hother _ _)
  · next h => exact h.symm ▸ rfl
  · next h => exact nomatch h

/-- All contracts are passed, or there is a first one that is not. -/
theorem passes_or_failed (r : Resolver) (sought : Sought) (names : List String) :
    (∀ name ∈ names, r.Passes sought name) ∨ ∃ before name after e,
      names = before ++ name :: after ∧ (∀ b ∈ before, r.Passes sought b) ∧
        r.soughtIn name sought = .error e ∧ ∀ c v, e ≠ .variableNotFound c v := by
  induction names with
  | nil => exact .inl nofun
  | cons name names ih =>
    have hname : r.Passes sought name ∨ ∃ e, r.soughtIn name sought = .error e ∧
        ∀ c v, e ≠ .variableNotFound c v := by
      cases h : r.soughtIn name sought with
      | ok s => exact .inl (.inr ⟨s, h⟩)
      | error e =>
        by_cases hlacks : r.Lacks sought name
        · exact .inl (.inl hlacks)
        · refine .inr ⟨e, rfl, fun c v he => hlacks (soughtIn_notFound_iff.1 ⟨c, v, ?_⟩)⟩
          rw [h, he]
    rcases hname with hpasses | ⟨e, he, hother⟩
    · rcases ih with hall | ⟨before, name', after, e, rfl, hbefore, he, hother⟩
      · exact .inl (List.forall_mem_cons.2 ⟨hpasses, hall⟩)
      · exact .inr ⟨name :: before, name', after, e, rfl,
          List.forall_mem_cons.2 ⟨hpasses, hbefore⟩, he, hother⟩
    · exact .inr ⟨[], name, names, e, rfl, nofun, he, hother⟩

/-- What a search comes to. -/
theorem search_cases (r : Resolver) (sought : Sought) (names : List String) :
    (names ≠ [] ∧ (∀ name ∈ names, r.Lacks sought name) ∧
      ∃ c v, r.search sought names = .error (.variableNotFound c v)) ∨
    ((∀ name ∈ names, r.Passes sought name) ∧
      (names = [] ∨ ∃ name ∈ names, ¬r.Lacks sought name) ∧
      r.search sought names = .ok (r.foundIn sought names)) ∨
    ∃ before name after e, names = before ++ name :: after ∧
      (∀ b ∈ before, r.Passes sought b) ∧ r.soughtIn name sought = .error e ∧
      (∀ c v, e ≠ .variableNotFound c v) ∧ r.search sought names = .error e := by
  rcases passes_or_failed r sought names with
    hall | ⟨before, name, after, e, rfl, hbefore, he, hother⟩
  · by_cases hlacks : names ≠ [] ∧ ∀ name ∈ names, r.Lacks sought name
    · exact .inl ⟨hlacks.1, hlacks.2, search_of_lacks hlacks.1 hlacks.2⟩
    · have hsome : names = [] ∨ ∃ name ∈ names, ¬r.Lacks sought name := by
        simpa only [not_and_or, not_not, not_forall, exists_prop, ne_eq] using hlacks
      exact .inr (.inl ⟨hall, hsome, search_of_found hall hsome⟩)
  · exact .inr (.inr ⟨before, name, after, e, rfl, hbefore, he, hother,
      search_of_failed hbefore he hother⟩)

/-- **A value is found in every contract that has it.** Contracts that lack the variable are passed
over. A search finds the records of the others, one contract behind the other and each of them once;
it fails for want of the variable if there are contracts and all of them lack it, and for any other
reason if that is why the first contract fails that does not lack the variable. What a contract has
never contradicts what was found before. -/
theorem search_everywhere (r : Resolver) (sought : Sought) (names : List String) :
    (∀ name, (∃ c v, r.soughtIn name sought = .error (.variableNotFound c v)) ↔
      r.Lacks sought name) ∧
    (∀ s, r.search sought names = .ok s ↔ s = r.foundIn sought names ∧
      (∀ name ∈ names, r.Lacks sought name ∨ ∃ a, r.soughtIn name sought = .ok a) ∧
      (names = [] ∨ ∃ name ∈ names, ¬r.Lacks sought name)) ∧
    ((∃ c v, r.search sought names = .error (.variableNotFound c v)) ↔
      names ≠ [] ∧ ∀ name ∈ names, r.Lacks sought name) ∧
    (∀ e, (∀ c v, e ≠ .variableNotFound c v) → (r.search sought names = .error e ↔
      ∃ before name after, names = before ++ name :: after ∧
        r.soughtIn name sought = .error e ∧
        ∀ b ∈ before, r.Lacks sought b ∨ ∃ a, r.soughtIn b sought = .ok a)) ∧
    ∀ before name s, r.soughtIn name sought = .ok s →
      (r.foundIn sought before).merge s = (r.foundIn sought (before ++ [name]), none) := by
  refine ⟨fun name => soughtIn_notFound_iff, fun s => ⟨fun h => ?_, ?_⟩,
    ⟨fun ⟨c, v, h⟩ => ?_, fun ⟨hne, hall⟩ => search_of_lacks hne hall⟩,
    fun e hother => ⟨fun h => ?_, ?_⟩, fun before name s => foundIn_merge⟩
  · rcases search_cases r sought names with ⟨hne, hall, c, v, hsearch⟩ | ⟨hall, hsome, hsearch⟩ |
      ⟨before, name, after, e, rfl, hbefore, he, hother, hsearch⟩
    · exact nomatch hsearch.symm.trans h
    · exact ⟨Except.ok.inj (h.symm.trans hsearch), hall, hsome⟩
    · exact nomatch hsearch.symm.trans h
  · rintro ⟨rfl, hall, hsome⟩
    exact search_of_found hall hsome
  · rcases search_cases r sought names with ⟨hne, hall, -⟩ | ⟨hall, hsome, hsearch⟩ |
      ⟨before, name, after, e, rfl, hbefore, he, hother, hsearch⟩
    · exact ⟨hne, hall⟩
    · exact nomatch hsearch.symm.trans h
    · exact absurd (Except.error.inj (hsearch.symm.trans h)) (hother c v)
  · rcases search_cases r sought names with ⟨hne, hall, c, v, hsearch⟩ | ⟨hall, hsome, hsearch⟩ |
      ⟨before, name, after, e', rfl, hbefore, he, -, hsearch⟩
    · exact absurd (Except.error.inj (h.symm.trans hsearch)) (hother c v)
    · exact nomatch hsearch.symm.trans h
    · obtain rfl := Except.error.inj (hsearch.symm.trans h)
      exact ⟨before, name, after, rfl, he, hbefore⟩
  · rintro ⟨before, name, after, rfl, he, hbefore⟩
    exact search_of_failed hbefore he hother

end Resolver

namespace Sample

/-- A contract with a counter, its heir, and a contract of its own. -/
def heirs : Resolver where
  model := ⟨[⟨"Base", [⟨"count", "Base", 0, .uint 8, false, false⟩], []⟩,
    ⟨"Token", [⟨"owner", "Token", 0, .address, false, false⟩], ["Base"]⟩,
    ⟨"Other", [⟨"total", "Other", 0, .uint 256, false, false⟩], []⟩], []⟩

def counter : Sought := .target { base := "count" }

end Sample

/-- An inherited variable, looked for in the heir, in a contract without it, in the base, and in the
heir again; in the contract without it alone; and behind that in one that does not exist. -/
theorem search_everywhere_inherited :
    (∃ s, Sample.heirs.search Sample.counter ["Token", "Other", "Base", "Token"] = .ok s ∧
      s.records.map (·.key.text) = ["Token.count", "Base.count"]) ∧
    Sample.heirs.Lacks Sample.counter "Other" ∧
    (∃ c v, Sample.heirs.search Sample.counter ["Other"] = .error (.variableNotFound c v)) ∧
    Sample.heirs.search Sample.counter ["Other", "Missing", "Base"] =
      .error (.contractNotFound "Missing") := by
  have htoken : ∃ s, Sample.heirs.soughtIn "Token" Sample.counter = .ok s := ⟨_, rfl⟩
  have hbase : ∃ s, Sample.heirs.soughtIn "Base" Sample.counter = .ok s := ⟨_, rfl⟩
  have hother : Sample.heirs.Lacks Sample.counter "Other" :=
    ((Resolver.search_everywhere Sample.heirs Sample.counter []).1 "Other").1 ⟨_, _, rfl⟩
  obtain ⟨-, hfound, -⟩ := Resolver.search_everywhere Sample.heirs Sample.counter
    ["Token", "Other", "Base", "Token"]
  obtain ⟨-, -, hlacking, -⟩ := Resolver.search_everywhere Sample.heirs Sample.counter ["Other"]
  obtain ⟨-, -, -, hfailed, -⟩ := Resolver.search_everywhere Sample.heirs Sample.counter
    ["Other", "Missing", "Base"]
  refine ⟨⟨_, (hfound _).2 ⟨rfl, ?_, .inr ⟨"Base", by decide, ?_⟩⟩, by decide⟩, hother,
    hlacking.2 ⟨by decide, List.forall_mem_singleton.2 hother⟩,
    (hfailed (.contractNotFound "Missing") nofun).2 ⟨["Other"], "Missing", ["Base"], rfl, rfl,
      List.forall_mem_singleton.2 (.inl hother)⟩⟩
  · exact List.forall_mem_cons.2 ⟨.inr htoken, List.forall_mem_cons.2 ⟨.inl hother,
      List.forall_mem_cons.2 ⟨.inr hbase, List.forall_mem_singleton.2 (.inr htoken)⟩⟩⟩
  · obtain ⟨s, hs⟩ := hbase
    exact Resolver.not_lacks_of_ok hs

end StorageAtlas
