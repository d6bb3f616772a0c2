import Mathlib.Data.List.Forall2
import StorageAtlas.Proofs.LayoutExistence

/-!
# Upgrades

A contract that comes first in the linearization of another has its variables where the other has
them, and so has a contract whose own declarations are added to behind the others, or that gains
constants and immutables anywhere, in itself or in its bases (`placements_stay`). Both hold since a
cursor puts a variable where those in front of it leave off (`placeVariables_front`); what follows
only has a say in the name that a variable is reported under.
-/

namespace StorageAtlas

/-- What a placement says of the storage that it takes. -/
def Placement.place (p : Placement) : Ty × Location := (p.type, p.location)

/-! ## Placing what comes first -/

section Placing

variable {structs : StructTable}

/-- **Variables are placed without regard to those behind them**, and by their types alone. -/
theorem placeVariables_front {vs : List StateVariable} : ∀ {ws : List StateVariable} {c : Cursor}
    {qs : List Placement}, vs.map (·.type) <+: ws.map (·.type) →
      placeVariables structs c ws = .ok qs →
      ∃ ps, placeVariables structs c vs = .ok ps ∧ ps.map (·.place) <+: qs.map (·.place) := by
  induction vs with
  | nil => intro ws c qs _ _; exact ⟨[], rfl, _, rfl⟩
  | cons v vs ih =>
    intro ws c qs hfront h
    cases ws with
    | nil => exact absurd (List.prefix_nil.1 hfront) (List.cons_ne_nil _ _)
    | cons w ws =>
      obtain ⟨htype, hfront⟩ := List.cons_prefix_cons.1 hfront
      have htype : v.type = w.type := htype
      obtain ⟨t, rest, ht, hrest, rfl⟩ := placeVariables_cons.1 h
      obtain ⟨ps, hps, hplaces⟩ := ih hfront hrest
      exact ⟨_, placeVariables_cons.2 ⟨t, ps, htype ▸ ht, hps, rfl⟩,
        List.cons_prefix_cons.2 ⟨rfl, hplaces⟩⟩

end Placing

/-! ## Contracts that come first -/

/-- The bases of a contract, most basic first, and the contract itself. -/
def Contract.linearization (c : Contract) : List String := c.bases ++ [c.name]

/-- The storage variables of a contract, and the placements that they get one by one. -/
structure Model.Places (m : Model) (contract : String) (vs : List StateVariable)
    (ps : List Placement) : Prop where
  storageVariables : m.storageVariables contract = .ok vs
  placements : m.placements contract = .ok ps
  isOf : List.Forall₂ (Placement.IsOf m.structs) ps vs

namespace Model

variable {m m' : Model} {name : String} {c : Contract}

theorem exists_places {ps : List Placement} (h : m.placements name = .ok ps) :
    ∃ vs, m.Places name vs ps := by
  have hall := h
  unfold placements at h
  split at h
  · exact nomatch h
  · next vs hvs => exact ⟨vs, hvs, hall, placeVariables_isOf h⟩

/-- Where the variables of one contract come first among those of another, they are placed alike. -/
theorem Places.of_front {m' : Model} (hstructs : m'.structs = m.structs) {d : String}
    {vs ws : List StateVariable} {qs : List Placement} (hq : m'.Places d ws qs)
    (hvs : m.storageVariables name = .ok vs) (htypes : vs.map (·.type) <+: ws.map (·.type)) :
    ∃ ps, m.Places name vs ps ∧ ps.map (·.place) <+: qs.map (·.place) := by
  have hqs := hq.placements
  simp only [Model.placements, hq.storageVariables, hstructs] at hqs
  obtain ⟨ps, hps, hplaces⟩ := placeVariables_front htypes hqs
  have hall : m.placements name = .ok ps := by simp only [Model.placements, hvs, hps]
  exact ⟨ps, ⟨hvs, hall, placeVariables_isOf hps⟩, hplaces⟩

/-- The contracts that some names are found to stand for. -/
def Finds (m : Model) (names : List String) (cs : List Contract) : Prop :=
  List.Forall₂ (fun name c => m.contract name = .ok c) names cs

theorem Finds.of_append {names more : List String} {cs : List Contract}
    (h : m.Finds (names ++ more) cs) : ∃ first rest, m.Finds names first ∧ m.Finds more rest ∧
      cs = first ++ rest :=
  ⟨_, _, (List.forall₂_take_append cs names more h.flip).flip,
    (List.forall₂_drop_append cs names more h.flip).flip, (List.take_append_drop _ _).symm⟩

theorem Finds.eq_of_singleton {cs : List Contract} (h : m.Finds [name] cs)
    (hc : m.contract name = .ok c) : cs = [c] := by
  obtain ⟨c', rest, hc', hrest, rfl⟩ := List.forall₂_cons_left_iff.1 h
  obtain rfl := Except.ok.inj (hc.symm.trans hc')
  rw [List.forall₂_nil_left_iff.1 hrest]

theorem exists_of_baseVariables {self : String} {names : List String} (hself : self ∉ names) :
    ∀ {vs : List StateVariable}, m.baseVariables self names = .ok vs →
      ∃ bases, m.Finds names bases ∧ vs = variablesOf bases := by
  induction names with
  | nil =>
    intro vs h
    obtain rfl := Except.ok.inj h
    exact ⟨[], .nil, rfl⟩
  | cons base names ih =>
    intro vs h
    obtain ⟨hne, hrest⟩ := not_or.1 fun h => hself (List.mem_cons.2 h)
    rw [baseVariables, if_neg fun heq => hne heq.symm] at h
    split at h
    · cases h
    · next b hb =>
      split at h
      · cases h
      · next ws hws =>
        obtain rfl := Except.ok.inj h
        obtain ⟨bases, hbases, rfl⟩ := ih hrest hws
        exact ⟨b :: bases, .cons hb hbases, rfl⟩

theorem variablesOf_append (cs more : List Contract) :
    variablesOf (cs ++ more) = variablesOf cs ++ variablesOf more := List.flatMap_append

/-- **The variables of a contract are those of its linearization**, in its order. -/
theorem storageVariables_eq_ok_iff (hc : m.contract name = .ok c) (hnames : c.linearization.Nodup)
    {vs : List StateVariable} : m.storageVariables name = .ok vs ↔
      ∃ cs, m.Finds c.linearization cs ∧ vs = variablesOf cs := by
  obtain rfl := name_of_contract hc
  have hself : c.name ∉ c.bases := fun hmem =>
    (List.nodup_append.1 hnames).2.2 _ hmem _ (List.mem_singleton_self _) rfl
  have hlast : variablesOf [c] = c.storageVariables := List.flatMap_singleton ..
  simp only [storageVariables, hc]
  constructor
  · intro h
    split at h
    · cases h
    · next vs hvs =>
      obtain rfl := Except.ok.inj h
      obtain ⟨bases, hbases, rfl⟩ := exists_of_baseVariables hself hvs
      refine ⟨bases ++ [c], List.rel_append hbases (.cons hc .nil), ?_⟩
      rw [variablesOf_append, hlast]
  · rintro ⟨cs, hcs, rfl⟩
    obtain ⟨bases, last, hbases, hfound, rfl⟩ := hcs.of_append
    rw [hfound.eq_of_singleton hc, variablesOf_append, hlast, baseVariables_eq hbases hself]

/-- **What comes first in a linearization is laid out first.** -/
theorem placements_front {d : String} {e : Contract} (hc : m.contract name = .ok c)
    (hd : m.contract d = .ok e) (hnames : e.linearization.Nodup)
    (hfront : c.linearization <+: e.linearization) {qs : List Placement}
    (hqs : m.placements d = .ok qs) : ∃ vs ps ws, m.Places name vs ps ∧ m.Places d ws qs ∧
      vs <+: ws ∧ ps.map (·.place) <+: qs.map (·.place) := by
  obtain ⟨ws, hq⟩ := exists_places hqs
  obtain ⟨cs, hcs, rfl⟩ := (storageVariables_eq_ok_iff hd hnames).1 hq.storageVariables
  have hbaseNames := hnames.sublist hfront.sublist
  obtain ⟨more, hmore⟩ := hfront
  rw [← hmore] at hcs
  obtain ⟨first, rest, hfirst, -, rfl⟩ := hcs.of_append
  have hvs : m.storageVariables name = .ok (variablesOf first) :=
    (storageVariables_eq_ok_iff hc hbaseNames).2 ⟨first, hfirst, rfl⟩
  have hfront : variablesOf first <+: variablesOf (first ++ rest) := by
    rw [variablesOf_append]
    exact List.prefix_append _ _
  obtain ⟨ps, hps, hplaces⟩ := hq.of_front rfl hvs (hfront.map _)
  exact ⟨_, ps, _, hps, hq, hfront, hplaces⟩

end Model

/-! ## Contracts that are added to -/

/-- What is declared, without its position among the declarations. -/
def StateVariable.unnumbered (v : StateVariable) : StateVariable := { v with index := 0 }

/-- Declarations among which constants and immutables have been put anywhere. -/
inductive WithConstants : List StateVariable → List StateVariable → Prop
  | nil : WithConstants [] []
  | kept {v w : StateVariable} {vs ws : List StateVariable} (h : w.unnumbered = v.unnumbered) :
      WithConstants vs ws → WithConstants (v :: vs) (w :: ws)
  | added {w : StateVariable} {vs ws : List StateVariable} (h : ¬w.occupiesStorage) :
      WithConstants vs ws → WithConstants vs (w :: ws)

theorem WithConstants.refl : ∀ vs : List StateVariable, WithConstants vs vs
  | [] => .nil
  | _ :: vs => .kept rfl (refl vs)

/-- What takes room in storage is what it was. -/
theorem WithConstants.storage_eq {vs ws : List StateVariable} (h : WithConstants vs ws) :
    (ws.filter (·.occupiesStorage)).map (·.unnumbered) =
      (vs.filter (·.occupiesStorage)).map (·.unnumbered) := by
  induction h with
  | nil => rfl
  | @kept v w vs ws heq _ ih =>
    have hstorage : w.unnumbered.occupiesStorage = v.unnumbered.occupiesStorage := by rw [heq]
    have hstorage : w.occupiesStorage = v.occupiesStorage := hstorage
    by_cases hv : v.occupiesStorage
    · rw [List.filter_cons_of_pos hv, List.filter_cons_of_pos (hstorage.trans hv), List.map_cons,
        List.map_cons, heq, ih]
    · rw [List.filter_cons_of_neg hv, List.filter_cons_of_neg (hstorage ▸ hv), ih]
  | added hw _ ih => rw [List.filter_cons_of_neg hw, ih]

/-- A contract as it may be declared anew: with constants and immutables put anywhere, and, if it is
the one of the given `name`, with any variables behind the others. -/
structure Contract.Upgrade (name : String) (c c' : Contract) : Prop where
  name_eq : c'.name = c.name
  bases_eq : c'.bases = c.bases
  declared : ∃ kept added, c'.declared = kept ++ added ∧ WithConstants c.declared kept ∧
    (c.name ≠ name → added = [])

/-- A model with the contract of the given name upgraded, and constants and immutables put anywhere
in other contracts. -/
structure Model.Upgrade (name : String) (m m' : Model) : Prop where
  structs_eq : m'.structs = m.structs
  contracts : List.Forall₂ (Contract.Upgrade name) m.contracts m'.contracts

namespace Contract.Upgrade

variable {name : String} {c c' : Contract}

theorem refl (name : String) (c : Contract) : Contract.Upgrade name c c where
  name_eq := rfl
  bases_eq := rfl
  declared := ⟨c.declared, [], (List.append_nil _).symm, .refl _, fun _ => rfl⟩

variable (h : Contract.Upgrade name c c')

include h

theorem storage_front :
    c.storageVariables.map (·.unnumbered) <+: c'.storageVariables.map (·.unnumbered) := by
  obtain ⟨kept, added, hdeclared, hkept, -⟩ := h.declared
  rw [storageVariables, storageVariables, hdeclared, List.filter_append, List.map_append,
    hkept.storage_eq]
  exact List.prefix_append _ _

theorem storage_eq (hne : c.name ≠ name) :
    c'.storageVariables.map (·.unnumbered) = c.storageVariables.map (·.unnumbered) := by
  obtain ⟨kept, added, hdeclared, hkept, hadded⟩ := h.declared
  rw [storageVariables, storageVariables, hdeclared, hadded hne, List.append_nil, hkept.storage_eq]

end Contract.Upgrade

namespace Model.Upgrade

variable {name : String} {m m' : Model} (h : Model.Upgrade name m m')

include h

theorem exists_contract {n : String} {c' : Contract} (hc' : m'.contract n = .ok c') :
    ∃ c, m.contract n = .ok c ∧ Contract.Upgrade name c c' := by
  have hfind : ∀ {cs cs' : List Contract}, List.Forall₂ (Contract.Upgrade name) cs cs' →
      cs'.find? (·.name == n) = some c' →
      ∃ c, cs.find? (·.name == n) = some c ∧ Contract.Upgrade name c c' := by
    intro cs cs' hall
    induction hall with
    | nil => exact nofun
    | @cons c d' cs cs' hd _ ih =>
      intro hfound
      rw [List.find?_cons] at hfound ⊢
      rw [hd.name_eq] at hfound
      split at hfound
      · obtain rfl := Option.some.inj hfound
        exact ⟨c, rfl, hd⟩
      · exact ih hfound
  unfold contract at hc'
  split at hc'
  · next hfound =>
    obtain rfl := Except.ok.inj hc'
    obtain ⟨c, hc, hup⟩ := hfind h.contracts hfound
    exact ⟨c, by simp only [contract, hc], hup⟩
  · exact nomatch hc'

/-- Bases keep the variables that take room. -/
theorem exists_baseVariables {bases : List String} : ∀ {ws : List StateVariable},
    m'.baseVariables name bases = .ok ws →
      ∃ vs, m.baseVariables name bases = .ok vs ∧
        ws.map (·.unnumbered) = vs.map (·.unnumbered) := by
  induction bases with
  | nil =>
    intro ws hws
    obtain rfl := Except.ok.inj hws
    exact ⟨[], rfl, rfl⟩
  | cons base bases ih =>
    intro ws hws
    rw [baseVariables] at hws ⊢
    by_cases hself : base = name
    · rw [if_pos hself] at hws ⊢
      exact ih hws
    rw [if_neg hself] at hws ⊢
    split at hws
    · cases hws
    · next c' hc' =>
      split at hws
      · cases hws
      · next rest hrest =>
        obtain rfl := Except.ok.inj hws
        obtain ⟨c, hc, hup⟩ := h.exists_contract hc'
        obtain ⟨vs, hvs, heq⟩ := ih hrest
        rw [← name_of_contract hc] at hself
        refine ⟨_, by simp only [hc, hvs]; rfl, ?_⟩
        rw [List.map_append, List.map_append, hup.storage_eq hself, heq]

/-- **The variables that take room come first again.** -/
theorem exists_storageVariables {ws : List StateVariable}
    (hws : m'.storageVariables name = .ok ws) :
    ∃ vs, m.storageVariables name = .ok vs ∧
      vs.map (·.unnumbered) <+: ws.map (·.unnumbered) := by
  unfold storageVariables at hws ⊢
  split at hws
  · exact nomatch hws
  · next c' hc' =>
    split at hws
    · exact nomatch hws
    · next bases hbases =>
      obtain rfl := Except.ok.inj hws
      obtain ⟨c, hc, hup⟩ := h.exists_contract hc'
      rw [hup.bases_eq] at hbases
      obtain ⟨vs, hvs, heq⟩ := h.exists_baseVariables hbases
      refine ⟨_, by simp only [hc, hvs]; rfl, ?_⟩
      rw [List.map_append, List.map_append, heq]
      exact (List.prefix_append_right_inj _).2 hup.storage_front

/-- **An upgrade moves nothing.** -/
theorem placements_front {qs : List Placement} (hqs : m'.placements name = .ok qs) :
    ∃ vs ps ws, m.Places name vs ps ∧ m'.Places name ws qs ∧
      vs.map (·.unnumbered) <+: ws.map (·.unnumbered) ∧ ps.map (·.place) <+: qs.map (·.place) := by
  obtain ⟨ws, hq⟩ := exists_places hqs
  obtain ⟨vs, hvs, hfront⟩ := h.exists_storageVariables hq.storageVariables
  have htypes : vs.map (·.type) <+: ws.map (·.type) := by
    have hmap := hfront.map StateVariable.type
    rwa [List.map_map, List.map_map] at hmap
  obtain ⟨ps, hps, hplaces⟩ := hq.of_front h.structs_eq hvs htypes
  exact ⟨vs, ps, ws, hps, hq, hfront, hplaces⟩

end Model.Upgrade

/-- **Existing storage stays where it is.** If the linearization of a contract begins with that of
another, with no name twice, then so do its variables, with their types and places; and a contract
that is upgraded keeps what its variables are declared as, their types and their places. -/
theorem placements_stay (m : Model) :
    (∀ {c d : String} {base heir : Contract}, m.contract c = .ok base → m.contract d = .ok heir →
      heir.linearization.Nodup → base.linearization <+: heir.linearization →
      ∀ {qs : List Placement}, m.placements d = .ok qs →
        ∃ vs ps ws, m.Places c vs ps ∧ m.Places d ws qs ∧
          vs <+: ws ∧ ps.map (·.place) <+: qs.map (·.place)) ∧
    (∀ {name : String} {m' : Model}, Model.Upgrade name m m' →
      ∀ {qs : List Placement}, m'.placements name = .ok qs →
        ∃ vs ps ws, m.Places name vs ps ∧ m'.Places name ws qs ∧
          vs.map (·.unnumbered) <+: ws.map (·.unnumbered) ∧
          ps.map (·.place) <+: qs.map (·.place)) :=
  ⟨fun hc hd hnames hfront _ hqs => Model.placements_front hc hd hnames hfront hqs,
    fun h _ hqs => h.placements_front hqs⟩

namespace Sample

def tokenBase : Contract := ⟨"A", [⟨"owner", "A", 0, .address, false, false⟩], []⟩

def token : Contract := ⟨"B", [⟨"open", "B", 0, .bool, false, false⟩], ["A"]⟩

def tokenHeir : Contract := ⟨"C", [⟨"open", "C", 0, .uint 64, false, false⟩], ["A", "B"]⟩

/-- The base with a constant in front of its variable. -/
def tokenBase' : Contract :=
  ⟨"A", [⟨"FEE", "A", 0, .uint 256, true, false⟩, ⟨"owner", "A", 1, .address, false, false⟩], []⟩

/-- The contract with a variable behind its own. -/
def token' : Contract :=
  ⟨"B", [⟨"open", "B", 0, .bool, false, false⟩, ⟨"cap", "B", 1, .uint 64, false, false⟩], ["A"]⟩

def tokens : Model := ⟨[tokenBase, token, tokenHeir], []⟩

def tokens' : Model := ⟨[tokenBase', token', tokenHeir], []⟩

theorem tokenBase_upgrade : Contract.Upgrade "B" tokenBase tokenBase' where
  name_eq := rfl
  bases_eq := rfl
  declared := ⟨tokenBase'.declared, [], rfl, .added (by decide) (.kept rfl .nil), fun _ => rfl⟩

theorem token_upgrade : Contract.Upgrade "B" token token' where
  name_eq := rfl
  bases_eq := rfl
  declared := ⟨token.declared, _, rfl, .refl _, nofun⟩

theorem tokens_upgrade : Model.Upgrade "B" tokens tokens' where
  structs_eq := rfl
  contracts := .cons tokenBase_upgrade (.cons token_upgrade (.cons (.refl _ _) .nil))

end Sample

/-- In the heir the variable of the base has another name, and the slot goes on filling. -/
theorem placements_stay_tokens :
    Sample.tokens.contract "B" = .ok Sample.token ∧
    Sample.tokens.contract "C" = .ok Sample.tokenHeir ∧
    Sample.tokenHeir.linearization.Nodup ∧
    Sample.token.linearization <+: Sample.tokenHeir.linearization ∧
    Model.Upgrade "B" Sample.tokens Sample.tokens' ∧
    (∃ qs, Sample.tokens.placements "C" = .ok qs ∧
      qs.map (·.location) = [⟨0, 0⟩, ⟨0, 20⟩, ⟨0, 21⟩] ∧
      ∃ ps, Sample.tokens.placements "B" = .ok ps ∧ ps.map (·.place) <+: qs.map (·.place)) ∧
    ∃ qs, Sample.tokens'.placements "B" = .ok qs ∧
      qs.map (·.location) = [⟨0, 0⟩, ⟨0, 20⟩, ⟨0, 21⟩] ∧
      ∃ ps, Sample.tokens.placements "B" = .ok ps ∧ ps.map (·.place) <+: qs.map (·.place) := by
  have hnames : Sample.tokenHeir.linearization.Nodup := by decide
  have hfront : Sample.token.linearization <+: Sample.tokenHeir.linearization := by decide
  obtain ⟨hheir, hupgrade⟩ := placements_stay Sample.tokens
  refine ⟨rfl, rfl, hnames, hfront, Sample.tokens_upgrade, ⟨_, rfl, by decide, ?_⟩, _, rfl,
    by decide, ?_⟩
  · obtain ⟨_, ps, _, hps, -, -, hplaces⟩ := hheir (c := "B") (d := "C") rfl rfl hnames hfront rfl
    exact ⟨ps, hps.placements, hplaces⟩
  · obtain ⟨_, ps, _, hps, -, -, hplaces⟩ := hupgrade Sample.tokens_upgrade rfl
    exact ⟨ps, hps.placements, hplaces⟩

end StorageAtlas
