import StorageAtlas.Proofs.PathReading
import StorageAtlas.Proofs.Retracing

/-!
# The names of variables

A variable that a later one hides is reported under the name of its contract, a dot and its own
name. Names are distinct if variables are (`nodup_names`). But a dot also stands in front of a
member: a query that spells the name of a hidden variable out asks for a member of a variable called
like the contract (`VariablePath.parse_text`). `query_reported`: by its name a variable is found as
a target, and by a query exactly if its name is one identifier.
-/

namespace StorageAtlas

/-! ## Queries for members -/

theorem not_isIdentifier_qualified (front back : String) :
    ¬isIdentifier (front ++ "." ++ back).toList := by
  intro h
  have hdot := AccessStep.isMark_of_isIdentifier h '.' (by simp)
  exact nomatch hdot

namespace VariablePath

def ofFields (base : String) (fields : List String) : VariablePath := ⟨base, fields.map .field⟩

/-- **A path to members is read back from its text.** -/
theorem parse_text {base : String} {fields : List String}
    (hfields : ∀ f ∈ fields, isIdentifier f.toList) (hbase : isIdentifier base.toList) :
    parse (ofFields base fields).text = .ok (ofFields base fields) := by
  have hcut : ∀ s ∈ (ofFields base fields).steps, s.IsCut := List.forall_mem_map.2 hfields
  have hreread : (fields.map AccessStep.field).mapM AccessStep.reread =
      .ok ((fields.map AccessStep.field).map id) :=
    mapM_eq_ok_map_iff.2 (List.forall_mem_map.2 fun _ _ => rfl)
  rw [parse_text_eq hbase hcut, ofFields, hreread, List.map_id]
  rfl

end VariablePath

/-! ## Names of placements -/

namespace StateVariable

variable {v u : StateVariable} {later : List StateVariable}

/-- A variable has its own name, unless a later one has it too. -/
theorem reportedName_cases (v : StateVariable) (later : List StateVariable) :
    (v.reportedName later = v.name ∧ ∀ u ∈ later, u.name ≠ v.name) ∨
      v.reportedName later = v.contract ++ "." ++ v.name := by
  unfold reportedName
  by_cases h : later.any (·.name == v.name)
  · exact .inr (if_pos h)
  · left
    refine ⟨if_neg h, fun u hu heq => h ?_⟩
    exact List.any_eq_true.2 ⟨u, hu, beq_iff_eq.2 heq⟩

theorem qualified_inj (hv : isIdentifier v.name.toList) (hu : isIdentifier u.name.toList)
    (h : v.contract ++ "." ++ v.name = u.contract ++ "." ++ u.name) :
    v.contract = u.contract ∧ v.name = u.name := by
  have hlist := congrArg String.toList h
  simp only [String.toList_append, List.append_assoc] at hlist
  have hblock {name : String} (h : isIdentifier name.toList) :
      IsBlock AccessStep.isMark (".".toList ++ name.toList) :=
    ⟨rfl, AccessStep.isMark_of_isIdentifier h⟩
  obtain ⟨hcontract, hname⟩ := block_append_inj (hblock hv) (hblock hu) hlist
  exact ⟨String.toList_inj.1 hcontract, String.toList_inj.1 (List.append_cancel_left hname)⟩

theorem reportedName_ne {behind : List StateVariable} (hv : isIdentifier v.name.toList)
    (hu : isIdentifier u.name.toList) (hne : (v.contract, v.name) ≠ (u.contract, u.name))
    (hmem : u ∈ later) : v.reportedName later ≠ u.reportedName behind := by
  intro h
  rcases v.reportedName_cases later with ⟨hown, hlast⟩ | hqualified
  · rcases u.reportedName_cases behind with ⟨huown, -⟩ | huqualified
    · exact hlast u hmem (by rw [← huown, ← h, hown])
    · rw [hown, huqualified] at h
      rw [h] at hv
      exact not_isIdentifier_qualified _ _ hv
  · rcases u.reportedName_cases behind with ⟨huown, -⟩ | huqualified
    · rw [hqualified, huown] at h
      rw [← h] at hu
      exact not_isIdentifier_qualified _ _ hu
    · rw [hqualified, huqualified] at h
      obtain ⟨hcontract, hname⟩ := qualified_inj hv hu h
      exact hne (Prod.ext hcontract hname)

end StateVariable

section Placing

variable {structs : StructTable}

/-- Every placement is that of a variable, named in view of those behind it. -/
theorem placeVariables_names {vs : List StateVariable} : ∀ {c : Cursor} {ps : List Placement},
    placeVariables structs c vs = .ok ps → ∀ p ∈ ps, ∃ v ∈ vs, ∃ later,
      p.name = v.reportedName later ∧ p.declarer = v.contract := by
  induction vs with
  | nil =>
    intro c ps h
    obtain rfl := Except.ok.inj h
    exact nofun
  | cons v vs ih =>
    intro c ps h
    obtain ⟨t, rest, -, hrest, rfl⟩ := placeVariables_cons.1 h
    refine List.forall_mem_cons.2 ⟨⟨v, List.mem_cons_self, vs, rfl, rfl⟩, fun p hp => ?_⟩
    obtain ⟨u, hu, later, hname, hcontract⟩ := ih hrest p hp
    exact ⟨u, List.mem_cons_of_mem _ hu, later, hname, hcontract⟩

/-- **No two variables are reported under one name.** -/
theorem nodup_names {vs : List StateVariable} : ∀ {c : Cursor} {ps : List Placement},
    placeVariables structs c vs = .ok ps → (∀ v ∈ vs, isIdentifier v.name.toList) →
      (vs.map fun v => (v.contract, v.name)).Nodup → (ps.map (·.name)).Nodup := by
  induction vs with
  | nil =>
    intro c ps h _ _
    obtain rfl := Except.ok.inj h
    exact List.nodup_nil
  | cons v vs ih =>
    intro c ps h hnames hvs
    obtain ⟨hv, hnames⟩ := List.forall_mem_cons.1 hnames
    obtain ⟨hnew, hvs⟩ := List.nodup_cons.1 hvs
    obtain ⟨t, rest, -, hrest, rfl⟩ := placeVariables_cons.1 h
    refine List.nodup_cons.2 ⟨fun hmem => ?_, ih hrest hnames hvs⟩
    obtain ⟨p, hp, heq⟩ := List.mem_map.1 hmem
    obtain ⟨u, hu, later, hname, -⟩ := placeVariables_names hrest p hp
    refine StateVariable.reportedName_ne hv (hnames u hu) (fun hsame => ?_) hu
      (heq.symm.trans hname)
    exact hnew (List.mem_map.2 ⟨u, hu, hsame.symm⟩)

end Placing

namespace Model

variable {m : Model}

/-- Contracts and variables have identifiers for names. -/
def HasIdentifiers (m : Model) : Prop :=
  ∀ c ∈ m.contracts, isIdentifier c.name.toList ∧ ∀ v ∈ c.declared, isIdentifier v.name.toList

/-- A placement has the name of its variable, or that of its contract in front of it. -/
theorem placements_names (howned : ∀ c ∈ m.contracts, ∀ v ∈ c.declared, v.contract = c.name)
    (hnames : m.HasIdentifiers) {contract : String} {ps : List Placement}
    (hps : m.placements contract = .ok ps) {p : Placement} (hp : p ∈ ps) :
    isIdentifier p.declarer.toList ∧ ∃ name, isIdentifier name.toList ∧
      (p.name = name ∨ p.name = p.declarer ++ "." ++ name) := by
  unfold placements at hps
  split at hps
  · exact nomatch hps
  · next vs hvs =>
    obtain ⟨v, hv, later, hname, hdeclarer⟩ := placeVariables_names hps p hp
    obtain ⟨c, hc, hdecl⟩ := mem_storageVariables hvs v hv
    obtain ⟨hcname, hvname⟩ := hnames c hc
    rw [hdeclarer, hname]
    refine ⟨by rw [howned c hc v hdecl]; exact hcname, v.name, hvname v hdecl, ?_⟩
    exact (v.reportedName_cases later).imp_left And.left

end Model

/-! ## Asking for a variable -/

namespace Resolver

variable {r : Resolver} {contract : String} {ps : List Placement} {p : Placement}

theorem path_base {d : Declarations} (hd : d.Describes r.model)
    (hps : r.model.placements contract = .ok ps) (hdistinct : (ps.map (·.name)).Nodup)
    (hp : p ∈ ps) : r.path contract ⟨p.name, []⟩ =
      LayoutStore.insertListing {} (r.listing contract p.declarer p.node) := by
  obtain ⟨e, -, hset⟩ := Model.placements_read hd hps p hp
  have hfound : ps.find? (·.name == p.name) = some p := find?_of_nodup hdistinct hp
  have hderive : derive p.location p.type [] r.config.maxDepth r.model.structs =
      .ok ⟨p.location, p.type, []⟩ := by
    rw [derive, materialize_of_settled _ hset, List.take_nil]
    rfl
  have hcut : isTruncated [] r.config.maxDepth = false := rfl
  unfold path
  simp only [hps, hfound, hderive, hcut]
  rfl

theorem query_fields (r : Resolver) (contract : String) {base : String} {fields : List String}
    (hbase : isIdentifier base.toList) (hfields : ∀ f ∈ fields, isIdentifier f.toList) :
    r.query contract (VariablePath.ofFields base fields).text =
      r.path contract (.ofFields base fields) := by
  rw [query, VariablePath.parse_text hfields hbase]

end Resolver

/-- **By its name a variable is found as a target, and by a query if its name is an identifier.**
Where names are distinct and the variable can be listed, the target of its name is the listing,
which begins with a record of the name, contract, place and type of the variable. A query for the
name of a hidden variable asks for a member of a variable called like the contract; if there is none
it finds nothing. -/
theorem query_reported {text : String} {m : Model} (hm : Model.parse text = .ok m)
    (hnames : m.HasIdentifiers) (config : ResolverConfig) {contract : String} {ps : List Placement}
    (hps : m.placements contract = .ok ps) (hdistinct : (ps.map (·.name)).Nodup) {p : Placement}
    (hp : p ∈ ps) {emitted : LayoutStore} (hemitted : LayoutStore.insertListing {}
      ((Resolver.mk m config).listing contract p.declarer p.node) = .ok emitted) :
    (Resolver.mk m config).target contract { base := p.name } = .ok emitted ∧
    (∃ first, emitted.records.head? = some first ∧ first.path.text = p.name ∧
      first.declaredIn = p.declarer ∧ first.location = p.location ∧ first.type = p.type) ∧
    (isIdentifier p.name.toList → (Resolver.mk m config).query contract p.name = .ok emitted) ∧
    (¬isIdentifier p.name.toList → ∃ name, p.name = p.declarer ++ "." ++ name ∧
      (Resolver.mk m config).query contract p.name =
        (Resolver.mk m config).path contract ⟨p.declarer, [.field name]⟩ ∧
      ((∀ q ∈ ps, q.name ≠ p.declarer) → (Resolver.mk m config).query contract p.name =
        .error (.variableNotFound contract p.declarer))) := by
  obtain ⟨d, hd⟩ := Model.parse_describes hm
  obtain ⟨hdeclarer, name, hname, hcases⟩ :=
    Model.placements_names (Model.parse_owned hm) hnames hps hp
  have hpath : (Resolver.mk m config).path contract ⟨p.name, []⟩ = .ok emitted :=
    (@Resolver.path_base ⟨m, config⟩ _ _ _ _ hd hps hdistinct hp).trans hemitted
  refine ⟨hpath, ?_, fun hplain => ?_, fun hqualified => ?_⟩
  · obtain ⟨e, -, hset⟩ := Model.placements_read hd hps p hp
    obtain ⟨status, rest, hhead⟩ := @Listing.ofNode_head m.structs config contract p.declarer
      (config.maxDepth - p.node.path.depth) config.maxArrayElements p.node p.node
      (Node.settles_of_settled hset)
    exact ⟨_, LayoutStore.head?_insertListing hhead hemitted, rfl, rfl, rfl, rfl⟩
  · have htext : (VariablePath.ofFields p.name []).text = p.name := rfl
    have hquery := Resolver.query_fields ⟨m, config⟩ contract hplain (List.forall_mem_nil _)
    rw [htext] at hquery
    exact hquery.trans hpath
  · have hspelled : p.name = p.declarer ++ "." ++ name := by
      refine hcases.resolve_left fun hown => hqualified ?_
      rw [hown]
      exact hname
    have hquery : (Resolver.mk m config).query contract p.name =
        (Resolver.mk m config).path contract ⟨p.declarer, [.field name]⟩ := by
      have htext : (VariablePath.ofFields p.declarer [name]).text = p.declarer ++ ("." ++ name) :=
        rfl
      have hfields := Resolver.query_fields ⟨m, config⟩ contract hdeclarer
        (List.forall_mem_singleton.2 hname)
      rw [htext, ← String.append_assoc, ← hspelled] at hfields
      exact hfields
    refine ⟨name, hspelled, hquery, fun hnone => ?_⟩
    have hmissing : ps.find? (·.name == p.declarer) = none := by
      refine List.find?_eq_none.2 fun q hq hsame => hnone q hq ?_
      exact eq_of_beq hsame
    rw [hquery]
    unfold Resolver.path
    simp only [hps, hmissing]

namespace Sample

/-- A document with two contracts that hide a variable of their base. One of them has a variable
called like the base, with a member called like the hidden variable. -/
def hidingText : String :=
  r#"{"contracts":[{"name":"A","variables":[{"name":"x","type":"uint256"}]},
    {"name":"B","bases":["A"],"variables":[{"name":"x","type":"uint256"}]},
    {"name":"C","bases":["A"],"variables":[{"name":"A","type":"S"},{"name":"x","type":"uint256"}]}],
    "structs":{"S":[{"name":"x","type":"uint256"}]}}"#

def hiddenBase : Contract := ⟨"A", [⟨"x", "A", 0, .uint 256, false, false⟩], []⟩

def hidingContract : Contract := ⟨"B", [⟨"x", "B", 0, .uint 256, false, false⟩], ["A"]⟩

def hidingMembers : List Member := [("x", .uint 256)]

def clashingContract : Contract :=
  ⟨"C", [⟨"A", "C", 0, .struct "S" hidingMembers, false, false⟩,
    ⟨"x", "C", 1, .uint 256, false, false⟩], ["A"]⟩

def hidingModel : Model :=
  ⟨[hiddenBase, hidingContract, clashingContract], [("S", hidingMembers)]⟩

theorem parse_hidingText : Model.parse hidingText = .ok hidingModel :=
  eq_ok_of_any_beq (by decide +kernel)

def hiddenX : Placement := ⟨"A.x", "A", .uint 256, ⟨0, 0⟩⟩

def ownX : Placement := ⟨"x", "B", .uint 256, ⟨1, 0⟩⟩

end Sample

/-- The name of the hidden variable is that of no member. -/
theorem query_reported_hidden : Model.parse Sample.hidingText = .ok Sample.hidingModel ∧
    Sample.hidingModel.HasIdentifiers ∧
    Sample.hidingModel.placements "B" = .ok [Sample.hiddenX, Sample.ownX] ∧
    ([Sample.hiddenX, Sample.ownX].map (·.name)).Nodup ∧ ∃ emitted,
      LayoutStore.insertListing {} ((Resolver.mk Sample.hidingModel {}).listing "B" "A"
        Sample.hiddenX.node) = .ok emitted ∧
      (Resolver.mk Sample.hidingModel {}).target "B" { base := "A.x" } = .ok emitted ∧
      (Resolver.mk Sample.hidingModel {}).query "B" "A.x" =
        .error (.variableNotFound "B" "A") := by
  have hnames : Sample.hidingModel.HasIdentifiers := by
    unfold Model.HasIdentifiers
    decide
  have hps : Sample.hidingModel.placements "B" = .ok [Sample.hiddenX, Sample.ownX] := rfl
  have hdistinct : ([Sample.hiddenX, Sample.ownX].map (·.name)).Nodup := by decide
  obtain ⟨emitted, hemitted⟩ : ∃ emitted, LayoutStore.insertListing {}
      ((Resolver.mk Sample.hidingModel {}).listing "B" "A" Sample.hiddenX.node) = .ok emitted :=
    ⟨_, rfl⟩
  obtain ⟨htarget, -, -, hquery⟩ := query_reported Sample.parse_hidingText hnames {} hps hdistinct
    List.mem_cons_self hemitted
  obtain ⟨name, -, -, hmissing⟩ := hquery (by decide)
  exact ⟨Sample.parse_hidingText, hnames, hps, hdistinct, emitted, hemitted, htarget,
    hmissing (by decide)⟩

end StorageAtlas
