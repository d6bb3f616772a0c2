import StorageAtlas.Model.Document
import StorageAtlas.Proofs.Expansion
import StorageAtlas.Proofs.SortedMaps

/-!
# What a loaded model guarantees

A model that was read from a document has a definition for every struct its types may name, and
its variables are spelled out where they lie in place (`Declarations.Describes`,
`Model.parse_describes`). The declarations are those of the document; a model that was put together
by hand need not have any.
-/

namespace StorageAtlas

/-- The model holds what the declarations say: all structs, and variables that read some text. -/
structure Declarations.Describes (d : Declarations) (m : Model) : Prop where
  structs : d.Defines m.structs
  spelledOut : ∀ {c v}, c ∈ m.contracts → v ∈ c.declared → v.type.SpelledOut
  reads : ∀ {c v}, c ∈ m.contracts → v ∈ c.declared → ∃ e, v.type.Reads d e

/-! ## Reading the document -/

theorem ModelText.declarations_wordsOnly (raw : ModelText) : raw.declarations.WordsOnly where
  fields {n fields} h f hf := by
    simp only [declarations, SortedMap.lookup_map (fun fs : List (String × String) =>
      fs.map fun f => (f.1, TypeExpr.ofText f.2.toList))] at h
    obtain ⟨texts, -, rfl⟩ := Option.map_eq_some_iff.1 h
    obtain ⟨text, -, rfl⟩ := List.mem_map.1 hf
    exact TypeExpr.ofText_wordsOnly _
  valueTypes {n e} h := by
    simp only [declarations,
      SortedMap.lookup_map fun text : String => TypeExpr.ofText text.toList] at h
    obtain ⟨text, -, rfl⟩ := Option.map_eq_some_iff.1 h
    exact TypeExpr.ofText_wordsOnly _

theorem readType_reads {d : Declarations} (hd : d.WordsOnly) {text : String} {t : Ty}
    (h : d.readType text = .ok t) : t.SpelledOut ∧ ∃ e, t.Reads d e :=
  have hw := TypeExpr.ofText_wordsOnly text.toList
  ⟨resolveWith_spelledOut (lookUp_spelledOut hd) hw rfl h,
    _, resolveWith_reads (lookUp_reads hd) hw h⟩

/-- The definition of a struct reads its fields. -/
theorem readStruct_reads {d : Declarations} (hd : d.WordsOnly) {n n' : String} {ms : List Member}
    (h : d.readStruct n = .ok (.struct n' ms)) :
    n' = n ∧ MembersSpelledOut ms ∧
      ∃ fields, d.structs.lookup n = some fields ∧ MembersRead d ms fields := by
  obtain ⟨hn, hfields⟩ := lookUp_reads hd _ _ _ h
  obtain rfl : n = n' := TypeExpr.structName.inj hn
  exact ⟨rfl, lookUp_spelledOut hd _ _ _ rfl h, hfields⟩

/-- The table of one more struct. -/
theorem readStructs_cons {d : Declarations} {name : String} {names : List String}
    {table : StructTable} (h : ModelText.readStructs d (name :: names) = .ok table) :
    ∃ n members rest, d.readStruct name = .ok (.struct n members) ∧
      ModelText.readStructs d names = .ok rest ∧ table = (name, members) :: rest := by
  unfold ModelText.readStructs at h
  split at h
  · exact nomatch h
  · next n members hm =>
    split at h
    · exact nomatch h
    · next rest hrest => exact ⟨n, members, rest, hm, hrest, (Except.ok.inj h).symm⟩
  · exact nomatch h

/-- The table has entries for the names it was read for, and no others. -/
theorem keys_of_readStructs {d : Declarations} {names : List String} {table : StructTable}
    (h : ModelText.readStructs d names = .ok table) : table.map Prod.fst = names := by
  induction names generalizing table with
  | nil => obtain rfl := Except.ok.inj h; rfl
  | cons name names ih =>
    obtain ⟨n, members, rest, -, hrest, rfl⟩ := readStructs_cons h
    rw [List.map_cons, ih hrest]

/-- The table has an entry for every name it was read for. -/
theorem readStructs_lookup {d : Declarations} (hd : d.WordsOnly) {names : List String}
    {structs : StructTable} (h : ModelText.readStructs d names = .ok structs) {n : String}
    (hn : n ∈ names) : ∃ ms, structs.lookup n = some ms ∧ d.readStruct n = .ok (.struct n ms) := by
  induction names generalizing structs with
  | nil => exact absurd hn List.not_mem_nil
  | cons name names ih =>
    obtain ⟨n', members, table, hm, htable, rfl⟩ := readStructs_cons h
    obtain ⟨rfl, -⟩ := readStruct_reads hd hm
    by_cases hne : n = n'
    · subst hne
      exact ⟨members, List.lookup_cons_self, hm⟩
    · obtain ⟨ms, hms, hr⟩ := ih htable ((List.mem_cons.1 hn).resolve_left hne)
      have hb : (n == n') = false := by simpa using hne
      exact ⟨ms, by rw [List.lookup_cons, hb]; exact hms, hr⟩

theorem readStructs_defines {d : Declarations} (hd : d.WordsOnly) {structs : StructTable}
    (h : ModelText.readStructs d (d.structs.map Prod.fst) = .ok structs) : d.Defines structs where
  definition {n fields} hf := by
    obtain ⟨ms, hms, hr⟩ := readStructs_lookup hd h (SortedMap.mem_keys_of_lookup hf)
    obtain ⟨-, hsp, fields', hf', hread⟩ := readStruct_reads hd hr
    obtain rfl := Option.some.inj (hf.symm.trans hf')
    exact ⟨ms, hms, hread, hsp⟩

theorem readVariables_mem {d : Declarations} {contract : String} {index : Nat}
    {texts : List VariableText} {vs : List StateVariable}
    (h : ModelText.readVariables d contract index texts = .ok vs) {v : StateVariable}
    (hv : v ∈ vs) : ∃ text, d.readType text = .ok v.type := by
  induction texts generalizing index vs with
  | nil => obtain rfl := Except.ok.inj h; exact absurd hv List.not_mem_nil
  | cons t texts ih =>
    unfold ModelText.readVariables at h
    split at h
    · exact nomatch h
    · next u hu =>
      split at h
      · exact nomatch h
      · next us hus =>
        obtain rfl := Except.ok.inj h
        rcases List.mem_cons.1 hv with rfl | hv
        · exact ⟨t.type, hu⟩
        · exact ih hus hv

theorem readContracts_mem {d : Declarations} {texts : List ContractText} {cs : List Contract}
    (h : ModelText.readContracts d texts = .ok cs) {c : Contract} (hc : c ∈ cs)
    {v : StateVariable} (hv : v ∈ c.declared) : ∃ text, d.readType text = .ok v.type := by
  induction texts generalizing cs with
  | nil => obtain rfl := Except.ok.inj h; exact absurd hc List.not_mem_nil
  | cons t texts ih =>
    unfold ModelText.readContracts at h
    split at h
    · exact nomatch h
    · next vs hvs =>
      split at h
      · exact nomatch h
      · next cs' hcs =>
        obtain rfl := Except.ok.inj h
        rcases List.mem_cons.1 hc with rfl | hc
        · exact readVariables_mem hvs hv
        · exact ih hcs hc

/-- A document describes the model that is read from it. -/
theorem ModelText.read_describes {raw : ModelText} {m : Model} (h : raw.read = .ok m) :
    raw.declarations.Describes m := by
  have hd := raw.declarations_wordsOnly
  simp only [ModelText.read] at h
  split at h
  · exact nomatch h
  · next structs hs =>
    split at h
    · exact nomatch h
    · next contracts hc =>
      obtain rfl := Except.ok.inj h
      have hnames : raw.structs.map (·.1) = raw.declarations.structs.map Prod.fst := by
        simp only [declarations, List.map_map]
        rfl
      rw [hnames] at hs
      refine ⟨readStructs_defines hd hs, ?_, ?_⟩
      · intro c v hcm hv
        obtain ⟨text, ht⟩ := readContracts_mem hc hcm hv
        exact (readType_reads hd ht).1
      · intro c v hcm hv
        obtain ⟨text, ht⟩ := readContracts_mem hc hcm hv
        exact (readType_reads hd ht).2

/-- A model that was parsed was read from a document. -/
theorem Model.exists_read_of_parse {text : String} {m : Model} (h : Model.parse text = .ok m) :
    ∃ raw : ModelText, raw.read = .ok m := by
  unfold Model.parse at h
  split at h
  · exact nomatch h
  · unfold Model.ofJson at h
    split at h
    · exact nomatch h
    · next raw _ =>
      split at h
      · next hm =>
        obtain rfl := Except.ok.inj h
        exact ⟨raw, hm⟩
      · exact nomatch h

/-- **Some declarations describe every model that was parsed.** -/
theorem Model.parse_describes {text : String} {m : Model} (h : Model.parse text = .ok m) :
    ∃ d : Declarations, d.Describes m := by
  obtain ⟨raw, hm⟩ := Model.exists_read_of_parse h
  exact ⟨raw.declarations, raw.read_describes hm⟩

theorem readVariables_contract {d : Declarations} {contract : String}
    {texts : List VariableText} : ∀ {index : Nat} {vs : List StateVariable},
      ModelText.readVariables d contract index texts = .ok vs →
        ∀ v ∈ vs, v.contract = contract := by
  induction texts with
  | nil =>
    intro index vs h
    obtain rfl := Except.ok.inj h
    exact nofun
  | cons t texts ih =>
    intro index vs h
    unfold ModelText.readVariables at h
    split at h
    · exact nomatch h
    · split at h
      · exact nomatch h
      · next us hus =>
        obtain rfl := Except.ok.inj h
        exact List.forall_mem_cons.2 ⟨rfl, ih hus⟩

theorem readContracts_owned {d : Declarations} {texts : List ContractText} :
    ∀ {cs : List Contract}, ModelText.readContracts d texts = .ok cs →
      ∀ c ∈ cs, ∀ v ∈ c.declared, v.contract = c.name := by
  induction texts with
  | nil =>
    intro cs h
    obtain rfl := Except.ok.inj h
    exact nofun
  | cons t texts ih =>
    intro cs h
    unfold ModelText.readContracts at h
    split at h
    · exact nomatch h
    · next vs hvs =>
      split at h
      · exact nomatch h
      · next cs' hcs =>
        obtain rfl := Except.ok.inj h
        exact List.forall_mem_cons.2 ⟨readVariables_contract hvs, ih hcs⟩

/-- **Variables know the contract that declares them.** -/
theorem Model.parse_owned {text : String} {m : Model} (h : Model.parse text = .ok m) :
    ∀ c ∈ m.contracts, ∀ v ∈ c.declared, v.contract = c.name := by
  obtain ⟨raw, hm⟩ := Model.exists_read_of_parse h
  simp only [ModelText.read] at hm
  split at hm
  · exact nomatch hm
  · split at hm
    · exact nomatch hm
    · next hcontracts =>
      obtain rfl := Except.ok.inj hm
      exact readContracts_owned hcontracts

/-! ## A document -/

theorem eq_ok_of_toOption {ε α : Type} {x : Except ε α} {a : α} (h : x.toOption = some a) :
    x = .ok a := by
  cases x with
  | error e => cases h
  | ok b => rw [Option.some.inj h]

/-- What a check finds of a result is true of a value. -/
theorem exists_ok_of_any {ε α : Type} {x : Except ε α} {p : α → Bool} (h : x.toOption.any p) :
    ∃ a, x = .ok a ∧ p a := by
  cases x with
  | error e => exact nomatch h
  | ok a => exact ⟨a, rfl, h⟩

theorem eq_ok_of_any_beq {ε α : Type} [BEq α] [LawfulBEq α] {x : Except ε α} {a : α}
    (h : x.toOption.any (· == a)) : x = .ok a := by
  obtain ⟨b, hb, heq⟩ := exists_ok_of_any h
  rw [hb, eq_of_beq heq]

namespace Sample

/-- A document with an array of structs that hold further ones of their kind. -/
def text : String :=
  r#"{"contracts":[{"name":"A","variables":[{"name":"s","type":"S[2]"}]}],
    "structs":{"S":[{"name":"a","type":"uint8"},{"name":"kids","type":"S[]"}]}}"#

/-- The members of `S`, as they are in the variable and in the table. -/
def members : List Member := [("a", .uint 8), ("kids", .dynamicArray (.structRef "S"))]

def array : StateVariable := ⟨"s", "A", 0, .fixedArray (.struct "S" members) 2, false, false⟩

def contract : Contract := ⟨"A", [array], []⟩

def model : Model := ⟨[contract], [("S", members)]⟩

theorem parse_text : Model.parse text = .ok model :=
  eq_ok_of_any_beq (by decide +kernel)

end Sample

end StorageAtlas
