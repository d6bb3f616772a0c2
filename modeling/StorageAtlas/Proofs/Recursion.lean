import StorageAtlas.Proofs.GrammarReading

/-!
# Documents with structs inside themselves

A document in which all types can be read is refused exactly if one of its structs comes back to
itself without a mapping or dynamic array in between (`Model.parse_iff_cyclic`). What can be read is
narrower than what the source language allows (`Model.parse_refuses`): lengths have 64 bits and are
written in decimal digits, and one blank stands between the words of `address payable`.
-/

namespace StorageAtlas

open Text TypeExpr Relation

namespace ModelText

variable {raw : ModelText}

theorem lookup_structs {n : String} {fields : List (String × TypeExpr)} :
    raw.declarations.structs.lookup n = some fields ↔ ∃ texts, raw.structs.lookup n = some texts ∧
      texts.map (fun f => (f.1, TypeExpr.ofText f.2.toList)) = fields := by
  simp only [declarations, SortedMap.lookup_map (fun fs : List (String × String) =>
    fs.map fun f => (f.1, TypeExpr.ofText f.2.toList)), Option.map_eq_some_iff]

namespace WellTyped

variable (h : raw.WellTyped .plain)

include h

theorem resolvable : raw.Resolvable := by
  refine ⟨⟨?_, ?_⟩, ?_⟩
  · intro n fields hn
    obtain ⟨texts, hl, rfl⟩ := lookup_structs.1 hn
    have hmem := SortedMap.mem_of_lookup hl
    refine ⟨fun hnil => h.members _ hmem (List.map_eq_nil_iff.1 hnil), fun f hf => ?_⟩
    obtain ⟨text, htext, rfl⟩ := List.mem_map.1 hf
    obtain ⟨held, hheld⟩ := h.fields _ hmem _ htext
    exact (hheld.reads h.names).resolvable
  · intro n e hn
    simp only [declarations, SortedMap.lookup_map fun text : String => TypeExpr.ofText text.toList,
      Option.map_eq_some_iff] at hn
    obtain ⟨text, hl, rfl⟩ := hn
    obtain ⟨cs, hcs, hpad⟩ := h.valueTypes _ (SortedMap.mem_of_lookup hl)
    obtain ⟨a, hleaf, -⟩ := hcs.leafText
    exact ⟨a, by rw [ofText_congr hpad.trim_eq, hleaf.ofText_eq]⟩
  · intro c hc v hv
    obtain ⟨held, hheld⟩ := h.declared c hc v hv
    exact (hheld.reads h.names).resolvable

/-- What a struct contains is what its fields are found to hold. -/
theorem contains_iff {outer inner : String} :
    raw.Contains .plain outer inner ↔ raw.declarations.Contains outer inner := by
  constructor
  · rintro ⟨texts, hl, f, hf, htext⟩
    refine ⟨_, lookup_structs.2 ⟨texts, hl, rfl⟩, _, List.mem_map_of_mem hf, ?_⟩
    exact (htext.reads h.names).held
  · rintro ⟨fields, hn, f, hf, hheld⟩
    obtain ⟨texts, hl, rfl⟩ := lookup_structs.1 hn
    obtain ⟨text, htext, rfl⟩ := List.mem_map.1 hf
    obtain ⟨held, hread⟩ := h.fields _ (SortedMap.mem_of_lookup hl) _ htext
    obtain rfl : held = some inner := (hread.reads h.names).held.symm.trans hheld
    exact ⟨texts, hl, text, htext, hread⟩

theorem cyclic_iff : raw.Cyclic .plain ↔ raw.declarations.Cyclic := by
  have heq : raw.Contains .plain = raw.declarations.Contains := by
    ext outer inner
    exact h.contains_iff
  rw [Cyclic, Declarations.Cyclic, heq]

end WellTyped

end ModelText

theorem Model.parse_eq {text : String} {raw : ModelText}
    (hread : (Json.parse text).bind ModelText.ofJson? = some raw) :
    Model.parse text = match raw.read with
      | .ok m => .ok m
      | .error fault => .error (.invalidModel fault) := by
  obtain ⟨j, hj, hraw⟩ := Option.bind_eq_some_iff.1 hread
  cases hr : raw.read with
  | ok m => simp only [Model.parse, hj, Model.ofJson, hraw, hr]
  | error fault => simp only [Model.parse, hj, Model.ofJson, hraw, hr]

/-- **A document whose types can be read is refused exactly if a struct comes back to itself in
place**, and is accepted if none does. -/
theorem Model.parse_iff_cyclic {text : String} {raw : ModelText}
    (hread : (Json.parse text).bind ModelText.ofJson? = some raw) (h : raw.WellTyped .plain) :
    ((∃ fault n, Model.parse text = .error (.invalidModel fault) ∧
        fault.reason = .containsItself n) ↔ raw.Cyclic .plain) ∧
      (¬raw.Cyclic .plain → ∃ m, Model.parse text = .ok m) := by
  obtain ⟨hiff, hok⟩ := h.resolvable.read_iff
  rw [h.cyclic_iff, ← hiff, Model.parse_eq hread]
  constructor
  · cases raw.read with
    | error fault => simp
    | ok m => simp
  · intro hnot
    rw [hiff] at hnot
    obtain ⟨m, hm⟩ := hok hnot
    exact ⟨m, by rw [hm]⟩

/-! ## Documents -/

namespace Sample

/-- Two structs that lie in one another. -/
def loopText : String :=
  r#"{"contracts":[],
    "structs":{"A":[{"name":"b","type":"B[2]"}],"B":[{"name":"a","type":"struct A"}]}}"#

def loop : ModelText where
  contracts := []
  structs := [("A", [("b", "B[2]")]), ("B", [("a", "struct A")])]
  enums := []
  valueTypes := []

/-- A struct that holds further ones of its kind behind a dynamic array. -/
def treeText : String :=
  r#"{"contracts":[{"name":"T","variables":[{"name":"x","type":"mapping(Id id => S)"}]}],
    "structs":{"S":[{"name":"kids","type":"S[]"}]},"value_types":{"Id":"uint8"}}"#

def tree : ModelText where
  contracts := [⟨"T", [], [⟨"x", "mapping(Id id => S)", false, false⟩]⟩]
  structs := [("S", [("kids", "S[]")])]
  enums := []
  valueTypes := [("Id", "uint8")]

section

variable {raw : ModelText} {lex : Lexicon}

theorem elementaryText_uint8 : ElementaryText lex "uint8".toList := .spelled (e := .uint 8) rfl

theorem plain_length (n : Nat) (hn : n < UInt64.size) : Lexicon.plain.length (digits 10 n) :=
  ⟨n, hn, [], [], isBlankText_nil, isBlankText_nil, (List.append_nil _).symm⟩

end

theorem loop_wellTyped : loop.WellTyped .plain := by
  have harray : TypeText loop .plain false
      ("B".toList ++ '[' :: (digits 10 2 ++ [']'])) (some "B") :=
    .fixedArray (plain_length 2 (by decide)) (.structName (by decide))
  have hstruct : TypeText loop .plain false ("struct".toList ++ ([' '] ++ "A".toList)) (some "A") :=
    .struct (by decide) ⟨[], rfl, isBlankText_nil, fun _ => List.not_mem_nil⟩
  refine ⟨by decide +kernel, by decide, ?_, nofun, nofun⟩
  simp only [loop, List.forall_mem_cons]
  exact ⟨⟨⟨_, harray⟩, nofun⟩, ⟨⟨_, hstruct⟩, nofun⟩, nofun⟩

theorem loop_cyclic : loop.Cyclic .plain := by
  rw [loop_wellTyped.cyclic_iff]
  have hnext : loop.declarations.Contains "A" "B" :=
    ⟨[("b", ofText "B[2]".toList)], rfl, _, List.mem_singleton_self _, by decide +kernel⟩
  have hback : loop.declarations.Contains "B" "A" :=
    ⟨[("a", ofText "struct A".toList)], rfl, _, List.mem_singleton_self _, by decide +kernel⟩
  exact ⟨"A", .tail (.single hnext) hback⟩

theorem tree_wellTyped : tree.WellTyped .plain := by
  have hkey : TypeText tree .plain false "Id".toList none := .name (by decide) (by decide)
  have hname {unnamed : Bool} : TypeText tree .plain unnamed "S".toList (some "S") :=
    .structName (by decide)
  have hkids : TypeText tree .plain false ("S".toList ++ '[' :: ([] ++ [']'])) none :=
    .dynamicArray isBlankText_nil hname
  have hid : ParameterText .plain " id ".toList :=
    .inr ⟨[' '], "id".toList, [' '], rfl, by decide, by decide, by decide, rfl⟩
  have hvalue : TypeText tree .plain true " S".toList (some "S") :=
    .padded ⟨[' '], [], by decide, by decide, rfl⟩ hname
  have hmapping : TypeText tree .plain false
      (mappingText [] ("Id".toList ++ " id ".toList) (" S".toList ++ [])) none :=
    .mapping isBlankText_nil hkey hid hvalue (.inl rfl)
  refine ⟨by decide +kernel, by decide, ?_, ?_, ?_⟩
  · simp only [tree, List.forall_mem_cons]
    exact ⟨⟨⟨_, hkids⟩, nofun⟩, nofun⟩
  · simp only [tree, List.forall_mem_cons]
    exact ⟨⟨⟨_, hmapping⟩, nofun⟩, nofun⟩
  · refine List.forall_mem_singleton.2 ⟨_, elementaryText_uint8, [], [], ?_, ?_, rfl⟩
    · exact isBlankText_nil
    · exact isBlankText_nil

theorem tree_not_cyclic : ¬tree.Cyclic .plain := by
  rw [tree_wellTyped.cyclic_iff]
  rintro ⟨n, hto⟩
  obtain ⟨inner, ⟨fields, hl, f, hf, hheld⟩, -⟩ := TransGen.head'_iff.1 hto
  obtain ⟨rfl, rfl⟩ : n = "S" ∧ fields = [("kids", ofText "S[]".toList)] := by
    have hmem := SortedMap.mem_of_lookup hl
    simpa [tree, ModelText.declarations] using hmem
  obtain rfl := List.mem_singleton.1 hf
  have hnone : (ofText "S[]".toList).held? tree.declarations = none := by decide +kernel
  rw [hnone] at hheld
  cases hheld

end Sample

/-- The first document is refused, the second is accepted. -/
theorem Model.parse_iff_cyclic_samples :
    (∃ fault n, Model.parse Sample.loopText = .error (.invalidModel fault) ∧
      fault.reason = .containsItself n) ∧ ∃ m, Model.parse Sample.treeText = .ok m := by
  have hloop : (Json.parse Sample.loopText).bind ModelText.ofJson? = some Sample.loop := by
    decide +kernel
  have htree : (Json.parse Sample.treeText).bind ModelText.ofJson? = some Sample.tree := by
    decide +kernel
  exact ⟨(parse_iff_cyclic hloop Sample.loop_wellTyped).1.2 Sample.loop_cyclic,
    (parse_iff_cyclic htree Sample.tree_wellTyped).2 Sample.tree_not_cyclic⟩

/-! ## Documents that are not read -/

namespace Sample

/-- A document with one variable. -/
def oneVariable (type : String) : ModelText where
  contracts := [⟨"A", [], [⟨"x", type, false, false⟩]⟩]
  structs := []
  enums := []
  valueTypes := []

/-- An array of more elements than a length of 64 bits can tell. -/
def longText : String :=
  r#"{"contracts":[{"name":"A","variables":[{"name":"x","type":"uint8[18446744073709551616]"}]}]}"#

/-- A length in hexadecimal digits. -/
def hexText : String :=
  r#"{"contracts":[{"name":"A","variables":[{"name":"x","type":"uint8[0x10]"}]}]}"#

/-- Two blanks between two words. -/
def spacedText : String :=
  r#"{"contracts":[{"name":"A","variables":[{"name":"x","type":"address  payable"}]}]}"#

/-- The types of the document are texts of the source language, it has no structs, and it is not
accepted. -/
def IsRefused (text : String) : Prop :=
  ∃ raw, (Json.parse text).bind ModelText.ofJson? = some raw ∧ raw.WellTyped .source ∧
    ¬raw.Cyclic .source ∧ ∀ m, Model.parse text ≠ .ok m

theorem oneVariable_wellTyped {type : String} {lex : Lexicon} {held : Option String}
    (h : TypeText (oneVariable type) lex false type.toList held) :
    (oneVariable type).WellTyped lex := by
  refine ⟨?_, nofun, nofun, ?_, nofun⟩
  · have hnames : (oneVariable type).typeNames = ["A"] := rfl
    rw [hnames]
    decide +kernel
  · simp only [oneVariable, List.forall_mem_cons]
    exact ⟨⟨⟨held, h⟩, nofun⟩, nofun⟩

theorem oneVariable_not_cyclic (type : String) (lex : Lexicon) :
    ¬(oneVariable type).Cyclic lex := by
  rintro ⟨n, hto⟩
  obtain ⟨inner, ⟨fields, hl, -⟩, -⟩ := TransGen.head'_iff.1 hto
  exact nomatch hl

theorem isRefused {text type : String} {held : Option String}
    (hread : (Json.parse text).bind ModelText.ofJson? = some (oneVariable type))
    (h : TypeText (oneVariable type) .source false type.toList held)
    (hnot : (oneVariable type).read.toOption = none) : IsRefused text := by
  refine ⟨_, hread, oneVariable_wellTyped h, oneVariable_not_cyclic type _, fun m hm => ?_⟩
  rw [Model.parse_eq hread] at hm
  split at hm
  · next hok =>
    rw [hok] at hnot
    exact nomatch hnot
  · exact nomatch hm

end Sample

/-- **Not every document without structs is accepted**, though its types are texts of the source
language. -/
theorem Model.parse_refuses :
    Sample.IsRefused Sample.longText ∧ Sample.IsRefused Sample.hexText ∧
      Sample.IsRefused Sample.spacedText := by
  refine ⟨?_, ?_, ?_⟩
  · have hlength : Lexicon.source.length "18446744073709551616".toList :=
      ⟨UInt64.size, by decide, .inl ⟨[], [], by decide, by decide, by decide⟩⟩
    have htype : TypeText (Sample.oneVariable "uint8[18446744073709551616]") .source false
        ("uint8".toList ++ '[' :: ("18446744073709551616".toList ++ [']'])) none :=
      .fixedArray hlength (.elementary Sample.elementaryText_uint8)
    exact Sample.isRefused (by decide +kernel) htype (by decide +kernel)
  · have hlength : Lexicon.source.length "0x10".toList :=
      ⟨16, by decide, .inr ⟨[], [], by decide, by decide, by decide⟩⟩
    have htype : TypeText (Sample.oneVariable "uint8[0x10]") .source false
        ("uint8".toList ++ '[' :: ("0x10".toList ++ [']'])) none :=
      .fixedArray hlength (.elementary Sample.elementaryText_uint8)
    exact Sample.isRefused (by decide +kernel) htype (by decide +kernel)
  · have hgap : Lexicon.source.gap [' ', ' '] := ⟨by decide, by decide⟩
    have htype : TypeText (Sample.oneVariable "address  payable") .source false
        ("address".toList ++ ([' ', ' '] ++ "payable".toList)) none := .elementary (.payable hgap)
    exact Sample.isRefused (by decide +kernel) htype (by decide +kernel)

end StorageAtlas
