import StorageAtlas.Proofs.Grammar

/-!
# Texts of the grammar are read

For decimal lengths of 64 bits and plain blanks every text of the grammar is read, and is found to
hold the struct that the grammar says (`TypeText.reads`).

A part of a mapping is cut more freely than the grammar allows for, so that not every text is read
as what it is. What is lost there is harmless: nothing in a mapping lies in place, and what is left
of a text can still be read (`TextReads.part`, `TextReads.mapping`).
-/

namespace StorageAtlas

open Text TypeExpr

/-! ## References to code -/

/-- White space behind a reference to code is cut off, and no more. -/
theorem trim_of_function {cs : List Char} (h : "function".toList <+: cs) :
    "function".toList <+: trim cs ∧ trim cs <+: cs := by
  have hstart : trimStart cs = cs := by
    obtain ⟨rest, rfl⟩ := h
    rfl
  obtain ⟨bs, hb, hcs⟩ := exists_trimEnd cs
  rw [trim, hstart]
  constructor
  · rw [hcs] at h
    exact prefix_of_append_blank h hb (by decide)
  · exact ⟨bs, hcs.symm⟩

theorem not_mapping_of_function {cs : List Char} (h : "function".toList <+: cs) :
    ¬"mapping".toList <+: cs := fun hm =>
  absurd (List.prefix_of_prefix_length_le hm h (by decide)) (by decide)

theorem ofWord_function {cs : List Char} (h : "function".toList <+: cs) :
    ∃ external, ofWord cs = .builtin (.function external) := by
  unfold ofWord
  rw [if_pos (List.isPrefixOf_iff_prefix.2 h)]
  exact ⟨_, rfl⟩

/-- **However a reference to code is cut off, it is read**, as a reference or an array of them. -/
theorem FunctionTail.reads_prefix {d : Declarations} {tail : List Char}
    (h : FunctionTail .plain false tail) : ∀ (size : Nat) {cs : List Char}, cs.length ≤ size →
      "function".toList <+: cs → cs <+: "function".toList ++ tail →
        (ofText cs).Resolvable d ∧ (ofText cs).held? d = none := by
  -- brackets at the end make an array of a shorter text, which is cut off itself
  intro size
  induction size with
  | zero =>
    intro cs hsize hword _
    exact absurd (Nat.le_trans hword.length_le hsize) (by decide)
  | succ size ih =>
    intro cs hsize hword hpre
    obtain ⟨hword', htrim⟩ := trim_of_function hword
    have hne : trim cs ≠ [] := fun hnil => by
      rw [hnil] at hword'
      exact absurd hword' (by decide)
    rw [← ofText_trim]
    by_cases hlast : (trim cs).getLast? = some ']'
    · -- the brackets are those of a parameter
      obtain ⟨front, hfront⟩ := List.getLast?_eq_some_iff.1 hlast
      rw [hfront] at hword'
      obtain ⟨rest, hrest⟩ := prefix_of_append_cons hword' (by decide)
      obtain ⟨after, hafter⟩ := htrim.trans hpre
      have htail : tail = rest ++ ']' :: after := by
        rw [hfront, ← hrest] at hafter
        simpa [List.append_assoc] using hafter.symm
      obtain ⟨begins, inside, rfl, hin⟩ := h.exists_open htail
      have hcut : trim cs = "function".toList ++ begins ++ '[' :: (inside ++ [']']) := by
        rw [hfront, ← hrest]
        simp
      have hshort : ("function".toList ++ begins).length ≤ size := by
        have hle := htrim.length_le
        rw [hcut, List.length_append] at hle
        simp only [List.length_cons] at hle
        omega
      have hagain : "function".toList ++ begins <+: "function".toList ++ tail :=
        ⟨'[' :: (inside ++ ']' :: after), by rw [htail]; simp⟩
      obtain ⟨hread, hheld⟩ := ih hshort (List.prefix_append _ _) hagain
      obtain ⟨hu, length?, hlength⟩ := exists_readLength hin
      rw [hcut, ofText_suffix hu, hlength]
      cases length? with
      | none => exact ⟨hread, rfl⟩
      | some length => exact ⟨hread, hheld⟩
    · obtain ⟨external, hexternal⟩ := ofWord_function hword'
      rw [ofText_word (isTight_trim hne) hlast (not_mapping_of_function hword'), hexternal]
      exact ⟨trivial, rfl⟩

/-! ## How texts are read -/

/-- What is known of a text that is a type: it is read, alone and as an unnamed part of a mapping,
and holds what it should. -/
structure TextReads (d : Declarations) (unnamed : Bool) (cs : List Char) (held : Option String) :
    Prop where
  starts : trim cs ≠ []
  passes : Passes cs
  resolvable : (ofText cs).Resolvable d
  held : (ofText cs).held? d = held
  part : unnamed → (ofText (dropParameterName cs)).Resolvable d
  /-- What begins as a mapping is one, with brackets behind it. -/
  mapping : "mapping".toList <+: trim cs → ∃ bs key value suffix,
    trim cs = mappingText bs key value ++ suffix ∧ ')' ∉ suffix ∧
      (ofText (mappingText bs key value)).Resolvable d
  noKind : trim cs ∉ kindWords

variable {d : Declarations}

theorem kindWords_unmarked : ∀ w ∈ kindWords, IsUnmarked w ∧ IsTight w := by
  have hall : ∀ w ∈ kindWords, IsWordText w := by decide
  exact fun w hw => ⟨(hall w hw).unmarked, (hall w hw).tight⟩

namespace TextReads

variable {unnamed : Bool} {cs : List Char} {held : Option String}

theorem padded {ds : List Char} (h : TextReads d unnamed cs held) (hp : Padded cs ds) :
    TextReads d unnamed ds held := by
  have htrim := hp.trim_eq
  constructor
  · rw [htrim]
    exact h.starts
  · exact hp.passes h.passes
  · rw [ofText_congr htrim]
    exact h.resolvable
  · rw [ofText_congr htrim]
    exact h.held
  · rw [dropParameterName_congr htrim]
    exact h.part
  · rw [htrim]
    exact h.mapping
  · rw [htrim]
    exact h.noKind

theorem of_leaf {e : TypeExpr} (h : LeafText cs e) (he : e.Resolvable d)
    (hdrop : unnamed → dropParameterName cs = cs) (hkind : cs ∉ kindWords) :
    TextReads d unnamed cs (e.held? d) := by
  have htrim := h.tight.trim_eq
  constructor
  · rw [htrim]
    exact h.tight.ne_nil
  · exact h.passes
  · rw [h.ofText_eq]
    exact he
  · rw [h.ofText_eq]
  · intro hun
    rw [hdrop hun, h.ofText_eq]
    exact he
  · rw [htrim]
    exact fun hm => absurd hm h.first
  · rw [htrim]
    exact hkind

theorem of_word {e : TypeExpr} (hw : IsWordText cs) (h : LeafText cs e) (he : e.Resolvable d)
    (hkind : cs ∉ kindWords) : TextReads d unnamed cs (e.held? d) :=
  .of_leaf h he (fun _ => dropParameterName_word hw.tight.trim_eq h.first hw) hkind

/-- A name behind the word that says what it names. -/
theorem of_kind {kind bs name : List Char} {e : TypeExpr} (hmem : kind ∈ kindWords)
    (hb : unnamed → ' ' ∉ bs) (hname : IsWordText name)
    (h : LeafText (kind ++ ' ' :: (bs ++ name)) e) (he : e.Resolvable d) :
    TextReads d unnamed (kind ++ ' ' :: (bs ++ name)) (e.held? d) := by
  refine .of_leaf h he (fun hun => ?_) fun hk => ?_
  · have hnot : ' ' ∉ bs ++ name := fun hmem =>
      (List.mem_append.1 hmem).elim (hb hun) hname.blank_not_mem
    exact dropParameterName_kind h.tight.trim_eq rfl hmem h.first h.last hnot
  · have hblank : ∀ w ∈ kindWords, ' ' ∉ w := by decide
    exact hblank _ hk (by simp)

/-- What is left of a part that begins as a mapping. -/
theorem part_of_mapping (h : TextReads d unnamed cs held) {part between : List Char}
    (hpart : trim part = trim cs ++ between) (hm : "mapping".toList <+: trim cs)
    (hclose : ')' ∉ between) : (ofText (dropParameterName part)).Resolvable d := by
  obtain ⟨bs, key, value, suffix, hcs, hsuffix, hread⟩ := h.mapping hm
  rw [hcs, List.append_assoc] at hpart
  have hnot : ')' ∉ suffix ++ between := by
    intro hmem
    cases List.mem_append.1 hmem with
    | inl hmem => exact hsuffix hmem
    | inr hmem => exact hclose hmem
  rw [dropParameterName_mappingText hpart hnot]
  exact hread

theorem suffix {unnamed' : Bool} (h : TextReads d unnamed' cs held) {inside : List Char}
    (hu : IsUnmarked inside) {length? : Option UInt64} (hlength : readLength inside = .ok length?) :
    TextReads d unnamed (cs ++ '[' :: (inside ++ [']'])) (length?.bind fun _ => held) := by
  obtain ⟨bs, hb, hstart⟩ := exists_trim cs
  have htrim : trim (cs ++ '[' :: (inside ++ [']'])) =
      trim cs ++ (bs ++ '[' :: (inside ++ [']'])) := by
    rw [trim_suffix, hstart, List.append_assoc]
  have hm (hm : "mapping".toList <+: trim (cs ++ '[' :: (inside ++ [']']))) :
      "mapping".toList <+: trim cs := by
    rw [htrim, ← List.append_assoc] at hm
    exact prefix_of_append_blank (prefix_of_append_cons hm (by decide)) hb (by decide)
  have hclose : ')' ∉ bs ++ '[' :: (inside ++ [']']) := by
    intro hmem
    cases List.mem_append.1 hmem with
    | inl hmem => exact (isUnmarked_of_blank hb _ hmem).2.1 rfl
    | inr hmem => exact hu.suffix_not_close hmem
  have hlast : (trim (cs ++ '[' :: (inside ++ [']']))).getLast? = some ']' := by
    rw [trim_suffix, ← List.cons_append, ← List.append_assoc, List.getLast?_concat]
  have hread : (ofText (cs ++ '[' :: (inside ++ [']']))).Resolvable d := by
    rw [ofText_suffix hu, hlength]
    cases length? <;> exact h.resolvable
  constructor
  · rw [htrim]
    simp
  · exact h.passes.suffix hu
  · exact hread
  · rw [ofText_suffix hu, hlength]
    cases length? with
    | none => rfl
    | some length => exact h.held
  · intro _
    by_cases hmap : "mapping".toList <+: trim (cs ++ '[' :: (inside ++ [']']))
    · exact h.part_of_mapping htrim (hm hmap) hclose
    · rw [dropParameterName_array rfl hmap hlast, ofText_trim]
      exact hread
  · intro hmap
    obtain ⟨bs', key, value, suffix, hcs, hsuffix, hread⟩ := h.mapping (hm hmap)
    refine ⟨bs', key, value, suffix ++ (bs ++ '[' :: (inside ++ [']'])), ?_, ?_, hread⟩
    · rw [htrim, hcs, List.append_assoc]
    · exact fun hmem => (List.mem_append.1 hmem).elim hsuffix hclose
  · intro hkind
    exact ((kindWords_unmarked _ hkind).1 ']' (List.mem_of_getLast? hlast)).2.2.2.1 rfl

/-- **A part of a mapping is read**, with or without the name of a parameter. -/
theorem parameter {name : List Char} (h : TextReads d name.isEmpty cs held)
    (hname : ParameterText .plain name) :
    Passes (cs ++ name) ∧ (ofText (dropParameterName (cs ++ name))).Resolvable d := by
  obtain rfl | ⟨gap, name, bs, rfl, hw, hpay, hb, rfl⟩ := hname
  · rw [List.append_nil]
    exact ⟨h.passes, h.part rfl⟩
  have hblank : IsBlankText [' '] := by decide
  refine ⟨h.passes.append ((Passes.of_blank hblank).append (hw.passes.append (.of_blank hb))), ?_⟩
  have hstarts : trimStart cs ≠ [] := fun hnil => h.starts (by rw [trim, hnil]; rfl)
  have htrim : trim (cs ++ ([' '] ++ (name ++ bs))) = trimStart cs ++ ' ' :: name := by
    obtain ⟨c, hl, hc⟩ := hw.tight.last
    have hlast : (' ' :: name).getLast? = some c := by
      rw [← List.singleton_append, List.getLast?_append, hl, Option.some_or]
    rw [← List.append_assoc, ← List.append_assoc, trim_append_right hb, List.append_assoc,
      List.singleton_append, trim_append_of_last hstarts hlast hc]
  by_cases hmap : "mapping".toList <+: trim (cs ++ ([' '] ++ (name ++ bs)))
  · obtain ⟨bs', hb', hstart⟩ := exists_trim cs
    rw [htrim] at hmap
    have hmap := prefix_of_append_cons hmap (by decide)
    rw [hstart] at hmap htrim
    rw [List.append_assoc] at htrim
    refine h.part_of_mapping htrim (prefix_of_append_blank hmap hb' (by decide)) fun hmem => ?_
    rcases List.mem_append.1 hmem with hmem | hmem
    · exact (isUnmarked_of_blank hb' _ hmem).2.1 rfl
    · rcases List.mem_cons.1 hmem with hc | hmem
      · exact absurd hc (by decide)
      · exact (hw.unmarked _ hmem).2.1 rfl
  · have hhead : trimStart cs ∉ kindWords := by
      intro hkind
      have heq := (kindWords_unmarked _ hkind).2.trim_eq
      rw [trim_trimStart] at heq
      exact h.noKind (heq ▸ hkind)
    rw [dropParameterName_name rfl htrim hhead hmap hw hpay, trim_trimStart, ofText_trim]
    exact h.resolvable

/-- A mapping of parts that are read. -/
theorem of_mapping {bs key value : List Char} (hb : IsBlankText bs)
    (hk : Passes key ∧ (ofText (dropParameterName key)).Resolvable d)
    (hv : Passes value ∧ (ofText (dropParameterName value)).Resolvable d) :
    TextReads d unnamed (mappingText bs key value) none := by
  have htrim : trim (mappingText bs key value) = mappingText bs key value ++ [] := by
    rw [(isTight_mappingText bs key value).trim_eq, List.append_nil]
  have hread : (ofText (mappingText bs key value)).Resolvable d := by
    rw [ofText_mappingText hb hk.1]
    exact ⟨hk.2, hv.2⟩
  constructor
  · rw [(isTight_mappingText bs key value).trim_eq]
    exact (isTight_mappingText bs key value).ne_nil
  · exact passes_mappingText hb hk.1 hv.1
  · exact hread
  · rw [ofText_mappingText hb hk.1]
    rfl
  · intro _
    rw [dropParameterName_mappingText htrim List.not_mem_nil]
    exact hread
  · exact fun _ => ⟨bs, key, value, [], htrim, List.not_mem_nil, hread⟩
  · rw [(isTight_mappingText bs key value).trim_eq]
    intro hkind
    have hlast := List.mem_of_getLast? (getLast?_mappingText bs key value)
    exact ((kindWords_unmarked _ hkind).1 ')' hlast).2.1 rfl

theorem of_function {tail : List Char} (h : FunctionTail .plain false tail) :
    TextReads d unnamed ("function".toList ++ tail) none := by
  have hreads {cs : List Char} (hword : "function".toList <+: cs)
      (hpre : cs <+: "function".toList ++ tail) :=
    h.reads_prefix (d := d) cs.length le_rfl hword hpre
  obtain ⟨hword, htrim⟩ := trim_of_function (List.prefix_append "function".toList tail)
  have hm := not_mapping_of_function hword
  obtain ⟨hread, hheld⟩ := hreads (List.prefix_append _ tail) (List.prefix_refl _)
  constructor
  · intro hnil
    rw [hnil] at hword
    exact absurd hword (by decide)
  · have hfunction : Passes "function".toList := IsWordText.passes (by decide)
    exact hfunction.append h.passes
  · exact hread
  · exact hheld
  · intro _
    unfold dropParameterName
    simp only
    rw [if_neg fun hp => hm (List.isPrefixOf_iff_prefix.1 hp)]
    have htext : (ofText (trim ("function".toList ++ tail))).Resolvable d := by
      rw [ofText_trim]
      exact hread
    split
    · exact htext
    · split
      · next head after hcut =>
        split
        · -- the word in front of the blank is still there
          have heq := eq_of_cutAtLast? hcut
          rw [heq] at hword htrim
          rw [ofText_trim]
          have hhead := prefix_of_append_cons hword (by decide)
          exact (hreads hhead ((List.prefix_append _ _).trans htrim)).1
        · exact htext
      · exact htext
  · exact fun hmap => absurd hmap hm
  · intro hkind
    have hnone : ∀ w ∈ kindWords, ¬"function".toList <+: w := by decide
    exact hnone _ hkind hword

end TextReads

/-! ## The grammar is read -/

/-- Elementary types are read, and are not cut as parts of mappings. -/
theorem ElementaryText.leafText {cs : List Char} (h : ElementaryText .plain cs) :
    ∃ a, LeafText cs (.builtin (.elementary a)) ∧ dropParameterName cs = cs ∧ cs ∉ kindWords := by
  have hword {word : String} {a : Elementary} (hw : IsWordText word.toList)
      (hl : LeafText word.toList (.builtin (.elementary a))) (hk : word.toList ∉ kindWords) :
      ∃ a, LeafText word.toList (.builtin (.elementary a)) ∧
        dropParameterName word.toList = word.toList ∧ word.toList ∉ kindWords :=
    ⟨a, hl, dropParameterName_word hw.tight.trim_eq hl.first hw, hk⟩
  cases h with
  | @spelled e he =>
    refine hword e.spelling_text (leafText_elementary he) fun hkind => ?_
    have hnone : ∀ w ∈ kindWords, builtin? w = none := by decide +kernel
    exact nomatch (Elementary.builtin?_spelling he).symm.trans (hnone _ hkind)
  | @short word hmem =>
    have hshort {word : String} {a : Elementary} (hw : IsWordText word.toList)
        (hm : ¬"mapping".toList <+: word.toList)
        (he : ofWord word.toList = .builtin (.elementary a)) (hk : word.toList ∉ kindWords) :=
      hword hw (hw.leafText hm he) hk
    rcases List.mem_cons.1 hmem with rfl | hmem
    · exact hshort (a := .uint 256) (by decide) (by decide) rfl (by decide)
    rcases List.mem_cons.1 hmem with rfl | hmem
    · exact hshort (a := .int 256) (by decide) (by decide) rfl (by decide)
    · obtain rfl := List.mem_singleton.1 hmem
      exact hshort (a := .fixedBytes 1) (by decide) (by decide) rfl (by decide)
  | payable hgap =>
    obtain rfl : _ = [' '] := hgap
    exact ⟨.address, leafText_kind (by decide) isBlankText_nil (by decide) (by decide) rfl,
      by decide, by decide⟩

/-- **Every text of the grammar is read**, and holds the struct that the grammar says. -/
theorem TypeText.reads {raw : ModelText} {unnamed : Bool} {cs : List Char} {held : Option String}
    (hnames : ∀ n ∈ raw.typeNames, IsTypeName n ∧ n.toList ∉ kindWords)
    (h : TypeText raw .plain unnamed cs held) : TextReads raw.declarations unnamed cs held := by
  have hstruct {n : String} (hn : n ∈ raw.structs.map (·.1)) :
      n ∈ raw.typeNames ∧ (raw.declarations.structs.lookup n).isSome := by
    rw [isSome_lookup_iff_keys, ModelText.structs_keys]
    exact ⟨ModelText.mem_typeNames.2 (.inl hn), hn⟩
  induction h with
  | elementary he =>
    obtain ⟨a, hleaf, hdrop, hkind⟩ := he.leafText
    exact .of_leaf hleaf trivial (fun _ => hdrop) hkind
  | bytes =>
    have hw : IsWordText "bytes".toList := by decide
    exact .of_word hw (e := .builtin .bytes) (hw.leafText (by decide) rfl) trivial (by decide)
  | string =>
    have hw : IsWordText "string".toList := by decide
    exact .of_word hw (e := .builtin .string) (hw.leafText (by decide) rfl) trivial (by decide)
  | function htail => exact .of_function htail
  | struct hn hgap =>
    obtain ⟨bs, rfl, hb, hsingle⟩ := hgap
    obtain ⟨hmem, hsome⟩ := hstruct hn
    have hproper := (hnames _ hmem).1
    exact .of_kind (by decide) hsingle hproper.text (leafText_struct hproper hb) hsome
  | enum hn hgap =>
    obtain ⟨bs, rfl, hb, hsingle⟩ := hgap
    have hproper := (hnames _ (ModelText.mem_typeNames.2 (.inr (.inl hn)))).1
    exact .of_kind (by decide) hsingle hproper.text (leafText_enum hproper hb) trivial
  | contract hn hword hgap =>
    obtain ⟨bs, rfl, hb, hsingle⟩ := hgap
    have hproper := (hnames _ (ModelText.mem_typeNames.2 (.inr (.inr (.inr hn))))).1
    rcases List.mem_cons.1 hword with rfl | hword
    · exact .of_kind (by decide) hsingle hproper.text (leafText_contract hproper hb) trivial
    · obtain rfl := List.mem_singleton.1 hword
      exact .of_kind (by decide) hsingle hproper.text (leafText_interface hproper hb) trivial
  | @structName unnamed n hn =>
    obtain ⟨hmem, hsome⟩ := hstruct hn
    obtain ⟨hproper, hkind⟩ := hnames _ hmem
    have hheld : (TypeExpr.name n).held? raw.declarations = some n := if_pos hsome
    rw [← hheld]
    exact .of_word hproper.text (leafText_name hproper) (.inl hsome) hkind
  | @name unnamed n hn hnot =>
    obtain ⟨hproper, hkind⟩ := hnames _ hn
    have hnone : ¬(raw.declarations.structs.lookup n).isSome := by
      rwa [isSome_lookup_iff_keys, ModelText.structs_keys]
    have hother : n ∈ raw.declarations.enums ∨ (raw.declarations.valueTypes.lookup n).isSome ∨
        n ∈ raw.declarations.contracts := by
      rw [isSome_lookup_iff_keys, ModelText.valueTypes_keys]
      exact (ModelText.mem_typeNames.1 hn).resolve_left hnot
    have hheld : (TypeExpr.name n).held? raw.declarations = none := if_neg hnone
    rw [← hheld]
    exact .of_word hproper.text (leafText_name hproper) (.inr hother) hkind
  | padded hp _ ih => exact ih.padded hp
  | fixedArray hlength _ ih =>
    obtain ⟨hu, length, hread⟩ := Lexicon.plain_length hlength
    exact ih.suffix hu hread
  | dynamicArray hb _ ih => exact ih.suffix (isUnmarked_of_blank hb) (readLength_blank hb)
  | mapping hb _ hkeyName _ hvalueName ihKey ihValue =>
    exact .of_mapping hb (ihKey.parameter hkeyName) (ihValue.parameter hvalueName)

end StorageAtlas
