import StorageAtlas.Proofs.Cutting
import StorageAtlas.Proofs.Decimal

/-!
# The texts that types are written as

How each kind of text is cut: words and names (`LeafText`), texts with brackets behind them
(`ofText_suffix`), mappings (`ofText_mappingText`), and what is left of a part of a mapping when the
name of a parameter is dropped (`dropParameterName_word` and those that follow).

Names may be any words that do not look like the beginning of a built-in type (`IsTypeName`).
-/

namespace StorageAtlas

open Text TypeExpr

/-! ## Names -/

/-- The words that built-in types and mappings begin with. -/
def keywords : List (List Char) :=
  ["uint", "int", "address", "bool", "byte", "string", "mapping", "function"].map String.toList

/-- Characters that neither end a word nor mark arrays or mappings. -/
def isNameChar (c : Char) : Bool :=
  !isBlank c && c != '(' && c != ')' && c != '[' && c != ']' && c != '='

/-- A word that can name a type, and cannot be taken for a built-in one. -/
structure IsTypeName (n : String) : Prop where
  ne_nil : n.toList ≠ []
  chars : ∀ c ∈ n.toList, isNameChar c
  own : ∀ w ∈ keywords, ¬w <+: n.toList

instance (n : String) : Decidable (IsTypeName n) :=
  decidable_of_iff (n.toList ≠ [] ∧ n.toList.all isNameChar ∧ ∀ w ∈ keywords, ¬w <+: n.toList)
    ⟨fun h => ⟨h.1, List.all_eq_true.1 h.2.1, h.2.2⟩,
      fun h => ⟨h.ne_nil, List.all_eq_true.2 h.chars, h.own⟩⟩

theorem isNameChar_iff {c : Char} : isNameChar c ↔
    isBlank c = false ∧ c ≠ '(' ∧ c ≠ ')' ∧ c ≠ '[' ∧ c ≠ ']' ∧ c ≠ '=' := by
  simp only [isNameChar, Bool.and_eq_true, bne_iff_ne, Bool.not_eq_true', and_assoc]

theorem isNameChar_of_isDigit {c : Char} (h : c.isDigit) : isNameChar c := by
  have hdigits : ∀ d : Fin 10, isNameChar d.val.digitChar := by decide
  obtain ⟨d, hlt, -, rfl⟩ := exists_digitChar h
  exact hdigits ⟨d, hlt⟩

/-- What a text of such characters has in common with every other. -/
structure IsWordText (cs : List Char) : Prop where
  ne_nil : cs ≠ []
  chars : ∀ c ∈ cs, isNameChar c

instance (cs : List Char) : Decidable (IsWordText cs) :=
  decidable_of_iff (cs ≠ [] ∧ cs.all isNameChar)
    ⟨fun h => ⟨h.1, List.all_eq_true.1 h.2⟩, fun h => ⟨h.ne_nil, List.all_eq_true.2 h.chars⟩⟩

namespace IsWordText

variable {cs : List Char} (h : IsWordText cs)

include h

theorem tight : IsTight cs :=
  .of_forall h.ne_nil fun c hc => (isNameChar_iff.1 (h.chars c hc)).1

theorem unmarked : IsUnmarked cs := fun c hc => (isNameChar_iff.1 (h.chars c hc)).2

theorem passes : Passes cs := .of_unmarked h.unmarked

theorem getLast?_ne : cs.getLast? ≠ some ']' := fun hl =>
  (isNameChar_iff.1 (h.chars _ (List.mem_of_getLast? hl))).2.2.2.2.1 rfl

theorem getLast?_append_ne (front : List Char) : (front ++ cs).getLast? ≠ some ']' := by
  rw [List.getLast?_append_of_ne_nil _ h.ne_nil]
  exact h.getLast?_ne

theorem blank_not_mem : ' ' ∉ cs := fun hb =>
  absurd (isNameChar_iff.1 (h.chars _ hb)).1 (by decide)

end IsWordText

theorem IsTypeName.text {n : String} (h : IsTypeName n) : IsWordText n.toList := ⟨h.ne_nil, h.chars⟩

/-! ## Types without parts -/

/-- Integers of whole bytes and byte strings that fit in a word. -/
def Elementary.Legal : Elementary → Prop
  | .uint bits | .int bits => isIntegerWidth bits.toNat
  | .fixedBytes width => 1 ≤ width.toNat ∧ width.toNat ≤ 32
  | .address | .bool => True

theorem Elementary.spelling_text (e : Elementary) : IsWordText e.spelling.toList := by
  have hword {word : String} (h : IsWordText word.toList) (n : Nat) :
      IsWordText (word ++ decimal n).toList := by
    rw [String.toList_append, decimal, String.toList_ofList]
    refine ⟨List.append_ne_nil_of_left_ne_nil h.ne_nil _, List.forall_mem_append.2 ⟨h.chars, ?_⟩⟩
    exact fun c hc => isNameChar_of_isDigit (isDigit_of_mem_digits hc)
  cases e with
  | uint bits => exact hword (by decide) _
  | int bits => exact hword (by decide) _
  | fixedBytes width => exact hword (by decide) _
  | address => decide
  | bool => decide

theorem exists_width {bits : Nat} (h : isIntegerWidth bits) :
    ∃ k : Fin 32, bits = 8 * (k.val + 1) := by
  simp only [isIntegerWidth, Bool.and_eq_true, decide_eq_true_eq, beq_iff_eq] at h
  exact ⟨⟨bits / 8 - 1, by omega⟩, by simp only; omega⟩

/-- **The widths of built-in types are read back.** -/
theorem Elementary.builtin?_spelling {e : Elementary} (he : e.Legal) :
    builtin? e.spelling.toList = some (.elementary e) := by
  have huint : ∀ k : Fin 32, builtin? (uint (UInt16.ofNat (8 * (k.val + 1)))).spelling.toList =
      some (.uint (UInt16.ofNat (8 * (k.val + 1)))) := by decide +kernel
  have hint : ∀ k : Fin 32, builtin? (int (UInt16.ofNat (8 * (k.val + 1)))).spelling.toList =
      some (.int (UInt16.ofNat (8 * (k.val + 1)))) := by decide +kernel
  have hbytes : ∀ k : Fin 32, builtin? (fixedBytes (UInt8.ofNat (k.val + 1))).spelling.toList =
      some (.fixedBytes (UInt8.ofNat (k.val + 1))) := by decide +kernel
  cases e with
  | uint bits =>
    obtain ⟨k, hk⟩ := exists_width he
    have h := huint k
    rwa [← hk, UInt16.ofNat_toNat] at h
  | int bits =>
    obtain ⟨k, hk⟩ := exists_width he
    have h := hint k
    rwa [← hk, UInt16.ofNat_toNat] at h
  | fixedBytes width =>
    obtain ⟨hpos, hle⟩ := he
    have h := hbytes ⟨width.toNat - 1, by omega⟩
    simp only [Nat.sub_add_cancel hpos, UInt8.ofNat_toNat] at h
    exact h
  | address => decide +kernel
  | bool => decide +kernel

theorem builtin?_eq_none {cs : List Char} (h : ∀ w ∈ keywords, ¬w <+: cs) : builtin? cs = none := by
  have hne {word : String} {w : List Char} (hw : w ∈ keywords) (hp : w <+: word.toList) :
      String.ofList cs ≠ word := by
    rintro rfl
    exact h w hw (by rwa [String.toList_ofList] at hp)
  have hwidth {w : List Char} (limit : Nat) (hw : ¬w <+: cs) :
      ((w.isPrefixOf? cs).bind fun rest => (readInteger 10 limit rest).toOption) = none := by
    rw [isPrefixOf?_eq_none hw]
    rfl
  have huint : ¬"uint".toList <+: cs := h _ (by decide)
  have hint : ¬"int".toList <+: cs := h _ (by decide)
  have hbytes : ¬"bytes".toList <+: cs := fun hp =>
    h "byte".toList (by decide) (List.IsPrefix.trans ⟨['s'], by decide⟩ hp)
  unfold builtin?
  simp only [hwidth _ huint, hwidth _ hint, hwidth _ hbytes]
  rw [if_neg, if_neg, if_neg, if_neg, if_neg, if_neg, if_neg]
  · exact hne (w := "int".toList) (by decide) ⟨[], by decide⟩
  · exact hne (w := "uint".toList) (by decide) ⟨[], by decide⟩
  · exact hne (w := "byte".toList) (by decide) ⟨[], by decide⟩
  · exact hne (w := "byte".toList) (by decide) ⟨['s'], by decide⟩
  · exact hne (w := "string".toList) (by decide) ⟨[], by decide⟩
  · exact hne (w := "bool".toList) (by decide) ⟨[], by decide⟩
  · rintro (heq | heq)
    · exact hne (w := "address".toList) (by decide) ⟨[], by decide⟩ heq
    · exact hne (w := "address".toList) (by decide) ⟨" payable".toList, by decide⟩ heq

/-- The word `interface` begins as `int` does, but what follows is no width. -/
theorem builtin?_interface (cs : List Char) : builtin? ("interface ".toList ++ cs) = none := by
  have hne {word : String} (hw : ¬"interface ".toList <+: word.toList) :
      String.ofList ("interface ".toList ++ cs) ≠ word := by
    intro heq
    have hlist : "interface ".toList ++ cs = word.toList := by
      rw [← heq]
      exact String.toList_ofList.symm
    exact hw ⟨cs, hlist⟩
  have huint : (("uint".toList).isPrefixOf? ("interface ".toList ++ cs)).bind
      (fun rest => (readInteger 10 UInt16.size rest).toOption) = none := rfl
  have hint : (("int".toList).isPrefixOf? ("interface ".toList ++ cs)).bind
      (fun rest => (readInteger 10 UInt16.size rest).toOption) = none := rfl
  have hbytes : (("bytes".toList).isPrefixOf? ("interface ".toList ++ cs)).bind
      (fun rest => (readInteger 10 UInt8.size rest).toOption) = none := rfl
  unfold builtin?
  simp only [huint, hint, hbytes]
  rw [if_neg, if_neg, if_neg, if_neg, if_neg, if_neg, if_neg]
  any_goals exact hne (by simp)
  rintro (heq | heq)
  · exact hne (by simp) heq
  · exact hne (by simp) heq

/-- A word that is no built-in type is a name. -/
theorem IsWordText.ofWord_eq_name {n : String} (h : IsWordText n.toList)
    (hf : ¬"function".toList <+: n.toList) (hb : builtin? n.toList = none) :
    ofWord n.toList = .name n := by
  have hkind {w : String} (hb : ' ' ∈ w.toList) :
      (w.toList.isPrefixOf? n.toList).map (fun rest => String.ofList (trim rest)) = none := by
    rw [isPrefixOf?_eq_none fun hp => h.blank_not_mem (hp.subset hb)]
    rfl
  unfold ofWord
  rw [if_neg fun hp => hf (List.isPrefixOf_iff_prefix.1 hp), hb]
  simp only [hkind (w := "struct ") (by decide), hkind (w := "enum ") (by decide),
    hkind (w := "contract ") (by decide), hkind (w := "interface ") (by decide),
    String.ofList_toList]

/-! ## Words in front of a name -/

section Kinds

variable {n : String} (hn : IsTypeName n)

include hn

section Gap

variable {bs : List Char} (hb : IsBlankText bs)

include hb

theorem ofWord_struct : ofWord ("struct ".toList ++ (bs ++ n.toList)) = .structName n := by
  have hown : ∀ w ∈ keywords, ¬w <+: "struct ".toList ++ (bs ++ n.toList) := by simp [keywords]
  have hstruct : ("struct ".toList).isPrefixOf? ("struct ".toList ++ (bs ++ n.toList)) =
      some (bs ++ n.toList) := List.isPrefixOf?_eq_some_iff_append_eq.2 rfl
  unfold ofWord
  rw [if_neg (by simp), builtin?_eq_none hown]
  simp only [hstruct, Option.map_some, trim_append_left hb, hn.text.tight.trim_eq,
    String.ofList_toList]

theorem ofWord_enum : ofWord ("enum ".toList ++ (bs ++ n.toList)) = .enumName n := by
  have hown : ∀ w ∈ keywords, ¬w <+: "enum ".toList ++ (bs ++ n.toList) := by simp [keywords]
  have hstruct : ("struct ".toList).isPrefixOf? ("enum ".toList ++ (bs ++ n.toList)) = none :=
    isPrefixOf?_eq_none (by simp)
  have henum : ("enum ".toList).isPrefixOf? ("enum ".toList ++ (bs ++ n.toList)) =
      some (bs ++ n.toList) := List.isPrefixOf?_eq_some_iff_append_eq.2 rfl
  unfold ofWord
  rw [if_neg (by simp), builtin?_eq_none hown]
  simp only [hstruct, henum, Option.map_none, Option.map_some, trim_append_left hb,
    hn.text.tight.trim_eq, String.ofList_toList]

theorem ofWord_contract : ofWord ("contract ".toList ++ (bs ++ n.toList)) = .contractName n := by
  have hown : ∀ w ∈ keywords, ¬w <+: "contract ".toList ++ (bs ++ n.toList) := by simp [keywords]
  have hstruct : ("struct ".toList).isPrefixOf? ("contract ".toList ++ (bs ++ n.toList)) = none :=
    isPrefixOf?_eq_none (by simp)
  have henum : ("enum ".toList).isPrefixOf? ("contract ".toList ++ (bs ++ n.toList)) = none :=
    isPrefixOf?_eq_none (by simp)
  have hcontract : ("contract ".toList).isPrefixOf? ("contract ".toList ++ (bs ++ n.toList)) =
      some (bs ++ n.toList) := List.isPrefixOf?_eq_some_iff_append_eq.2 rfl
  unfold ofWord
  rw [if_neg (by simp), builtin?_eq_none hown]
  simp only [hstruct, henum, hcontract, Option.map_none, Option.map_some, trim_append_left hb,
    hn.text.tight.trim_eq, String.ofList_toList]

theorem ofWord_interface : ofWord ("interface ".toList ++ (bs ++ n.toList)) = .contractName n := by
  have hstruct : ("struct ".toList).isPrefixOf? ("interface ".toList ++ (bs ++ n.toList)) = none :=
    isPrefixOf?_eq_none (by simp)
  have henum : ("enum ".toList).isPrefixOf? ("interface ".toList ++ (bs ++ n.toList)) = none :=
    isPrefixOf?_eq_none (by simp)
  have hcontract : ("contract ".toList).isPrefixOf? ("interface ".toList ++ (bs ++ n.toList)) =
      none := isPrefixOf?_eq_none (by simp)
  have hinterface : ("interface ".toList).isPrefixOf? ("interface ".toList ++ (bs ++ n.toList)) =
      some (bs ++ n.toList) := List.isPrefixOf?_eq_some_iff_append_eq.2 rfl
  unfold ofWord
  rw [if_neg (by simp), builtin?_interface]
  simp only [hstruct, henum, hcontract, hinterface, Option.map_none, Option.map_some,
    trim_append_left hb, hn.text.tight.trim_eq, String.ofList_toList]

end Gap

theorem ofWord_name : ofWord n.toList = .name n :=
  hn.text.ofWord_eq_name (hn.own _ (by decide)) (builtin?_eq_none hn.own)

end Kinds

/-! ## Cuts -/

section Cuts

variable {cs : List Char}

/-- White space around a text does not matter. -/
theorem ofText_congr {ds : List Char} (h : trim cs = trim ds) : ofText cs = ofText ds := by
  rw [ofText, ofText, h]

theorem ofText_trim (cs : List Char) : ofText (trim cs) = ofText cs := ofText_congr (trim_trim cs)

theorem ofText_word (ht : IsTight cs) (hl : cs.getLast? ≠ some ']')
    (hm : ¬"mapping".toList <+: cs) : ofText cs = ofWord cs := by
  have hcut : cutOf (trim cs) = .word := by
    rw [ht.trim_eq, cutOf, if_neg (by simpa using ht.ne_nil), if_neg hl, isPrefixOf?_eq_none hm]
  rw [ofText]
  split
  all_goals rename_i h; rw [hcut] at h; cases h
  rw [ht.trim_eq]

theorem trim_suffix (cs inside : List Char) :
    trim (cs ++ '[' :: (inside ++ [']'])) = trimStart cs ++ '[' :: (inside ++ [']']) := by
  have htight : IsTight (trimStart cs ++ '[' :: (inside ++ [']'])) := by
    refine ⟨?_, ']', ?_, by decide⟩
    · by_cases h : trimStart cs = []
      · exact ⟨'[', by rw [h]; rfl, by decide⟩
      · obtain ⟨c, hc, hcb⟩ := head?_trimStart h
        exact ⟨c, by rw [List.head?_append, hc]; rfl, hcb⟩
    · rw [← List.cons_append, ← List.append_assoc, List.getLast?_concat]
  obtain ⟨bs, hb, hcs⟩ := exists_trimStart cs
  calc trim (cs ++ '[' :: (inside ++ [']']))
      = trim (bs ++ (trimStart cs ++ '[' :: (inside ++ [']']))) := by
        rw [← List.append_assoc, ← hcs]
    _ = trimStart cs ++ '[' :: (inside ++ [']']) := by rw [trim_append_left hb, htight.trim_eq]

theorem ofText_suffix {inside : List Char} (h : IsUnmarked inside) :
    ofText (cs ++ '[' :: (inside ++ [']'])) =
      match readLength inside with
      | .error fault => .bad fault
      | .ok none => .dynamicArray (ofText cs)
      | .ok (some length) => .fixedArray (ofText cs) length := by
  have hl : (trimStart cs ++ '[' :: (inside ++ [']'])).getLast? = some ']' := by
    rw [← List.cons_append, ← List.append_assoc, List.getLast?_concat]
  have hcut : cutOf (trim (cs ++ '[' :: (inside ++ [']']))) = .array (trimStart cs) inside := by
    rw [trim_suffix, cutOf, if_neg (by simp), if_pos hl, lastBrackets?_suffix h]
  rw [ofText]
  split
  all_goals rename_i hc; rw [hcut] at hc; cases hc
  have hread := ofText_congr (trim_trimStart cs)
  cases readLength inside with
  | error fault => rfl
  | ok length? =>
    cases length? with
    | none => exact congrArg dynamicArray hread
    | some length => exact congrArg (fixedArray · length) hread

end Cuts

/-! ## Mappings -/

/-- The text of a mapping with its two parts, and the white space in front of its parenthesis. -/
def mappingText (bs key value : List Char) : List Char :=
  "mapping".toList ++ (bs ++ '(' :: (key ++ '=' :: '>' :: (value ++ [')'])))

section Mappings

variable {bs key value : List Char}

theorem mappingText_eq_concat (bs key value : List Char) :
    mappingText bs key value =
      "mapping".toList ++ (bs ++ '(' :: (key ++ '=' :: '>' :: value)) ++ [')'] := by
  unfold mappingText
  simp only [List.append_assoc, List.cons_append]

theorem getLast?_mappingText (bs key value : List Char) :
    (mappingText bs key value).getLast? = some ')' := by
  rw [mappingText_eq_concat, List.getLast?_concat]

theorem isTight_mappingText (bs key value : List Char) : IsTight (mappingText bs key value) :=
  ⟨⟨'m', rfl, by decide⟩, ⟨')', getLast?_mappingText bs key value, by decide⟩⟩

theorem passes_mappingText (hb : IsBlankText bs) (hk : Passes key) (hv : Passes value) :
    Passes (mappingText bs key value) := by
  have hword : Passes "mapping".toList := IsWordText.passes (by decide)
  exact hword.append ((Passes.of_blank hb).append (.arrow_in_parentheses hk hv))

/-- A mapping is cut into its parts. -/
theorem ofText_mappingText (hb : IsBlankText bs) (hk : Passes key) :
    ofText (mappingText bs key value) =
      .mapping (ofText (dropParameterName key)) (ofText (dropParameterName value)) := by
  have hpre : ("mapping".toList).isPrefixOf? (mappingText bs key value) =
      some (bs ++ '(' :: (key ++ '=' :: '>' :: (value ++ [')']))) :=
    List.isPrefixOf?_eq_some_iff_append_eq.2 rfl
  have hcut : cutOf (trim (mappingText bs key value)) =
      .mapping (bs ++ '(' :: (key ++ '=' :: '>' :: (value ++ [')']))) := by
    have hne : ¬(mappingText bs key value).isEmpty = true := Bool.false_ne_true
    rw [(isTight_mappingText bs key value).trim_eq, cutOf, getLast?_mappingText, if_neg hne,
      if_neg (by decide), hpre]
  have hclose : key ++ '=' :: '>' :: (value ++ [')']) = key ++ '=' :: '>' :: value ++ [')'] := by
    simp
  have hparens : IsTight ('(' :: (key ++ '=' :: '>' :: value ++ [')'])) :=
    ⟨⟨'(', rfl, by decide⟩, ⟨')', by rw [← List.cons_append, List.getLast?_concat], by decide⟩⟩
  have hinside : insideParentheses? (bs ++ '(' :: (key ++ '=' :: '>' :: (value ++ [')']))) =
      some (key ++ '=' :: '>' :: value) := by
    rw [hclose, insideParentheses?, trim_append_left hb, hparens.trim_eq]
    simp only
    rw [List.getLast?_concat, if_pos rfl, List.dropLast_concat]
  rw [ofText]
  split
  all_goals rename_i hc; rw [hcut] at hc; cases hc
  split
  · next h => rw [hinside] at h; cases h
  · next inner h =>
    rw [hinside] at h
    obtain rfl := Option.some.inj h
    split
    · next h => rw [cutAtArrow_between hk] at h; cases h
    · next k v h =>
      rw [cutAtArrow_between hk] at h
      obtain ⟨rfl, rfl⟩ := Prod.mk.inj (Option.some.inj h)
      rfl

end Mappings

theorem digits_unmarked (n : Nat) : IsUnmarked (digits 10 n) := fun _ hc =>
  (isNameChar_iff.1 (isNameChar_of_isDigit (isDigit_of_mem_digits hc))).2

theorem readLength_nil : readLength [] = .ok none := rfl

theorem readLength_congr {inside inside' : List Char} (h : trim inside = trim inside') :
    readLength inside = readLength inside' := by
  rw [readLength, readLength, h]

theorem readLength_digits (n : UInt64) : readLength (digits 10 n.toNat) = .ok (some n) := by
  have hword : IsWordText (digits 10 n.toNat) :=
    ⟨digits_ne_nil _, fun c hc => isNameChar_of_isDigit (isDigit_of_mem_digits hc)⟩
  unfold readLength
  rw [hword.tight.trim_eq]
  split
  · next h => exact absurd h (digits_ne_nil _)
  · rw [readInteger_digits n.toNat_lt]
    simp only [UInt64.ofNat_toNat]

/-! ## Names of parameters -/

theorem dropParameterName_congr {part part' : List Char} (h : trim part = trim part') :
    dropParameterName part = dropParameterName part' := by
  unfold dropParameterName
  simp only [h]

section Parts

variable {part cs : List Char} (h : trim part = cs)

include h

/-- A part that begins as a mapping is cut behind its last parenthesis. -/
theorem dropParameterName_mapping {before after : List Char} (hm : "mapping".toList <+: cs)
    (hc : cutAtLast? ')' cs = some (before, after)) : dropParameterName part = before ++ [')'] := by
  unfold dropParameterName
  simp only [h]
  rw [if_pos (List.isPrefixOf_iff_prefix.2 hm), hc]

theorem dropParameterName_array (hm : ¬"mapping".toList <+: cs) (hl : cs.getLast? = some ']') :
    dropParameterName part = cs := by
  unfold dropParameterName
  simp only [h]
  rw [if_neg fun hp => hm (List.isPrefixOf_iff_prefix.1 hp), if_pos hl]

theorem dropParameterName_word (hm : ¬"mapping".toList <+: cs) (hw : IsWordText cs) :
    dropParameterName part = cs := by
  unfold dropParameterName
  simp only [h]
  rw [if_neg fun hp => hm (List.isPrefixOf_iff_prefix.1 hp), if_neg hw.getLast?_ne,
    cutAtLast?_eq_none hw.blank_not_mem]

/-- A name keeps the word in front that says what it names. -/
theorem dropParameterName_kind {kind tail : List Char} (hcs : cs = kind ++ ' ' :: tail)
    (hkind : kind ∈ kindWords) (hm : ¬"mapping".toList <+: cs) (hl : cs.getLast? ≠ some ']')
    (htail : ' ' ∉ tail) : dropParameterName part = cs := by
  unfold dropParameterName
  simp only [h]
  rw [if_neg fun hp => hm (List.isPrefixOf_iff_prefix.1 hp), if_neg hl, hcs,
    cutAtLast?_between htail]
  simp only
  rw [if_neg fun hne => hne.1 hkind]

/-- The name of a parameter is dropped. -/
theorem dropParameterName_name {head name : List Char} (hcs : cs = head ++ ' ' :: name)
    (hhead : head ∉ kindWords) (hm : ¬"mapping".toList <+: cs) (hw : IsWordText name)
    (hpay : name ≠ "payable".toList) : dropParameterName part = trim head := by
  have hl : cs.getLast? ≠ some ']' := by
    rw [hcs, ← List.singleton_append, ← List.append_assoc]
    exact hw.getLast?_append_ne _
  unfold dropParameterName
  simp only [h]
  rw [if_neg fun hp => hm (List.isPrefixOf_iff_prefix.1 hp), if_neg hl, hcs,
    cutAtLast?_between hw.blank_not_mem]
  simp only
  rw [if_pos ⟨hhead, hpay⟩]

end Parts

/-- A mapping stays whole as a part, and loses what stands behind it. -/
theorem dropParameterName_mappingText {part bs key value suffix : List Char}
    (h : trim part = mappingText bs key value ++ suffix) (hs : ')' ∉ suffix) :
    dropParameterName part = mappingText bs key value := by
  have hm : "mapping".toList <+: mappingText bs key value ++ suffix :=
    (List.prefix_append _ _).trans (List.prefix_append _ _)
  have hcut : cutAtLast? ')' (mappingText bs key value ++ suffix) =
      some ("mapping".toList ++ (bs ++ '(' :: (key ++ '=' :: '>' :: value)), suffix) := by
    rw [mappingText_eq_concat, List.append_assoc _ [')'], List.singleton_append]
    exact cutAtLast?_between hs
  rw [dropParameterName_mapping h hm hcut, mappingText_eq_concat]

/-- Brackets behind a mapping do not matter in a part. -/
theorem dropParameterName_suffix {part cs suffix : List Char} (h : trim part = cs ++ suffix)
    (ht : IsTight cs) (hm : "mapping".toList <+: cs) (hmem : ')' ∈ cs) (hs : ')' ∉ suffix) :
    dropParameterName part = dropParameterName cs := by
  obtain ⟨before, after, rfl, hafter⟩ := exists_last_of_mem hmem
  have hlong : cutAtLast? ')' (before ++ ')' :: after ++ suffix) =
      some (before, after ++ suffix) := by
    rw [List.append_assoc, List.cons_append]
    refine cutAtLast?_between fun hmem => ?_
    rcases List.mem_append.1 hmem with hl | hr
    · exact hafter hl
    · exact hs hr
  rw [dropParameterName_mapping h (hm.trans (List.prefix_append _ _)) hlong,
    dropParameterName_mapping ht.trim_eq hm (cutAtLast?_between hafter)]

/-! ## Texts without parts -/

/-- What is known of the text of a type without parts. -/
structure LeafText (cs : List Char) (e : TypeExpr) : Prop where
  tight : IsTight cs
  passes : Passes cs
  last : cs.getLast? ≠ some ']'
  first : ¬"mapping".toList <+: cs
  cut : ofWord cs = e

theorem LeafText.ofText_eq {cs : List Char} {e : TypeExpr} (h : LeafText cs e) : ofText cs = e := by
  rw [ofText_word h.tight h.last h.first, h.cut]

theorem IsWordText.leafText {cs : List Char} {e : TypeExpr} (h : IsWordText cs)
    (hm : ¬"mapping".toList <+: cs) (he : ofWord cs = e) : LeafText cs e :=
  ⟨h.tight, h.passes, h.getLast?_ne, hm, he⟩

/-- A name behind the word that says what it names. -/
theorem leafText_kind {kind bs name : List Char} {e : TypeExpr} (hkind : IsWordText kind)
    (hb : IsBlankText bs) (hname : IsWordText name)
    (hm : ¬"mapping".toList <+: kind ++ ' ' :: (bs ++ name))
    (he : ofWord (kind ++ ' ' :: (bs ++ name)) = e) : LeafText (kind ++ ' ' :: (bs ++ name)) e := by
  have hjoin : kind ++ ' ' :: (bs ++ name) = kind ++ (' ' :: bs) ++ name := by simp
  have hgap : IsBlankText (' ' :: bs) := List.forall_mem_cons.2 ⟨by decide, hb⟩
  rw [hjoin] at hm he ⊢
  exact ⟨hkind.tight.append hname.tight _,
    (hkind.passes.append (.of_blank hgap)).append hname.passes, hname.getLast?_append_ne _, hm, he⟩

theorem leafText_elementary {e : Elementary} (he : e.Legal) :
    LeafText e.spelling.toList (.builtin (.elementary e)) := by
  have hm : ¬"mapping".toList <+: e.spelling.toList := by
    cases e <;> simp [Elementary.spelling]
  have hf : ¬("function".toList).isPrefixOf e.spelling.toList := by
    cases e <;> simp [Elementary.spelling]
  refine e.spelling_text.leafText hm ?_
  unfold ofWord
  rw [if_neg hf, Elementary.builtin?_spelling he]

section Kinds

variable {n : String} (hn : IsTypeName n) {bs : List Char} (hb : IsBlankText bs)

include hn hb

theorem leafText_struct :
    LeafText ("struct".toList ++ ' ' :: (bs ++ n.toList)) (.structName n) := by
  refine leafText_kind (by decide) hb hn.text (by simp) ?_
  rw [← ofWord_struct hn hb]
  simp

theorem leafText_enum :
    LeafText ("enum".toList ++ ' ' :: (bs ++ n.toList)) (.enumName n) := by
  refine leafText_kind (by decide) hb hn.text (by simp) ?_
  rw [← ofWord_enum hn hb]
  simp

theorem leafText_contract :
    LeafText ("contract".toList ++ ' ' :: (bs ++ n.toList)) (.contractName n) := by
  refine leafText_kind (by decide) hb hn.text (by simp) ?_
  rw [← ofWord_contract hn hb]
  simp

theorem leafText_interface :
    LeafText ("interface".toList ++ ' ' :: (bs ++ n.toList)) (.contractName n) := by
  refine leafText_kind (by decide) hb hn.text (by simp) ?_
  rw [← ofWord_interface hn hb]
  simp

end Kinds

theorem leafText_name {n : String} (hn : IsTypeName n) : LeafText n.toList (.name n) :=
  hn.text.leafText (hn.own _ (by decide)) (ofWord_name hn)

end StorageAtlas
