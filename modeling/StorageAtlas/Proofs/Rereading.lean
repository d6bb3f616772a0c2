import StorageAtlas.Proofs.Spelling

/-!
# Reading types back

The text that a type is written as is read again (`Ty.ofText_spelling`). It comes back as it was,
but for two kinds of parts of mappings, where more is dropped than the name of a parameter
(`Ty.rereadPart`): of `function external` the second word is lost, and an array over mappings loses
its brackets, since a part that begins as a mapping is cut behind its last parenthesis.
-/

namespace StorageAtlas

open Text TypeExpr

namespace Ty

/-- The text of a type, cut into its parts. -/
def expr : Ty → TypeExpr
  | elementary e => .builtin (.elementary e)
  | bytes => .builtin .bytes
  | string => .builtin .string
  | function external => .builtin (.function external)
  | fixedArray t length => .fixedArray t.expr length
  | dynamicArray t => .dynamicArray t.expr
  | mapping k v => .mapping k.expr v.expr
  | struct n _ | structRef n => .structName n
  | userDefined n .enum _ => .enumName n
  | userDefined n .contract _ => .contractName n
  | userDefined n .valueType _ => .name n

/-- Mappings, and arrays that hold mappings in the end. -/
def isOverMapping : Ty → Bool
  | mapping _ _ => true
  | fixedArray t _ | dynamicArray t => t.isOverMapping
  | _ => false

mutual
/-- What the text of a type is read back as. -/
def reread : Ty → Ty
  | fixedArray t length => fixedArray t.reread length
  | dynamicArray t => dynamicArray t.reread
  | mapping k v => mapping k.rereadPart v.rereadPart
  | t => t

/-- What the text of a part of a mapping is read back as. -/
def rereadPart : Ty → Ty
  | fixedArray t length => if t.isOverMapping then t.rereadPart else fixedArray t.reread length
  | dynamicArray t => if t.isOverMapping then t.rereadPart else dynamicArray t.reread
  | mapping k v => mapping k.rereadPart v.rereadPart
  | function _ => function false
  | t => t
end

/-- Types whose widths are legal and whose names are proper. -/
def Spellable : Ty → Prop
  | elementary e => e.Legal
  | fixedArray t _ | dynamicArray t => t.Spellable
  | mapping k v => k.Spellable ∧ v.Spellable
  | struct n _ | structRef n | userDefined n _ _ => IsTypeName n
  | bytes | string | function _ => True

/-! ### Texts -/

section

attribute [local simp] spelling

theorem toList_spelling_fixedArray (t : Ty) (length : UInt64) :
    (fixedArray t length).spelling.toList =
      t.spelling.toList ++ '[' :: (digits 10 length.toNat ++ [']']) := by
  simp [decimal]

theorem toList_spelling_dynamicArray (t : Ty) :
    (dynamicArray t).spelling.toList = t.spelling.toList ++ '[' :: ([] ++ [']']) := by
  simp

theorem toList_spelling_mapping (k v : Ty) : (mapping k v).spelling.toList =
    mappingText [] (k.spelling.toList ++ [' ']) (' ' :: v.spelling.toList) := by
  unfold mappingText
  simp

theorem toList_spelling_struct (n : String) (ms : List Member) :
    (struct n ms).spelling.toList = "struct".toList ++ ' ' :: n.toList := by simp

theorem toList_spelling_structRef (n : String) :
    (structRef n).spelling.toList = "struct".toList ++ ' ' :: n.toList := by simp

theorem toList_spelling_enum (n : String) (u : Ty) :
    (userDefined n .enum u).spelling.toList = "enum".toList ++ ' ' :: n.toList := by simp

theorem toList_spelling_contract (n : String) (u : Ty) :
    (userDefined n .contract u).spelling.toList = "contract".toList ++ ' ' :: n.toList := by
  simp

end

/-- Types whose text is not put together from other types. -/
def IsLeaf : Ty → Prop
  | fixedArray _ _ | dynamicArray _ | mapping _ _ => False
  | _ => True

/-- **Types without parts are cut into what they are.** -/
theorem leafText {t : Ty} (h : t.Spellable) (hleaf : t.IsLeaf) :
    LeafText t.spelling.toList t.expr := by
  cases t with
  | elementary e => exact leafText_elementary h
  | bytes => exact IsWordText.leafText (by decide) (by decide) rfl
  | string => exact IsWordText.leafText (by decide) (by decide) rfl
  | function external =>
    cases external with
    | false =>
      show LeafText ("function".toList ++ ' ' :: "internal".toList) _
      exact leafText_kind (by decide) isBlankText_nil (by decide) (by decide) rfl
    | true =>
      show LeafText ("function".toList ++ ' ' :: "external".toList) _
      exact leafText_kind (by decide) isBlankText_nil (by decide) (by decide) rfl
  | struct n ms => rw [toList_spelling_struct]; exact leafText_struct h isBlankText_nil
  | structRef n => rw [toList_spelling_structRef]; exact leafText_struct h isBlankText_nil
  | userDefined n kind u =>
    cases kind with
    | enum => rw [toList_spelling_enum]; exact leafText_enum h isBlankText_nil
    | contract => rw [toList_spelling_contract]; exact leafText_contract h isBlankText_nil
    | valueType => exact leafText_name h
  | fixedArray _ _ => exact hleaf.elim
  | dynamicArray _ => exact hleaf.elim
  | mapping _ _ => exact hleaf.elim

/-- As a part of a mapping a type without parts stays what it is, unless it is code. -/
theorem ofText_leaf_part {t : Ty} (h : t.Spellable) (hleaf : t.IsLeaf) {part : List Char}
    (hpart : trim part = t.spelling.toList) :
    ofText (dropParameterName part) = t.rereadPart.expr := by
  have hl := leafText h hleaf
  have hfirst := hl.first
  cases t with
  | elementary e =>
    rw [dropParameterName_word hpart hfirst e.spelling_text, hl.ofText_eq]
    rfl
  | bytes =>
    rw [dropParameterName_word hpart hfirst (by decide), hl.ofText_eq]
    rfl
  | string =>
    rw [dropParameterName_word hpart hfirst (by decide), hl.ofText_eq]
    rfl
  | function external =>
    -- `function` is no word that a name follows, so that what follows it is dropped
    have hdrop : dropParameterName part = "function".toList := by
      unfold dropParameterName
      simp only [hpart]
      cases external with
      | false => rfl
      | true => rfl
    have hword : ofText "function".toList = ofWord "function".toList :=
      ofText_word (IsWordText.tight (by decide)) (by decide) (by decide)
    rw [hdrop, hword]
    rfl
  | struct n ms =>
    rw [dropParameterName_kind hpart (toList_spelling_struct n ms) (by decide) hfirst hl.last
      h.text.blank_not_mem, hl.ofText_eq]
    rfl
  | structRef n =>
    rw [dropParameterName_kind hpart (toList_spelling_structRef n) (by decide) hfirst hl.last
      h.text.blank_not_mem, hl.ofText_eq]
    rfl
  | userDefined n kind u =>
    cases kind with
    | enum =>
      rw [dropParameterName_kind hpart (toList_spelling_enum n u) (by decide) hfirst hl.last
        h.text.blank_not_mem, hl.ofText_eq]
      rfl
    | contract =>
      rw [dropParameterName_kind hpart (toList_spelling_contract n u) (by decide) hfirst hl.last
        h.text.blank_not_mem, hl.ofText_eq]
      rfl
    | valueType =>
      rw [dropParameterName_word hpart hfirst (IsTypeName.text h), hl.ofText_eq]
      rfl
  | fixedArray _ _ => exact hleaf.elim
  | dynamicArray _ => exact hleaf.elim
  | mapping _ _ => exact hleaf.elim

/-! ### Texts of all types -/

theorem isTight_suffix {cs inside : List Char} (h : IsTight cs) :
    IsTight (cs ++ '[' :: (inside ++ [']'])) := by
  have hend : IsTight [']'] := ⟨⟨']', rfl, by decide⟩, ⟨']', rfl, by decide⟩⟩
  have htight := h.append hend ('[' :: inside)
  rwa [List.append_assoc, List.cons_append] at htight

theorem spelling_isTight : ∀ {t : Ty}, t.Spellable → IsTight t.spelling.toList
  | fixedArray t length, h => by
    rw [toList_spelling_fixedArray]
    exact isTight_suffix (spelling_isTight (t := t) h)
  | dynamicArray t, h => by
    rw [toList_spelling_dynamicArray]
    exact isTight_suffix (spelling_isTight (t := t) h)
  | mapping k v, _ => by
    rw [toList_spelling_mapping]
    exact isTight_mappingText _ _ _
  | elementary _, h | bytes, h | string, h | function _, h | struct _ _, h | structRef _, h
  | userDefined _ _ _, h => (leafText h trivial).tight

/-- **The text of a type may stand in front of an arrow.** -/
theorem spelling_passes : ∀ {t : Ty}, t.Spellable → Passes t.spelling.toList
  | fixedArray t length, h => by
    rw [toList_spelling_fixedArray]
    exact (spelling_passes (t := t) h).suffix (digits_unmarked _)
  | dynamicArray t, h => by
    rw [toList_spelling_dynamicArray]
    exact (spelling_passes (t := t) h).suffix isUnmarked_nil
  | mapping k v, ⟨hk, hv⟩ => by
    have hblank : Passes [' '] := .of_blank (by decide)
    rw [toList_spelling_mapping]
    exact passes_mappingText isBlankText_nil ((spelling_passes (t := k) hk).append hblank)
      (hblank.append (spelling_passes (t := v) hv))
  | elementary _, h | bytes, h | string, h | function _, h | struct _ _, h | structRef _, h
  | userDefined _ _ _, h => (leafText h trivial).passes

theorem prefix_of_isOverMapping : ∀ {t : Ty}, t.isOverMapping →
    "mapping".toList <+: t.spelling.toList ∧ ')' ∈ t.spelling.toList
  | fixedArray t length, h => by
    obtain ⟨hm, hmem⟩ := prefix_of_isOverMapping (t := t) h
    rw [toList_spelling_fixedArray]
    exact ⟨hm.trans (List.prefix_append _ _), List.mem_append_left _ hmem⟩
  | dynamicArray t, h => by
    obtain ⟨hm, hmem⟩ := prefix_of_isOverMapping (t := t) h
    rw [toList_spelling_dynamicArray]
    exact ⟨hm.trans (List.prefix_append _ _), List.mem_append_left _ hmem⟩
  | mapping k v, _ => by
    rw [toList_spelling_mapping]
    exact ⟨List.prefix_append _ _, List.mem_of_getLast? (getLast?_mappingText _ _ _)⟩
  | elementary _, h | bytes, h | string, h | function _, h | struct _ _, h | structRef _, h
  | userDefined _ _ _, h => nomatch h

theorem not_prefix_of_not_isOverMapping : ∀ {t : Ty}, t.Spellable → ¬t.isOverMapping →
    ¬"mapping".toList <+: t.spelling.toList
  | fixedArray t length, h, ht => by
    rw [toList_spelling_fixedArray]
    exact mt (prefix_of_append_cons · (by decide)) (not_prefix_of_not_isOverMapping (t := t) h ht)
  | dynamicArray t, h, ht => by
    rw [toList_spelling_dynamicArray]
    exact mt (prefix_of_append_cons · (by decide)) (not_prefix_of_not_isOverMapping (t := t) h ht)
  | mapping _ _, _, ht => absurd rfl ht
  | elementary _, h, _ | bytes, h, _ | string, h, _ | function _, h, _ | struct _ _, h, _
  | structRef _, h, _ | userDefined _ _ _, h, _ => (leafText h trivial).first

/-! ### Reading back -/

section Mappings

variable {k v : Ty} (hk : k.Spellable) (hv : v.Spellable)
  (ihk : ∀ {part : List Char}, trim part = k.spelling.toList →
    ofText (dropParameterName part) = k.rereadPart.expr)
  (ihv : ∀ {part : List Char}, trim part = v.spelling.toList →
    ofText (dropParameterName part) = v.rereadPart.expr)

include hk hv ihk ihv

/-- A mapping is read back part by part. -/
theorem ofText_spelling_mapping :
    ofText (mapping k v).spelling.toList = .mapping k.rereadPart.expr v.rereadPart.expr := by
  have hblank : IsBlankText [' '] := by decide
  have hkey : trim (k.spelling.toList ++ [' ']) = k.spelling.toList := by
    rw [trim_append_right hblank, (spelling_isTight hk).trim_eq]
  have hvalue : trim (' ' :: v.spelling.toList) = v.spelling.toList := by
    rw [← List.singleton_append, trim_append_left hblank, (spelling_isTight hv).trim_eq]
  rw [toList_spelling_mapping, ofText_mappingText isBlankText_nil
    ((spelling_passes hk).append (.of_blank hblank)), ihk hkey, ihv hvalue]

/-- As a part of another mapping a mapping is not cut. -/
theorem ofText_part_mapping {part : List Char} (hpart : trim part = (mapping k v).spelling.toList) :
    ofText (dropParameterName part) = .mapping k.rereadPart.expr v.rereadPart.expr := by
  rw [toList_spelling_mapping, ← List.append_nil (mappingText _ _ _)] at hpart
  rw [dropParameterName_mappingText hpart List.not_mem_nil, ← toList_spelling_mapping]
  exact ofText_spelling_mapping hk hv ihk ihv

end Mappings

theorem ofText_fixedArray (t : Ty) (length : UInt64) :
    ofText (fixedArray t length).spelling.toList =
      .fixedArray (ofText t.spelling.toList) length := by
  rw [toList_spelling_fixedArray, ofText_suffix (digits_unmarked _), readLength_digits]

theorem ofText_dynamicArray (t : Ty) :
    ofText (dynamicArray t).spelling.toList = .dynamicArray (ofText t.spelling.toList) := by
  rw [toList_spelling_dynamicArray, ofText_suffix isUnmarked_nil, readLength_nil]

section Arrays

variable {t : Ty} (h : t.Spellable)

include h

/-- As a part of a mapping an array over mappings is cut in front of its brackets. -/
theorem ofText_part_suffix {part suffix : List Char}
    (hpart : trim part = t.spelling.toList ++ suffix) (hs : ')' ∉ suffix) (ht : t.isOverMapping)
    (ih : ∀ {part : List Char}, trim part = t.spelling.toList →
      ofText (dropParameterName part) = t.rereadPart.expr) :
    ofText (dropParameterName part) = t.rereadPart.expr := by
  obtain ⟨hm, hmem⟩ := prefix_of_isOverMapping ht
  rw [dropParameterName_suffix hpart (spelling_isTight h) hm hmem hs]
  exact ih (spelling_isTight h).trim_eq

/-- As a part of a mapping any other array stays what it is. -/
theorem dropParameterName_brackets {part inside : List Char}
    (hpart : trim part = t.spelling.toList ++ '[' :: (inside ++ [']'])) (ht : ¬t.isOverMapping) :
    dropParameterName part = t.spelling.toList ++ '[' :: (inside ++ [']']) := by
  have hm := not_prefix_of_not_isOverMapping h ht
  refine dropParameterName_array hpart (mt (prefix_of_append_cons · (by decide)) hm) ?_
  rw [← List.cons_append, ← List.append_assoc, List.getLast?_concat]

end Arrays

mutual
/-- **The text of a type is read back as `reread` says.** -/
theorem ofText_spelling : ∀ {t : Ty}, t.Spellable → ofText t.spelling.toList = t.reread.expr
  | fixedArray t length, h => by
    rw [ofText_fixedArray, ofText_spelling (t := t) h]
    rfl
  | dynamicArray t, h => by
    rw [ofText_dynamicArray, ofText_spelling (t := t) h]
    rfl
  | mapping k v, ⟨hk, hv⟩ =>
    ofText_spelling_mapping hk hv (fun hp => ofText_part (t := k) hk hp)
      fun hp => ofText_part (t := v) hv hp
  | elementary _, h | bytes, h | string, h | function _, h | struct _ _, h | structRef _, h
  | userDefined _ _ _, h => (leafText h trivial).ofText_eq

/-- **The text of a part of a mapping is read back as `rereadPart` says.** -/
theorem ofText_part : ∀ {t : Ty}, t.Spellable → ∀ {part : List Char},
    trim part = t.spelling.toList → ofText (dropParameterName part) = t.rereadPart.expr
  | fixedArray t length, h, part, hpart => by
    rw [toList_spelling_fixedArray] at hpart
    unfold rereadPart
    by_cases ht : t.isOverMapping
    · rw [if_pos ht]
      exact ofText_part_suffix (t := t) h hpart (digits_unmarked _).suffix_not_close ht
        fun hp => ofText_part (t := t) h hp
    · rw [if_neg ht, dropParameterName_brackets (t := t) h hpart ht, ← toList_spelling_fixedArray,
        ofText_fixedArray, ofText_spelling (t := t) h]
      rfl
  | dynamicArray t, h, part, hpart => by
    rw [toList_spelling_dynamicArray] at hpart
    unfold rereadPart
    by_cases ht : t.isOverMapping
    · rw [if_pos ht]
      exact ofText_part_suffix (t := t) h hpart (by decide) ht fun hp => ofText_part (t := t) h hp
    · rw [if_neg ht, dropParameterName_brackets (t := t) h hpart ht, ← toList_spelling_dynamicArray,
        ofText_dynamicArray, ofText_spelling (t := t) h]
      rfl
  | mapping k v, ⟨hk, hv⟩, part, hpart =>
    ofText_part_mapping hk hv (fun hp => ofText_part (t := k) hk hp)
      (fun hp => ofText_part (t := v) hv hp) hpart
  | elementary _, h, _, hpart | bytes, h, _, hpart | string, h, _, hpart
  | function _, h, _, hpart | struct _ _, h, _, hpart | structRef _, h, _, hpart
  | userDefined _ _ _, h, _, hpart => ofText_leaf_part h trivial hpart
end

end Ty

end StorageAtlas
