import StorageAtlas.Proofs.Loading
import StorageAtlas.Proofs.Rereading
import StorageAtlas.Proofs.ValueTypes

/-!
# The types of a document and their texts

The types that can be written with what a document declares (`Ty.Declared`) are found again from
their texts: the text of a type is read as `Ty.reread` says (`ModelText.readType_spelling`), and
that is the type itself as long as no part of a mapping is cut (`Ty.keepsParts`). The parts that are
cut are references to external code and arrays over mappings.

Names have to be proper and declared once (`ModelText.WellNamed`).
-/

namespace StorageAtlas

open Text TypeExpr

/-! ## Types that come back whole -/

namespace Ty

/-- As a part of a mapping the type is not cut. -/
def isWholePart : Ty → Bool
  | fixedArray t _ | dynamicArray t => !t.isOverMapping
  | function external => !external
  | _ => true

/-- No part of a mapping in the type is cut. -/
def keepsParts : Ty → Bool
  | fixedArray t _ | dynamicArray t => t.keepsParts
  | mapping k v => k.isWholePart && k.keepsParts && (v.isWholePart && v.keepsParts)
  | _ => true

/-- What is left of an array over mappings is the mapping. -/
theorem exists_rereadPart : ∀ {t : Ty}, t.isOverMapping → ∃ k v, t.rereadPart = mapping k v
  | fixedArray t length, h => by
    have ht : t.isOverMapping := h
    rw [rereadPart, if_pos ht]
    exact exists_rereadPart ht
  | dynamicArray t, h => by
    have ht : t.isOverMapping := h
    rw [rereadPart, if_pos ht]
    exact exists_rereadPart ht
  | mapping k v, _ => ⟨k.rereadPart, v.rereadPart, rfl⟩
  | elementary _, h | bytes, h | string, h | function _, h | struct _ _, h | structRef _, h
  | userDefined _ _ _, h => nomatch h

mutual
/-- **A type is read back as itself exactly if it keeps its parts.** -/
theorem reread_eq_iff : ∀ {t : Ty}, t.reread = t ↔ t.keepsParts
  | fixedArray t length => by
    rw [reread, keepsParts, ← reread_eq_iff (t := t)]
    exact ⟨fun h => (fixedArray.inj h).1, fun h => by rw [h]⟩
  | dynamicArray t => by
    rw [reread, keepsParts, ← reread_eq_iff (t := t)]
    exact ⟨fun h => dynamicArray.inj h, fun h => by rw [h]⟩
  | mapping k v => by
    rw [reread, keepsParts, Bool.and_eq_true, ← rereadPart_eq_iff (t := k),
      ← rereadPart_eq_iff (t := v)]
    exact ⟨fun h => mapping.inj h, fun h => by rw [h.1, h.2]⟩
  | elementary _ | bytes | string | function _ | struct _ _ | structRef _ | userDefined _ _ _ =>
    ⟨fun _ => rfl, fun _ => rfl⟩

theorem rereadPart_eq_iff : ∀ {t : Ty}, t.rereadPart = t ↔ (t.isWholePart && t.keepsParts)
  | fixedArray t length => by
    by_cases ht : t.isOverMapping
    · obtain ⟨k, v, hkv⟩ := exists_rereadPart ht
      rw [rereadPart, if_pos ht, hkv, isWholePart, ht]
      exact ⟨nofun, nofun⟩
    · rw [rereadPart, if_neg ht, isWholePart, Bool.not_eq_true _ |>.mp ht, keepsParts,
        Bool.not_false, Bool.true_and, ← reread_eq_iff (t := t)]
      exact ⟨fun h => (fixedArray.inj h).1, fun h => by rw [h]⟩
  | dynamicArray t => by
    by_cases ht : t.isOverMapping
    · obtain ⟨k, v, hkv⟩ := exists_rereadPart ht
      rw [rereadPart, if_pos ht, hkv, isWholePart, ht]
      exact ⟨nofun, nofun⟩
    · rw [rereadPart, if_neg ht, isWholePart, Bool.not_eq_true _ |>.mp ht, keepsParts,
        Bool.not_false, Bool.true_and, ← reread_eq_iff (t := t)]
      exact ⟨fun h => dynamicArray.inj h, fun h => by rw [h]⟩
  | mapping k v => by
    have hwhole : (mapping k v).isWholePart = true := rfl
    rw [rereadPart, hwhole, Bool.true_and, keepsParts, Bool.and_eq_true,
      ← rereadPart_eq_iff (t := k), ← rereadPart_eq_iff (t := v)]
    exact ⟨fun h => mapping.inj h, fun h => by rw [h.1, h.2]⟩
  | function external => by cases external <;> decide
  | elementary _ | bytes | string | struct _ _ | structRef _ | userDefined _ _ _ =>
    ⟨fun _ => rfl, fun _ => rfl⟩
end

end Ty

/-! ## Types of a document -/

/-- All names that a document declares. -/
def ModelText.typeNames (raw : ModelText) : List String :=
  raw.structs.map (·.1) ++ raw.enums ++ raw.valueTypes.map (·.1) ++ raw.contracts.map (·.name)

theorem ModelText.mem_typeNames {raw : ModelText} {n : String} :
    n ∈ raw.typeNames ↔ n ∈ raw.structs.map (·.1) ∨ n ∈ raw.enums ∨ n ∈ raw.valueTypes.map (·.1) ∨
      n ∈ raw.contracts.map (·.name) := by
  simp only [typeNames, List.mem_append, or_assoc]

/-- Every name is declared once, and none can be taken for a built-in type. -/
structure ModelText.WellNamed (raw : ModelText) : Prop where
  nodup : raw.typeNames.Nodup
  proper : ∀ n ∈ raw.typeNames, IsTypeName n

/-- The type is put together from legal built-in types and what the document declares, with structs
as they stand in the table. -/
def Ty.Declared (raw : ModelText) (table : StructTable) : Ty → Prop
  | .elementary e => e.Legal
  | .bytes | .string | .function _ => True
  | .fixedArray t _ | .dynamicArray t => t.Declared raw table
  | .mapping k v => k.Declared raw table ∧ v.Declared raw table
  | .struct n ms => table.lookup n = some ms
  | .structRef _ => False
  | .userDefined n .enum u => n ∈ raw.enums ∧ u = .uint 8
  | .userDefined n .contract u => n ∈ raw.contracts.map (·.name) ∧ u = .address
  | .userDefined n .valueType u => u.isValueType ∧
      ∃ text, raw.valueTypes.lookup n = some text ∧ raw.declarations.readType text = .ok u

section

variable {raw : ModelText} {table : StructTable} (hnames : raw.WellNamed)
  (htable : ModelText.readStructs raw.declarations (raw.structs.map (·.1)) = .ok table)

/-! ### Their texts -/

include hnames htable in
/-- The texts of declared types can be read back. -/
theorem Ty.Declared.spellable : ∀ {t : Ty}, t.Declared raw table → t.Spellable
  | .elementary _, h => h
  | .bytes, _ | .string, _ | .function _, _ => trivial
  | .fixedArray t _, h | .dynamicArray t, h => spellable (t := t) h
  | .mapping k v, ⟨hk, hv⟩ => ⟨spellable (t := k) hk, spellable (t := v) hv⟩
  | .struct n ms, h => by
    have hn := SortedMap.mem_keys_of_lookup h
    rw [keys_of_readStructs htable] at hn
    exact hnames.proper n (ModelText.mem_typeNames.2 (.inl hn))
  | .structRef _, h => h.elim
  | .userDefined n .enum _, ⟨hn, _⟩ =>
    hnames.proper n (ModelText.mem_typeNames.2 (.inr (.inl hn)))
  | .userDefined n .contract _, ⟨hn, _⟩ =>
    hnames.proper n (ModelText.mem_typeNames.2 (.inr (.inr (.inr hn))))
  | .userDefined n .valueType _, ⟨_, _, hl, _⟩ =>
    hnames.proper n
      (ModelText.mem_typeNames.2 (.inr (.inr (.inl (SortedMap.mem_keys_of_lookup hl)))))

mutual
/-- What a declared type is read back as is declared too. -/
theorem Ty.Declared.reread : ∀ {t : Ty}, t.Declared raw table → t.reread.Declared raw table
  | .fixedArray t _, h | .dynamicArray t, h => reread (t := t) h
  | .mapping k v, ⟨hk, hv⟩ => ⟨rereadPart (t := k) hk, rereadPart (t := v) hv⟩
  | .elementary _, h | .bytes, h | .string, h | .function _, h | .struct _ _, h | .structRef _, h
  | .userDefined _ _ _, h => h

theorem Ty.Declared.rereadPart : ∀ {t : Ty}, t.Declared raw table → t.rereadPart.Declared raw table
  | .fixedArray t _, h => by
    unfold Ty.rereadPart
    split
    · exact rereadPart (t := t) h
    · exact reread (t := t) h
  | .dynamicArray t, h => by
    unfold Ty.rereadPart
    split
    · exact rereadPart (t := t) h
    · exact reread (t := t) h
  | .mapping k v, ⟨hk, hv⟩ => ⟨rereadPart (t := k) hk, rereadPart (t := v) hv⟩
  | .function _, _ => trivial
  | .elementary _, h | .bytes, h | .string, h | .struct _ _, h | .structRef _, h
  | .userDefined _ _ _, h => h
end

/-! ### What their texts stand for -/

include hnames in
/-- The name of a declared value type stands for it. -/
theorem ModelText.WellNamed.lookUp_valueType {n text : String} {u : Ty}
    (hl : raw.valueTypes.lookup n = some text) (hu : raw.declarations.readType text = .ok u)
    (hvt : u.isValueType) :
    raw.declarations.lookUp raw.declarations.nesting {} (.bare n) =
      .ok (.userDefined n .valueType u) := by
  have hn := SortedMap.mem_keys_of_lookup hl
  obtain ⟨hkinds, -, -⟩ := List.nodup_append.1 hnames.nodup
  obtain ⟨-, -, hother⟩ := List.nodup_append.1 hkinds
  have hs : n ∉ raw.structs.map (·.1) := fun hmem =>
    hother n (List.mem_append_left _ hmem) n hn rfl
  have he : n ∉ raw.enums := fun hmem => hother n (List.mem_append_right _ hmem) n hn rfl
  refine StorageAtlas.lookUp_valueType raw.declarations_wordsOnly ?_ he ?_ hu hvt
  · refine lookup_eq_none_iff_keys.2 ?_
    simpa [declarations] using hs
  · simp only [declarations,
      SortedMap.lookup_map fun text : String => TypeExpr.ofText text.toList, hl, Option.map_some]

include hnames htable in
/-- **The text of a declared type, once it is cut, stands for the type.** -/
theorem Ty.Declared.resolveWith_expr : ∀ {t : Ty}, t.Declared raw table →
    t.expr.resolveWith (raw.declarations.lookUp raw.declarations.nesting) {} = .ok t
  | .elementary _, _ | .bytes, _ | .string, _ | .function _, _ => rfl
  | .fixedArray t length, h => by
    simp only [Ty.expr, TypeExpr.resolveWith, resolveWith_expr (t := t) h]
  | .dynamicArray t, h => by
    have hsame : ({} : Surroundings).behindContainer = {} := rfl
    simp only [Ty.expr, TypeExpr.resolveWith, hsame, resolveWith_expr (t := t) h]
  | .mapping k v, ⟨hk, hv⟩ => by
    have hsame : ({} : Surroundings).behindContainer = {} := rfl
    simp only [Ty.expr, TypeExpr.resolveWith, hsame, resolveWith_expr (t := k) hk,
      resolveWith_expr (t := v) hv]
  | .struct n ms, h => by
    have hn := SortedMap.mem_keys_of_lookup h
    rw [keys_of_readStructs htable] at hn
    obtain ⟨ms', hms', hread⟩ := readStructs_lookup raw.declarations_wordsOnly htable hn
    obtain rfl := Option.some.inj (h.symm.trans hms')
    exact hread
  | .structRef _, h => h.elim
  | .userDefined n .enum _, ⟨_, rfl⟩ => rfl
  | .userDefined n .contract _, ⟨_, rfl⟩ => rfl
  | .userDefined n .valueType _, ⟨hvt, _, hl, hu⟩ => hnames.lookUp_valueType hl hu hvt

include hnames htable in
/-- **The text of a declared type is read, as `Ty.reread` says.** -/
theorem ModelText.readType_spelling {t : Ty} (ht : t.Declared raw table) :
    raw.declarations.readType t.spelling = .ok t.reread := by
  unfold Declarations.readType
  rw [Ty.ofText_spelling (ht.spellable hnames htable)]
  exact ht.reread.resolveWith_expr hnames htable

include hnames htable in
/-- **The text of a declared type is read as the type exactly if no part of a mapping in it is
cut.** -/
theorem ModelText.readType_spelling_iff {t : Ty} (ht : t.Declared raw table) :
    raw.declarations.readType t.spelling = .ok t ↔ t.keepsParts := by
  rw [readType_spelling hnames htable ht, ← Ty.reread_eq_iff]
  exact ⟨fun h => Except.ok.inj h, fun h => by rw [h]⟩

end

/-! ## A document with types of all kinds -/

namespace Sample

def document : ModelText where
  contracts := [⟨"Token", [], []⟩]
  structs := [("S", [("a", "uint8"), ("kids", "S[]")])]
  enums := ["Status"]
  valueTypes := [("Price", "uint96")]

/-- `mapping(Price => struct S[2])[]` -/
def kept : Ty :=
  .dynamicArray (.mapping (.userDefined "Price" .valueType (.uint 96))
    (.fixedArray (.struct "S" members) 2))

/-- `mapping(enum Status => mapping(contract Token => function external)[])` -/
def cut : Ty :=
  .mapping (.enumeration "Status") (.dynamicArray (.mapping (.contract "Token") (.function true)))

theorem document_wellNamed : document.WellNamed := ⟨by decide +kernel, by decide +kernel⟩

theorem document_table : ModelText.readStructs document.declarations (document.structs.map (·.1)) =
    .ok [("S", members)] :=
  eq_ok_of_any_beq (by decide +kernel)

theorem readType_price : document.declarations.readType "uint96" = .ok (.uint 96) :=
  eq_ok_of_any_beq (by decide +kernel)

theorem kept_declared : kept.Declared document [("S", members)] :=
  ⟨⟨rfl, "uint96", rfl, readType_price⟩, rfl⟩

theorem cut_declared : cut.Declared document [("S", members)] :=
  ⟨⟨by decide, rfl⟩, ⟨by decide, rfl⟩, trivial⟩

end Sample

/-- One of the two types is read back, the other is not. -/
theorem ModelText.readType_spelling_iff_sample :
    Sample.document.declarations.readType Sample.kept.spelling = .ok Sample.kept ∧
      Sample.document.declarations.readType Sample.cut.spelling ≠ .ok Sample.cut := by
  have hiff {t : Ty} (ht : t.Declared Sample.document [("S", Sample.members)]) :=
    readType_spelling_iff Sample.document_wellNamed Sample.document_table ht
  refine ⟨(hiff Sample.kept_declared).2 rfl, fun h => ?_⟩
  exact absurd ((hiff Sample.cut_declared).1 h) (by decide)

end StorageAtlas
