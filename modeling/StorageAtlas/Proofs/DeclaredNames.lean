import StorageAtlas.Proofs.Containment
import StorageAtlas.Proofs.PathReading
import StorageAtlas.Proofs.Spelling
import StorageAtlas.Proofs.ValueTypes

/-!
# Declared names

A name alone stands for the struct of that name, else for the enum, else for the value type, else
for the contract (`ModelText.Denotes`).

Other things are looked for first. The words `mapping` and `function` are found wherever a text
begins with them, and zeros may stand in front of the width of a built-in type. So a name that
begins with one of the words, or is a built-in type but for such zeros, is never looked up
(`TakenAs`). All other names are, and stand for what is declared (`ModelText.readType_name`).
-/

namespace StorageAtlas

open Text TypeExpr

/-- The built-in types that are written as a single word. -/
def builtinNames : List String :=
  ["address", "bool", "string", "bytes", "byte", "uint", "int"] ++
    (List.range 32).flatMap fun k => ["uint" ++ decimal (8 * (k + 1)),
      "int" ++ decimal (8 * (k + 1)), "bytes" ++ decimal (k + 1)]

/-- The word and the number that a type with a width is written as. -/
def Elementary.parts? : Elementary → Option (String × Nat)
  | uint bits => some ("uint", bits.toNat)
  | int bits => some ("int", bits.toNat)
  | fixedBytes width => some ("bytes", width.toNat)
  | address | bool => none

/-- The name is that of the type with zeros in front of the width. -/
def Elementary.IsPadded (e : Elementary) (n : String) : Prop :=
  ∃ word width zeros, e.parts? = some (word, width) ∧ 0 < zeros ∧
    n.toList = word.toList ++ (List.replicate zeros '0' ++ digits 10 width)

/-- What a name is taken for before it is looked up. -/
inductive TakenAs (n : String) : Except TypeFault Ty → Prop
  | mapping : "mapping".toList <+: n.toList → TakenAs n (.error (.malformedMapping n))
  | function : "function".toList <+: n.toList → TakenAs n (.ok (.function false))
  | padded {e : Elementary} : e.Legal → e.IsPadded n → TakenAs n (.ok (.elementary e))

/-- The type that a document declares under a name, given that the texts behind it are types. -/
inductive ModelText.Denotes (raw : ModelText) (n : String) : Ty → Prop
  | struct {ms : List Member} : raw.declarations.readStruct n = .ok (.struct n ms) →
      raw.Denotes n (.struct n ms)
  | enum : n ∉ raw.structs.map (·.1) → n ∈ raw.enums → raw.Denotes n (.enumeration n)
  | valueType {text : String} {u : Ty} : n ∉ raw.structs.map (·.1) → n ∉ raw.enums →
      raw.valueTypes.lookup n = some text → raw.declarations.readType text = .ok u →
      u.isValueType → raw.Denotes n (.userDefined n .valueType u)
  | contract : n ∉ raw.structs.map (·.1) → n ∉ raw.enums → n ∉ raw.valueTypes.map (·.1) →
      n ∈ raw.contracts.map (·.name) → raw.Denotes n (.contract n)

/-- What a name is taken for is nothing that is declared. -/
theorem TakenAs.ne_denoted {raw : ModelText} {n : String} {x : Except TypeFault Ty} {t : Ty}
    (hx : TakenAs n x) (ht : raw.Denotes n t) : x ≠ .ok t := by
  rintro rfl
  cases hx with
  | function _ => cases ht
  | padded _ _ => cases ht

/-! ## Built-in types with a width -/

theorem spelling_mem_builtinNames {e : Elementary} (he : e.Legal) : e.spelling ∈ builtinNames := by
  have hmem {k : Nat} (hk : k < 32) {name : String} (h : name ∈ ["uint" ++ decimal (8 * (k + 1)),
      "int" ++ decimal (8 * (k + 1)), "bytes" ++ decimal (k + 1)]) : name ∈ builtinNames :=
    List.mem_append_right _ (List.mem_flatMap.2 ⟨k, List.mem_range.2 hk, h⟩)
  cases e with
  | uint bits =>
    obtain ⟨k, hk⟩ := exists_width he
    exact hmem k.isLt (by simp [Elementary.spelling, hk])
  | int bits =>
    obtain ⟨k, hk⟩ := exists_width he
    exact hmem k.isLt (by simp [Elementary.spelling, hk])
  | fixedBytes width =>
    obtain ⟨hpos, hle⟩ := he
    have hwidth : width.toNat - 1 + 1 = width.toNat := Nat.sub_add_cancel hpos
    exact hmem (k := width.toNat - 1) (by omega) (by simp [Elementary.spelling, hwidth])
  | address => decide
  | bool => decide

theorem Elementary.spelling_eq {e : Elementary} {word : String} {width : Nat}
    (h : e.parts? = some (word, width)) : e.spelling = word ++ decimal width := by
  cases e with
  | uint bits | int bits | fixedBytes bits =>
    obtain ⟨rfl, rfl⟩ := Prod.mk.inj (Option.some.inj h)
    rfl
  | address => exact nomatch h
  | bool => exact nomatch h

theorem Elementary.IsPadded.not_prefix {e : Elementary} {n : String} (h : e.IsPadded n) :
    ¬"mapping".toList <+: n.toList ∧ ¬"function".toList <+: n.toList := by
  obtain ⟨word, width, zeros, hparts, -, hzeros⟩ := h
  rw [hzeros]
  cases e with
  | uint bits | int bits | fixedBytes bits =>
    obtain ⟨rfl, rfl⟩ := Prod.mk.inj (Option.some.inj hparts)
    exact ⟨by simp, by simp⟩
  | address => exact nomatch hparts
  | bool => exact nomatch hparts

/-- Names are taken for something else by the word in front. -/
theorem TakenAs.exists_word {n : String} {x : Except TypeFault Ty} (hx : TakenAs n x) :
    ∃ word ∈ ["mapping", "function", "uint0", "int0", "bytes0"], word.toList <+: n.toList := by
  cases hx with
  | mapping h => exact ⟨_, by decide, h⟩
  | function h => exact ⟨_, by decide, h⟩
  | @padded e _ h =>
    obtain ⟨word, width, zeros, hparts, hpos, hzeros⟩ := h
    obtain ⟨zeros, rfl⟩ := Nat.exists_eq_succ_of_ne_zero (Nat.pos_iff_ne_zero.1 hpos)
    have hfront : (word ++ "0").toList <+: n.toList := by
      rw [hzeros, List.replicate_succ, String.toList_append]
      exact (List.prefix_append_right_inj _).2 ⟨_, rfl⟩
    refine ⟨word ++ "0", ?_, hfront⟩
    cases e with
    | uint bits | int bits | fixedBytes bits =>
      obtain ⟨rfl, rfl⟩ := Prod.mk.inj (Option.some.inj hparts)
      decide
    | address => exact nomatch hparts
    | bool => exact nomatch hparts

/-- The number that stands behind a word. -/
def readWidth (word : String) (limit : Nat) (cs : List Char) : Option Nat :=
  (word.toList.isPrefixOf? cs).bind fun rest => (readInteger 10 limit rest).toOption

theorem readWidth_eq_none {word : String} {cs : List Char} (h : ¬word.toList <+: cs) (limit : Nat) :
    readWidth word limit cs = none := by
  rw [readWidth, isPrefixOf?_eq_none h]
  rfl

section Names

variable {n : String} (hn : isIdentifier n.toList)

include hn

theorem isWordText_of_isIdentifier : IsWordText n.toList := by
  refine ⟨(isTight_of_isIdentifier hn).ne_nil, fun c hc => isNameChar_iff.2 ?_⟩
  have hchar := forall_of_isIdentifier hn c hc
  refine ⟨isBlank_of_identifierChar hchar, ?_⟩
  refine ⟨?_, ?_, ?_, ?_, ?_⟩
  all_goals
    rintro rfl
    exact absurd hchar (by decide)

theorem plus_not_mem : '+' ∉ n.toList := fun hc =>
  absurd (forall_of_isIdentifier hn _ hc) (by decide)

/-- A width is read behind a word, with zeros in front of it or without. -/
theorem readWidth_eq_some_iff {word : String} {limit width : Nat} (hlimit : 0 < limit) :
    readWidth word limit n.toList = some width ↔
      width < limit ∧ ∃ zeros,
        n.toList = word.toList ++ (List.replicate zeros '0' ++ digits 10 width) := by
  rw [readWidth, Option.bind_eq_some_iff]
  constructor
  · rintro ⟨rest, hrest, hwidth⟩
    have hrest := List.isPrefixOf?_eq_some_iff_append_eq.1 hrest
    have hplus : '+' ∉ rest := fun hc => plus_not_mem hn (hrest ▸ List.mem_append_right _ hc)
    obtain ⟨hlt, zeros, rfl⟩ := (readInteger_eq_ok_iff hlimit hplus).1 (eq_ok_of_toOption hwidth)
    exact ⟨hlt, zeros, hrest.symm⟩
  · rintro ⟨hlt, zeros, hzeros⟩
    have hplus : '+' ∉ List.replicate zeros '0' ++ digits 10 width := fun hc =>
      plus_not_mem hn (hzeros ▸ List.mem_append_right _ hc)
    refine ⟨_, List.isPrefixOf?_eq_some_iff_append_eq.2 hzeros.symm, ?_⟩
    rw [(readInteger_eq_ok_iff hlimit hplus).2 ⟨hlt, zeros, rfl⟩]
    rfl

section Own

variable (hown : n ∉ builtinNames)

include hown

/-- Zeros stand in front of a width, since the name is not that of the type itself. -/
theorem isPadded_of_readWidth {e : Elementary} (he : e.Legal) {word : String} {limit width : Nat}
    (hlimit : 0 < limit) (hparts : e.parts? = some (word, width))
    (hread : readWidth word limit n.toList = some width) : e.IsPadded n := by
  obtain ⟨-, zeros, hzeros⟩ := (readWidth_eq_some_iff hn hlimit).1 hread
  refine ⟨word, width, zeros, hparts, Nat.pos_of_ne_zero fun hzero => hown ?_, hzeros⟩
  have hself : n = e.spelling := by
    apply String.toList_inj.1
    rw [e.spelling_eq hparts, hzeros, hzero, String.toList_append, decimal, String.toList_ofList]
    rfl
  exact hself ▸ spelling_mem_builtinNames he

theorem builtin?_eq_widths : builtin? n.toList =
    match readWidth "uint" UInt16.size n.toList, readWidth "int" UInt16.size n.toList,
      readWidth "bytes" UInt8.size n.toList with
    | some bits, _, _ => if isIntegerWidth bits then some (.uint (UInt16.ofNat bits)) else none
    | none, some bits, _ => if isIntegerWidth bits then some (.int (UInt16.ofNat bits)) else none
    | none, none, some w => if 1 ≤ w ∧ w ≤ 32 then some (.fixedBytes (UInt8.ofNat w)) else none
    | none, none, none => none := by
  have hne {word : String} (hword : word ∈ builtinNames) : String.ofList n.toList ≠ word := by
    rintro rfl
    rw [String.ofList_toList] at hword
    exact hown hword
  have hpayable : String.ofList n.toList ≠ "address payable" := by
    intro heq
    rw [String.ofList_toList] at heq
    exact (isWordText_of_isIdentifier hn).blank_not_mem (heq ▸ by decide)
  unfold builtin?
  rw [if_neg (not_or.2 ⟨hne (by decide), hpayable⟩), if_neg (hne (by decide)),
    if_neg (hne (by decide)), if_neg (hne (by decide)), if_neg (hne (by decide)),
    if_neg (hne (by decide)), if_neg (hne (by decide))]
  rfl

theorem exists_isPadded_of_builtin? {t : Ty} (h : builtin? n.toList = some t) :
    ∃ e : Elementary, e.Legal ∧ e.IsPadded n ∧ t = .elementary e := by
  rw [builtin?_eq_widths hn hown] at h
  have hlt {word : String} {limit width : Nat} (hlimit : 0 < limit)
      (hread : readWidth word limit n.toList = some width) : width < limit :=
    ((readWidth_eq_some_iff hn hlimit).1 hread).1
  have hpadded {e : Elementary} := isPadded_of_readWidth (e := e) hn hown
  split at h
  · next width hread =>
    obtain ⟨bits, rfl⟩ : ∃ bits : UInt16, bits.toNat = width :=
      ⟨_, UInt16.toNat_ofNat_of_lt (hlt (by decide) hread)⟩
    obtain ⟨hlegal, ht⟩ := Option.ite_none_right_eq_some.1 h
    rw [UInt16.ofNat_toNat] at ht
    exact ⟨.uint bits, hlegal, hpadded hlegal (by decide) rfl hread, (Option.some.inj ht).symm⟩
  · next width _ hread =>
    obtain ⟨bits, rfl⟩ : ∃ bits : UInt16, bits.toNat = width :=
      ⟨_, UInt16.toNat_ofNat_of_lt (hlt (by decide) hread)⟩
    obtain ⟨hlegal, ht⟩ := Option.ite_none_right_eq_some.1 h
    rw [UInt16.ofNat_toNat] at ht
    exact ⟨.int bits, hlegal, hpadded hlegal (by decide) rfl hread, (Option.some.inj ht).symm⟩
  · next width _ _ hread =>
    obtain ⟨bytes, rfl⟩ : ∃ bytes : UInt8, bytes.toNat = width :=
      ⟨_, UInt8.toNat_ofNat_of_lt (hlt (by decide) hread)⟩
    obtain ⟨hlegal, ht⟩ := Option.ite_none_right_eq_some.1 h
    rw [UInt8.ofNat_toNat] at ht
    exact ⟨.fixedBytes bytes, hlegal, hpadded hlegal (by decide) rfl hread,
      (Option.some.inj ht).symm⟩
  · exact nomatch h

theorem builtin?_of_isPadded {e : Elementary} (he : e.Legal) (h : e.IsPadded n) :
    builtin? n.toList = some (.elementary e) := by
  obtain ⟨word, width, zeros, hparts, -, hzeros⟩ := h
  have hread {limit : Nat} (hlt : width < limit) : readWidth word limit n.toList = some width :=
    (readWidth_eq_some_iff hn (Nat.zero_lt_of_lt hlt)).2 ⟨hlt, zeros, hzeros⟩
  rw [builtin?_eq_widths hn hown]
  cases e with
  | uint bits =>
    obtain ⟨rfl, rfl⟩ := Prod.mk.inj (Option.some.inj hparts)
    have hlegal : isIntegerWidth bits.toNat := he
    simp only [hread bits.toNat_lt, hlegal, ↓reduceIte, UInt16.ofNat_toNat]
  | int bits =>
    obtain ⟨rfl, rfl⟩ := Prod.mk.inj (Option.some.inj hparts)
    have hlegal : isIntegerWidth bits.toNat := he
    have hnone : ¬"uint".toList <+: n.toList := by rw [hzeros]; simp
    simp only [hread bits.toNat_lt, readWidth_eq_none hnone, hlegal, ↓reduceIte,
      UInt16.ofNat_toNat]
  | fixedBytes width =>
    obtain ⟨rfl, rfl⟩ := Prod.mk.inj (Option.some.inj hparts)
    have hlegal : 1 ≤ width.toNat ∧ width.toNat ≤ 32 := he
    have huint : ¬"uint".toList <+: n.toList := by rw [hzeros]; simp
    have hint : ¬"int".toList <+: n.toList := by rw [hzeros]; simp
    simp only [hread width.toNat_lt, readWidth_eq_none huint, readWidth_eq_none hint]
    rw [if_pos hlegal, UInt8.ofNat_toNat]
  | address => exact nomatch hparts
  | bool => exact nomatch hparts

end Own

/-! ## How a name is cut -/

theorem ofText_of_mapping (h : "mapping".toList <+: n.toList) :
    ofText n.toList = .bad (.malformedMapping n) := by
  have hword := isWordText_of_isIdentifier hn
  obtain ⟨behind, hbehind⟩ := h
  have hcut : cutOf (trim n.toList) = .mapping behind := by
    have hfound : ("mapping".toList).isPrefixOf? n.toList = some behind :=
      List.isPrefixOf?_eq_some_iff_append_eq.2 hbehind
    rw [hword.tight.trim_eq, cutOf, if_neg (by simpa using hword.ne_nil),
      if_neg hword.getLast?_ne, hfound]
  have hopen : insideParentheses? behind = none := by
    have hnone : '(' ∉ trim behind := fun hc => by
      have hmem : '(' ∈ n.toList :=
        hbehind ▸ List.mem_append_right _ ((trim_sublist behind).subset hc)
      exact (isNameChar_iff.1 (hword.chars _ hmem)).2.1 rfl
    unfold insideParentheses?
    split
    · next htrim => exact absurd (htrim ▸ List.mem_cons_self) hnone
    · rfl
  rw [ofText]
  split
  all_goals rename_i hc; rw [hcut] at hc; cases hc
  split
  · rw [hword.tight.trim_eq, String.ofList_toList]
  · next hsome => exact nomatch hopen.symm.trans hsome

theorem ofText_of_function (h : "function".toList <+: n.toList) :
    ofText n.toList = .builtin (.function false) := by
  have hword := isWordText_of_isIdentifier hn
  have hm : ¬"mapping".toList <+: n.toList := fun hm =>
    absurd (List.prefix_of_prefix_length_le hm h (by decide)) (by decide)
  have hwords : words n.toList = [n.toList] := by
    have hsplit : n.toList.splitOnP isBlank = [n.toList] :=
      List.splitOnP_eq_singleton fun c hc => by
        simp [(isNameChar_iff.1 (hword.chars c hc)).1]
    rw [words, hsplit]
    simp [hword.ne_nil]
  have hinternal : [n.toList].contains "external".toList = false := by
    rw [List.contains_eq_mem, decide_eq_false_iff_not, List.mem_singleton]
    intro heq
    rw [← heq] at h
    exact absurd h (by decide)
  rw [ofText_word hword.tight hword.getLast?_ne hm, ofWord,
    if_pos (List.isPrefixOf_iff_prefix.2 h), hwords, hinternal]

theorem ofText_of_name (hm : ¬"mapping".toList <+: n.toList)
    (hf : ¬"function".toList <+: n.toList) (hb : builtin? n.toList = none) :
    ofText n.toList = .name n := by
  have hword := isWordText_of_isIdentifier hn
  rw [ofText_word hword.tight hword.getLast?_ne hm, hword.ofWord_eq_name hf hb]

theorem ofText_of_isPadded (hown : n ∉ builtinNames) {e : Elementary} (he : e.Legal)
    (h : e.IsPadded n) : ofText n.toList = .builtin (.elementary e) := by
  have hword := isWordText_of_isIdentifier hn
  have hf : ¬("function".toList).isPrefixOf n.toList := fun hf =>
    h.not_prefix.2 (List.isPrefixOf_iff_prefix.1 hf)
  rw [ofText_word hword.tight hword.getLast?_ne h.not_prefix.1, ofWord, if_neg hf,
    builtin?_of_isPadded hn hown he h]

end Names

/-! ## What a name stands for -/

namespace ModelText

variable {raw : ModelText} {n : String} {t : Ty}

theorem lookup_structs_eq_none : raw.declarations.structs.lookup n = none ↔
    n ∉ raw.structs.map (·.1) := by
  rw [lookup_eq_none_iff_keys, declarations, List.map_map]
  rfl

theorem lookup_valueTypes : raw.declarations.valueTypes.lookup n =
    (raw.valueTypes.lookup n).map fun text => TypeExpr.ofText text.toList :=
  SortedMap.lookup_map (fun text : String => TypeExpr.ofText text.toList) n raw.valueTypes

theorem exists_nesting_eq_succ : ∃ depth, raw.declarations.nesting = depth + 1 :=
  Nat.exists_eq_succ_of_ne_zero (Nat.mul_ne_zero (Nat.succ_ne_zero _) (Nat.succ_ne_zero _))

theorem mem_structs_of_readStruct (h : raw.declarations.readStruct n = .ok t) :
    n ∈ raw.structs.map (·.1) := by
  obtain ⟨depth, hopen⟩ := openStruct_of_readStruct h
  obtain ⟨-, fields, -, hfields, -⟩ := openStruct_eq_ok hopen
  by_contra hs
  exact nomatch (lookup_structs_eq_none.2 hs).symm.trans hfields

/-- The name of a struct stands for its definition. -/
theorem lookUp_struct (hs : n ∈ raw.structs.map (·.1)) :
    raw.declarations.lookUp raw.declarations.nesting {} (.bare n) =
      raw.declarations.readStruct n := by
  obtain ⟨depth, hdepth⟩ := @exists_nesting_eq_succ raw
  have hsome : (raw.declarations.structs.lookup n).isSome :=
    Option.isSome_iff_ne_none.2 fun hnone => lookup_structs_eq_none.1 hnone hs
  simp only [Declarations.readStruct, hdepth, Declarations.lookUp, hsome, ↓reduceIte]

/-- **A name that is looked up stands for what is declared.** -/
theorem lookUp_eq_ok_iff_denotes :
    raw.declarations.lookUp raw.declarations.nesting {} (.bare n) = .ok t ↔ raw.Denotes n t := by
  obtain ⟨depth, hdepth⟩ := @exists_nesting_eq_succ raw
  have hd := raw.declarations_wordsOnly
  by_cases hs : n ∈ raw.structs.map (·.1)
  · rw [lookUp_struct hs]
    constructor
    · intro h
      obtain ⟨ms, rfl⟩ := readStruct_eq_struct h
      exact .struct h
    · rintro (h | h | h | h)
      · exact h
      all_goals exact absurd hs h
  · have hnone := lookup_structs_eq_none.2 hs
    constructor
    · intro h
      rw [hdepth] at h
      rcases lookUp_bare_of_not_struct hnone h with
        ⟨he, rfl⟩ | ⟨he, f, u, hf, hu, hvt, rfl⟩ | ⟨he, hf, hc, rfl⟩
      · exact .enum hs he
      · rw [lookup_valueTypes, Option.map_eq_some_iff] at hf
        obtain ⟨text, htext, rfl⟩ := hf
        exact .valueType hs he htext (resolveWith_nesting hd (ofText_wordsOnly _) hu hvt) hvt
      · rw [lookup_valueTypes, Option.map_eq_none_iff, lookup_eq_none_iff_keys] at hf
        exact .contract hs he hf hc
    · intro h
      cases h with
      | struct h => exact absurd (mem_structs_of_readStruct h) hs
      | enum _ he =>
        have he : n ∈ raw.declarations.enums := he
        simp only [hdepth, Declarations.lookUp, hnone, he, Option.isSome_none, Bool.false_eq_true,
          ↓reduceIte]
      | valueType _ he htext hu hvt =>
        exact lookUp_valueType hd hnone he (by rw [lookup_valueTypes, htext]; rfl) hu hvt
      | contract _ he hv hc =>
        have he : n ∉ raw.declarations.enums := he
        have hc : n ∈ raw.declarations.contracts := hc
        have hv : raw.declarations.valueTypes.lookup n = none := by
          rw [lookup_valueTypes, lookup_eq_none_iff_keys.2 hv]
          rfl
        simp only [hdepth, Declarations.lookUp, hnone, he, hv, hc, Option.isSome_none,
          Bool.false_eq_true, ↓reduceIte]

/-- The struct of a name is the one in the table of the model. -/
theorem denotes_struct_iff {m : Model} (h : raw.read = .ok m) {ms : List Member} :
    raw.Denotes n (.struct n ms) ↔ m.structs.lookup n = some ms := by
  have htable : readStructs raw.declarations (raw.structs.map (·.1)) = .ok m.structs := by
    simp only [read] at h
    split at h
    · cases h
    · next hs =>
      split at h
      · cases h
      · obtain rfl := Except.ok.inj h
        exact hs
  constructor
  · rintro (hread | _)
    obtain ⟨ms', hms', hread'⟩ := readStructs_lookup raw.declarations_wordsOnly htable
      (mem_structs_of_readStruct hread)
    obtain rfl := (Ty.struct.inj (Except.ok.inj (hread.symm.trans hread'))).2
    exact hms'
  · intro hms
    have hs := SortedMap.mem_keys_of_lookup hms
    rw [keys_of_readStructs htable] at hs
    obtain ⟨ms', hms', hread⟩ := readStructs_lookup raw.declarations_wordsOnly htable hs
    obtain rfl := Option.some.inj (hms.symm.trans hms')
    exact .struct hread

/-- **A declared name alone stands for what is declared**: the struct of that name, which is then
the one in the table, else the enum, else the value type, else the contract. This is where it is no
built-in type, does not begin with the word `mapping` or `function`, and does not become a built-in
type when zeros are taken away from it; such names stand for what they are taken for. -/
theorem readType_name (hn : isIdentifier n.toList) (hown : n ∉ builtinNames) :
    ((¬∃ x, TakenAs n x) → ∀ t, raw.declarations.readType n = .ok t ↔ raw.Denotes n t) ∧
    (∀ x, TakenAs n x →
      raw.declarations.readType n = x ∧ ∀ t, raw.Denotes n t → x ≠ .ok t) ∧
    ∀ m, raw.read = .ok m → ∀ ms, raw.Denotes n (.struct n ms) ↔ m.structs.lookup n = some ms := by
  refine ⟨fun hfree t => ?_, fun x hx => ⟨?_, fun t ht => hx.ne_denoted ht⟩,
    fun m hm ms => denotes_struct_iff hm⟩
  · have hb : builtin? n.toList = none := by
      refine Option.eq_none_iff_forall_ne_some.2 fun u hu => hfree ?_
      obtain ⟨e, he, hpadded, -⟩ := exists_isPadded_of_builtin? hn hown hu
      exact ⟨_, .padded he hpadded⟩
    have htext : ofText n.toList = .name n :=
      ofText_of_name hn (fun h => hfree ⟨_, .mapping h⟩) (fun h => hfree ⟨_, .function h⟩) hb
    rw [Declarations.readType, htext]
    exact lookUp_eq_ok_iff_denotes
  · rw [Declarations.readType]
    cases hx with
    | mapping h => rw [ofText_of_mapping hn h]; rfl
    | function h => rw [ofText_of_function hn h]; rfl
    | padded he h => rw [ofText_of_isPadded hn hown he h]; rfl

end ModelText

namespace Sample

/-- A document in which some names begin as built-in types and mappings do. -/
def oddNames : ModelText where
  contracts := [⟨"interfaceRegistry", [], []⟩, ⟨"Price", [], []⟩]
  structs := [("functionTable", [("a", "uint256"), ("b", "uint256")]), ("integers", [("i", "int")])]
  enums := ["mappingKind", "uint08"]
  valueTypes := [("Price", "uint96")]

def functionTable : Ty := .struct "functionTable" [("a", .uint 256), ("b", .uint 256)]

theorem integers_denoted : oddNames.Denotes "integers" (.struct "integers" [("i", .int 256)]) :=
  .struct (eq_ok_of_any_beq (by decide +kernel))

theorem price_denoted : oddNames.Denotes "Price" (.userDefined "Price" .valueType (.uint 96)) := by
  have htext : oddNames.valueTypes.lookup "Price" = some "uint96" := rfl
  exact .valueType (by decide) (by decide) htext (eq_ok_of_any_beq (by decide +kernel)) rfl

theorem interfaceRegistry_denoted :
    oddNames.Denotes "interfaceRegistry" (.contract "interfaceRegistry") :=
  .contract (by decide) (by decide) (by decide) (by decide)

theorem uint08_taken : TakenAs "uint08" (.ok (.uint 8)) :=
  .padded rfl ⟨"uint", 8, 1, rfl, by decide, by decide⟩

end Sample

/-- Three names stand for what is declared and three for something else. -/
theorem ModelText.readType_name_odd :
    Sample.oddNames.declarations.readType "integers" = .ok (.struct "integers" [("i", .int 256)]) ∧
    Sample.oddNames.declarations.readType "Price" =
      .ok (.userDefined "Price" .valueType (.uint 96)) ∧
    Sample.oddNames.declarations.readType "interfaceRegistry" =
      .ok (.contract "interfaceRegistry") ∧
    Sample.oddNames.declarations.readType "functionTable" = .ok (.function false) ∧
    Sample.oddNames.declarations.readType "mappingKind" =
      .error (.malformedMapping "mappingKind") ∧
    Sample.oddNames.declarations.readType "uint08" = .ok (.uint 8) := by
  have hname {n : String} (hn : isIdentifier n.toList) (hown : n ∉ builtinNames) :=
    @readType_name Sample.oddNames n hn hown
  have hfree {n : String} (h : ∀ word ∈ ["mapping", "function", "uint0", "int0", "bytes0"],
      ¬word.toList <+: n.toList) : ¬∃ x, TakenAs n x := fun ⟨x, hx⟩ => by
    obtain ⟨word, hword, hfront⟩ := hx.exists_word
    exact h word hword hfront
  refine ⟨?_, ?_, ?_, ?_, ?_, ?_⟩
  · exact ((hname (by decide) (by decide +kernel)).1 (hfree (by decide +kernel)) _).2
      Sample.integers_denoted
  · exact ((hname (by decide) (by decide +kernel)).1 (hfree (by decide +kernel)) _).2
      Sample.price_denoted
  · exact ((hname (by decide) (by decide +kernel)).1 (hfree (by decide +kernel)) _).2
      Sample.interfaceRegistry_denoted
  · exact ((hname (by decide) (by decide +kernel)).2.1 _ (.function (by decide))).1
  · exact ((hname (by decide) (by decide +kernel)).2.1 _ (.mapping (by decide))).1
  · exact ((hname (by decide) (by decide +kernel)).2.1 _ Sample.uint08_taken).1

/-- The struct is declared, but its name is taken for a reference to code. -/
theorem ModelText.readType_functionTable : isIdentifier "functionTable".toList ∧
    "functionTable" ∉ builtinNames ∧
    Sample.oddNames.Denotes "functionTable" Sample.functionTable ∧
    Sample.oddNames.declarations.readType "functionTable" = .ok (.function false) :=
  ⟨by decide, by decide +kernel, .struct (eq_ok_of_any_beq (by decide +kernel)),
    eq_ok_of_any_beq (by decide +kernel)⟩

end StorageAtlas
