import Mathlib.Algebra.Group.Nat.Defs
import StorageAtlas.Proofs.Containment
import StorageAtlas.Proofs.DeclaredTypes

/-!
# A grammar of types

Which texts are types is said here without cutting them (`TypeText`), together with the struct that
such a text holds in place. The grammar leaves open what may stand in the brackets of an array and
between two words (`Lexicon`); for decimal lengths of 64 bits and plain blanks, every text of the
grammar is read (`TypeText.reads`).
-/

namespace StorageAtlas

open Text TypeExpr Relation

/-! ## Words and numbers -/

/-- The text with white space on both sides. -/
def Padded (cs ds : List Char) : Prop :=
  ∃ bs bs', IsBlankText bs ∧ IsBlankText bs' ∧ ds = bs ++ cs ++ bs'

/-- What a language lets stand in the brackets of an array, and between two words. -/
structure Lexicon where
  length : List Char → Prop
  gap : List Char → Prop
  /-- Between a name and the word that says what it names. In a part of a mapping without the name
  of a parameter this may be less than elsewhere. -/
  kindGap : (unnamed : Bool) → List Char → Prop

/-- Numbers of a word in decimal or hexadecimal digits, and any white space. -/
def Lexicon.source : Lexicon where
  length inside :=
    ∃ n < 2 ^ 256, Padded (digits 10 n) inside ∨ Padded ("0x".toList ++ digits 16 n) inside
  gap bs := bs ≠ [] ∧ IsBlankText bs
  kindGap _ bs := bs ≠ [] ∧ IsBlankText bs

/-- Numbers of 64 bits in decimal digits, and one blank. In front of a name other white space may
follow the blank, and further blanks too unless an unnamed part of a mapping would be cut there. -/
def Lexicon.plain : Lexicon where
  length inside := ∃ n < UInt64.size, Padded (digits 10 n) inside
  gap bs := bs = [' ']
  kindGap unnamed gap := ∃ bs, gap = ' ' :: bs ∧ IsBlankText bs ∧ (unnamed → ' ' ∉ bs)

/-! ## Types -/

/-- Elementary types, and their short and long names. -/
inductive ElementaryText (lex : Lexicon) : List Char → Prop
  | spelled {e : Elementary} : e.Legal → ElementaryText lex e.spelling.toList
  | short {word : String} : word ∈ ["uint", "int", "byte"] → ElementaryText lex word.toList
  | payable {gap : List Char} : lex.gap gap →
      ElementaryText lex ("address".toList ++ (gap ++ "payable".toList))

/-- What follows the word `function`: parentheses and brackets stand in pairs, brackets around
lengths, and arrows only in parentheses. -/
inductive FunctionTail (lex : Lexicon) : Bool → List Char → Prop
  | nil {nested : Bool} : FunctionTail lex nested []
  | char {nested : Bool} {c : Char} {cs : List Char} : c ≠ '(' → c ≠ ')' → c ≠ '[' → c ≠ ']' →
      (c = '=' → nested) → FunctionTail lex nested cs → FunctionTail lex nested (c :: cs)
  | parens {nested : Bool} {cs ds : List Char} : FunctionTail lex true cs →
      FunctionTail lex nested ds → FunctionTail lex nested ('(' :: (cs ++ ')' :: ds))
  | brackets {nested : Bool} {inside ds : List Char} : IsBlankText inside ∨ lex.length inside →
      FunctionTail lex nested ds → FunctionTail lex nested ('[' :: (inside ++ ']' :: ds))

/-- What may follow the type of a part of a mapping: nothing, or a name. -/
def ParameterText (lex : Lexicon) (cs : List Char) : Prop :=
  cs = [] ∨ ∃ gap name bs, lex.gap gap ∧ IsWordText name ∧ name ≠ "payable".toList ∧
    IsBlankText bs ∧ cs = gap ++ (name ++ bs)

/-- The texts of types, each with the struct that it is, or is a fixed array of. A type that is a
part of a mapping without the name of a parameter is `unnamed`. -/
inductive TypeText (raw : ModelText) (lex : Lexicon) :
    (unnamed : Bool) → List Char → Option String → Prop
  | elementary {unnamed : Bool} {cs : List Char} : ElementaryText lex cs →
      TypeText raw lex unnamed cs none
  | bytes {unnamed : Bool} : TypeText raw lex unnamed "bytes".toList none
  | string {unnamed : Bool} : TypeText raw lex unnamed "string".toList none
  | function {unnamed : Bool} {cs : List Char} : FunctionTail lex false cs →
      TypeText raw lex unnamed ("function".toList ++ cs) none
  | struct {unnamed : Bool} {n : String} {gap : List Char} : n ∈ raw.structs.map (·.1) →
      lex.kindGap unnamed gap →
      TypeText raw lex unnamed ("struct".toList ++ (gap ++ n.toList)) (some n)
  | enum {unnamed : Bool} {n : String} {gap : List Char} : n ∈ raw.enums →
      lex.kindGap unnamed gap → TypeText raw lex unnamed ("enum".toList ++ (gap ++ n.toList)) none
  | contract {unnamed : Bool} {n word : String} {gap : List Char} :
      n ∈ raw.contracts.map (·.name) → word ∈ ["contract", "interface"] → lex.kindGap unnamed gap →
      TypeText raw lex unnamed (word.toList ++ (gap ++ n.toList)) none
  | structName {unnamed : Bool} {n : String} : n ∈ raw.structs.map (·.1) →
      TypeText raw lex unnamed n.toList (some n)
  | name {unnamed : Bool} {n : String} : n ∈ raw.typeNames → n ∉ raw.structs.map (·.1) →
      TypeText raw lex unnamed n.toList none
  | padded {unnamed : Bool} {cs ds : List Char} {held : Option String} : Padded cs ds →
      TypeText raw lex unnamed cs held → TypeText raw lex unnamed ds held
  | fixedArray {unnamed : Bool} {cs inside : List Char} {held : Option String} :
      lex.length inside → TypeText raw lex false cs held →
      TypeText raw lex unnamed (cs ++ '[' :: (inside ++ [']'])) held
  | dynamicArray {unnamed : Bool} {cs inside : List Char} {held : Option String} :
      IsBlankText inside → TypeText raw lex false cs held →
      TypeText raw lex unnamed (cs ++ '[' :: (inside ++ [']'])) none
  | mapping {unnamed : Bool} {bs key value keyName valueName : List Char}
      {inKey inValue : Option String} : IsBlankText bs →
      TypeText raw lex keyName.isEmpty key inKey → ParameterText lex keyName →
      TypeText raw lex valueName.isEmpty value inValue → ParameterText lex valueName →
      TypeText raw lex unnamed (mappingText bs (key ++ keyName) (value ++ valueName)) none

/-- All types of the document are texts of the grammar, value types wrap elementary types, and no
struct is empty. Names are words that neither begin as built-in types nor say what a name names. -/
structure ModelText.WellTyped (raw : ModelText) (lex : Lexicon) : Prop where
  names : ∀ n ∈ raw.typeNames, IsTypeName n ∧ n.toList ∉ kindWords
  members : ∀ s ∈ raw.structs, s.2 ≠ []
  fields : ∀ s ∈ raw.structs, ∀ f ∈ s.2, ∃ held, TypeText raw lex false f.2.toList held
  declared : ∀ c ∈ raw.contracts, ∀ v ∈ c.declared,
    ∃ held, TypeText raw lex false v.type.toList held
  valueTypes : ∀ v ∈ raw.valueTypes, ∃ cs, ElementaryText lex cs ∧ Padded cs v.2.toList

/-- A member of the first struct is the second, or a fixed array of it at any depth. -/
def ModelText.Contains (raw : ModelText) (lex : Lexicon) (outer inner : String) : Prop :=
  ∃ fields, raw.structs.lookup outer = some fields ∧
    ∃ f ∈ fields, TypeText raw lex false f.2.toList (some inner)

def ModelText.Cyclic (raw : ModelText) (lex : Lexicon) : Prop :=
  ∃ n, TransGen (raw.Contains lex) n n

/-! ## White space -/

section White

variable {cs ds : List Char}

theorem Padded.trim_eq (h : Padded cs ds) : trim ds = trim cs := by
  obtain ⟨bs, bs', hb, hb', rfl⟩ := h
  rw [trim_append_right hb', trim_append_left hb]

theorem Padded.passes (h : Padded cs ds) (hp : Passes cs) : Passes ds := by
  obtain ⟨bs, bs', hb, hb', rfl⟩ := h
  exact ((Passes.of_blank hb).append hp).append (.of_blank hb')

theorem Padded.unmarked (h : Padded cs ds) (hu : IsUnmarked cs) : IsUnmarked ds := by
  obtain ⟨bs, bs', hb, hb', rfl⟩ := h
  exact ((isUnmarked_of_blank hb).append hu).append (isUnmarked_of_blank hb')

end White

/-- **What may stand in brackets is read**, and tells the array from a dynamic one. -/
theorem Lexicon.plain_length {inside : List Char} (h : plain.length inside) :
    IsUnmarked inside ∧ ∃ length, readLength inside = .ok (some length) := by
  obtain ⟨n, hn, hpad⟩ := h
  refine ⟨hpad.unmarked (digits_unmarked n), UInt64.ofNat n, ?_⟩
  have hread := readLength_digits (UInt64.ofNat n)
  rw [UInt64.toNat_ofNat_of_lt' hn] at hread
  rw [readLength_congr hpad.trim_eq, hread]

theorem readLength_blank {inside : List Char} (h : IsBlankText inside) :
    readLength inside = .ok none := by
  have htrim : trim inside = trim [] := by
    rw [← List.append_nil inside, trim_append_left h]
  rw [readLength_congr htrim, readLength_nil]

/-- A length, or none. -/
theorem exists_readLength {inside : List Char}
    (h : IsBlankText inside ∨ Lexicon.plain.length inside) :
    IsUnmarked inside ∧ ∃ length?, readLength inside = .ok length? := by
  cases h with
  | inl hb => exact ⟨isUnmarked_of_blank hb, none, readLength_blank hb⟩
  | inr hl =>
    obtain ⟨hu, length, hread⟩ := Lexicon.plain_length hl
    exact ⟨hu, some length, hread⟩

/-! ## References to code -/

theorem split_cons {ys before after : List Char} {c d : Char} (hc : c ≠ d)
    (h : c :: ys = before ++ d :: after) :
    ∃ more, before = c :: more ∧ ys = more ++ d :: after := by
  cases before with
  | nil => exact absurd (List.cons.inj h).1 hc
  | cons e before =>
    obtain ⟨rfl, hys⟩ := List.cons.inj h
    exact ⟨before, rfl, hys⟩

/-- Where in two joined texts a character stands. -/
theorem split_append_cons {xs ys before after : List Char} {c d : Char}
    (h : xs ++ c :: ys = before ++ d :: after) :
    (∃ more, xs = before ++ d :: more) ∨ (before = xs ∧ c = d) ∨
      ∃ more, before = xs ++ c :: more ∧ ys = more ++ d :: after := by
  rcases List.append_eq_append_iff.1 h with ⟨more, rfl, htail⟩ | ⟨more, rfl, htail⟩
  · cases more with
    | nil => exact .inr (.inl ⟨by simp, (List.cons.inj htail).1⟩)
    | cons e more =>
      obtain ⟨rfl, hys⟩ := List.cons.inj htail
      exact .inr (.inr ⟨more, rfl, hys⟩)
  · cases more with
    | nil => exact .inr (.inl ⟨by simp, (List.cons.inj htail).1.symm⟩)
    | cons e more =>
      obtain ⟨rfl, -⟩ := List.cons.inj htail
      exact .inl ⟨more, rfl⟩

namespace FunctionTail

theorem passes_nested {lex : Lexicon} {nested : Bool} {cs : List Char}
    (h : FunctionTail lex nested cs) (hlength : ∀ {inside}, lex.length inside → IsUnmarked inside) :
    ∀ (depth : Int) (before rest : List Char), 0 ≤ depth → (nested → 0 < depth) →
      cutAtArrow depth before (cs ++ rest) = cutAtArrow depth (cs.reverse ++ before) rest := by
  induction h with
  | nil => intro _ _ _ _ _; rfl
  | char hopen hclose _ _ heq _ ih =>
    intro depth before rest hdepth hnested
    have hne : _ = '=' → depth ≠ 0 := fun h => by
      have := hnested (heq h)
      omega
    rw [List.cons_append, cutAtArrow_cons hopen hclose hne, ih _ _ _ hdepth hnested]
    simp
  | parens _ _ ihIn ihOut =>
    intro depth before rest hdepth hnested
    rw [List.cons_append, cutAtArrow_open, List.append_assoc, List.cons_append,
      ihIn _ _ _ (by omega) (by omega), cutAtArrow_close, ihOut _ _ _ hdepth hnested]
    simp
  | @brackets nested inside ds hinside _ ih =>
    intro depth before rest hdepth hnested
    have hu : IsUnmarked inside := hinside.elim isUnmarked_of_blank hlength
    have hpass : Passes ('[' :: (inside ++ [']'])) := by
      have hnil : Passes [] := .of_unmarked isUnmarked_nil
      exact hnil.suffix hu
    have hjoin : '[' :: (inside ++ ']' :: ds) ++ rest =
        '[' :: (inside ++ [']']) ++ (ds ++ rest) := by
      simp
    rw [hjoin, hpass _ _ _ hdepth, ih _ _ _ hdepth hnested]
    simp

variable {cs : List Char} (h : FunctionTail .plain false cs)

include h in
theorem passes : Passes cs := fun depth before rest hdepth =>
  h.passes_nested (fun hl => (Lexicon.plain_length hl).1) depth before rest hdepth nofun

/-- Every closing bracket closes a length. -/
theorem exists_open {nested : Bool} {cs : List Char} (h : FunctionTail .plain nested cs) :
    ∀ {before after : List Char}, cs = before ++ ']' :: after →
      ∃ front inside, before = front ++ '[' :: inside ∧
        (IsBlankText inside ∨ Lexicon.plain.length inside) := by
  induction h with
  | nil => intro before after heq; exact absurd heq (by simp)
  | @char nested c cs _ _ _ hclose _ _ ih =>
    intro before after heq
    obtain ⟨more, rfl, hcs⟩ := split_cons hclose heq
    obtain ⟨front, inside, rfl, hin⟩ := ih hcs
    exact ⟨c :: front, inside, rfl, hin⟩
  | @parens nested cs ds _ _ ihIn ihOut =>
    intro before after heq
    obtain ⟨more, rfl, hrest⟩ := split_cons (by decide) heq
    rcases split_append_cons hrest with ⟨_, hcs⟩ | ⟨-, hc⟩ | ⟨more, rfl, hds⟩
    · obtain ⟨front, inside, rfl, hin⟩ := ihIn hcs
      exact ⟨'(' :: front, inside, rfl, hin⟩
    · exact absurd hc (by decide)
    · obtain ⟨front, inside, rfl, hin⟩ := ihOut hds
      exact ⟨'(' :: (cs ++ ')' :: front), inside, by simp, hin⟩
  | @brackets nested inside ds hinside _ ih =>
    intro before after heq
    obtain ⟨more, rfl, hrest⟩ := split_cons (by decide) heq
    rcases split_append_cons hrest with ⟨_, rfl⟩ | ⟨rfl, -⟩ | ⟨more, rfl, hds⟩
    · exact absurd rfl ((exists_readLength hinside).1 ']' (by simp)).2.2.2.1
    · exact ⟨[], more, rfl, hinside⟩
    · obtain ⟨front, inside', rfl, hin⟩ := ih hds
      exact ⟨'[' :: (inside ++ ']' :: front), inside', by simp, hin⟩

end FunctionTail

end StorageAtlas
