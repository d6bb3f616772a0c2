import Mathlib.Data.Nat.Digits.Defs
import StorageAtlas.Derivation

/-!
# Numerals

What is accepted as an unsigned integer, and which number it is read as. A literal denotes the
number that its digits make up by their places, behind a mark that selects the base
(`Text.natural?`). The two readers go about it differently, from the left in groups of digits and
from the right byte by byte, and look at the size as they go; both give what the literal denotes if
it is below the limit, and refuse it otherwise (`Text.readLiteral_eq_ok_iff`).

Nothing asks for a digit to be there: a mark alone, underscores or nothing at all is read as zero.
`readUint_numerals` says so, and what follows for the indices of arrays and for keys.
-/

namespace StorageAtlas

namespace Text

/-! ## Characters and their bytes -/

theorem toNat_lt_of_digitOf? {radix d : Nat} {c : Char} (h : digitOf? radix c = some d) :
    c.toNat < 128 := by
  have hdigit : digitValue? c ≠ none := by
    intro hnone
    rw [digitOf?, hnone] at h
    exact nomatch h
  unfold digitValue? at hdigit
  have hle (a b : Char) : a ≤ b ↔ a.toNat ≤ b.toNat := Iff.rfl
  simp only [hle] at hdigit
  by_contra hlarge
  rw [if_neg, if_neg, if_neg] at hdigit
  · exact hdigit rfl
  all_goals
    rintro ⟨-, hc⟩
    exact hlarge (Nat.lt_of_le_of_lt hc (by decide))

theorem lt_of_digitOf? {radix d : Nat} {c : Char} (h : digitOf? radix c = some d) : d < radix := by
  simpa using (Option.filter_eq_some_iff.1 h).2

/-- A small character is one byte, and the byte is the character. -/
theorem encode_of_lt {c : Char} (hsmall : c.toNat < 128) :
    ∃ b, String.utf8EncodeChar c = [b] ∧ Char.ofUInt8 b = c := by
  refine ⟨c.val.toUInt8, String.utf8EncodeChar_eq_singleton ?_, ?_⟩
  · exact Char.utf8Size_eq_one_iff.2 (UInt32.le_iff_toNat_le.2 (Nat.le_of_lt_succ hsmall))
  · have hbyte : c.val.toNat < 2 ^ 8 := Nat.lt_trans hsmall (by decide)
    apply Char.ext
    apply UInt32.toNat_inj.1
    show c.val.toUInt8.toUInt32.toNat = c.val.toNat
    rw [UInt8.toNat_toUInt32, UInt32.toNat_toUInt8, Nat.mod_eq_of_lt hbyte]

theorem encode_of_digitOf? {radix d : Nat} {c : Char} (h : digitOf? radix c = some d) :
    ∃ b, String.utf8EncodeChar c = [b] ∧ Char.ofUInt8 b = c :=
  encode_of_lt (toNat_lt_of_digitOf? h)

theorem toNat_ofUInt8 (b : UInt8) : (Char.ofUInt8 b).toNat = b.toNat :=
  UInt8.toNat_toUInt32 b

/-- A character that is not small ends with a byte that is no small character. -/
theorem exists_large_byte {c : Char} (hlarge : ¬c.toNat < 128) :
    ∃ b ∈ String.utf8EncodeChar c, ¬(Char.ofUInt8 b).toNat < 128 := by
  refine ⟨UInt8.ofNat (c.toNat % 64 + 128), ?_, ?_⟩
  · have hc : ¬c.val.toNat ≤ 127 := fun h => hlarge (Nat.lt_succ_of_le h)
    unfold String.utf8EncodeChar
    simp only [hc, ↓reduceIte]
    split
    · exact List.mem_cons_of_mem _ List.mem_cons_self
    · split
      · exact List.mem_cons_of_mem _ (List.mem_cons_of_mem _ List.mem_cons_self)
      · exact List.mem_cons_of_mem _
          (List.mem_cons_of_mem _ (List.mem_cons_of_mem _ List.mem_cons_self))
  · simp only [toNat_ofUInt8, UInt8.toNat_ofNat', Nat.reducePow]
    omega

/-- What is true of small characters only is true of all characters of a text if it is true of all
its bytes. -/
theorem forall_utf8_iff {P : Char → Prop} (hP : ∀ c, P c → c.toNat < 128) {cs : List Char} :
    (∀ b ∈ utf8 cs, P (Char.ofUInt8 b)) ↔ ∀ c ∈ cs, P c := by
  have hchar (c : Char) : (∀ b ∈ String.utf8EncodeChar c, P (Char.ofUInt8 b)) ↔ P c := by
    by_cases hsmall : c.toNat < 128
    · obtain ⟨b, hb, hc⟩ := encode_of_lt hsmall
      rw [hb, List.forall_mem_singleton, hc]
    · obtain ⟨b, hb, hlarge⟩ := exists_large_byte hsmall
      exact ⟨fun h => absurd (hP _ (h b hb)) hlarge, fun h => absurd (hP _ h) hsmall⟩
  rw [utf8, List.forall_mem_flatMap]
  exact forall_congr' fun c => imp_congr_right fun _ => hchar c

theorem map_utf8 {cs : List Char} (h : ∀ c ∈ cs, c.toNat < 128) :
    (utf8 cs).map Char.ofUInt8 = cs := by
  induction cs with
  | nil => rfl
  | cons c cs ih =>
    obtain ⟨hc, hcs⟩ := List.forall_mem_cons.1 h
    obtain ⟨b, hb, hchar⟩ := encode_of_lt hc
    have hutf8 : utf8 (c :: cs) = b :: utf8 cs := by
      rw [utf8, List.flatMap_cons, hb]
      rfl
    rw [hutf8, List.map_cons, hchar, ih hcs]

/-! ## Digits -/

/-- Numerals are made of the digits of their base and of underscores. -/
def IsNumeralChar (radix : Nat) (c : Char) : Prop := c = '_' ∨ (digitOf? radix c).isSome

instance (radix : Nat) (c : Char) : Decidable (IsNumeralChar radix c) :=
  inferInstanceAs (Decidable (_ ∨ _))

/-- The digits of a text, in the order in which they are written. -/
def digitValues (radix : Nat) (cs : List Char) : List Nat := cs.filterMap (digitOf? radix)

/-- The number that the digits of a text denote, the first of them highest. Underscores do not
count, and where there are no digits it is zero. -/
def positional (radix : Nat) (cs : List Char) : Nat :=
  Nat.ofDigits radix (digitValues radix cs).reverse

theorem IsNumeralChar.toNat_lt {radix : Nat} {c : Char} (h : IsNumeralChar radix c) :
    c.toNat < 128 := by
  rcases h with rfl | h
  · decide
  · obtain ⟨d, hd⟩ := Option.isSome_iff_exists.1 h
    exact toNat_lt_of_digitOf? hd

theorem digitOf?_underscore (radix : Nat) : digitOf? radix '_' = none := rfl

/-- The number of digits that are given highest first, from the left. -/
theorem ofDigits_reverse (radix : Nat) (ds : List Nat) :
    Nat.ofDigits radix ds.reverse = ds.foldl (fun v d => v * radix + d) 0 := by
  rw [Nat.ofDigits_eq_foldr, List.foldr_reverse]
  congr 1
  funext v d
  show d + radix * v = v * radix + d
  rw [Nat.add_comm, Nat.mul_comm]

theorem positional_eq_foldl (radix : Nat) (cs : List Char) :
    positional radix cs = (digitValues radix cs).foldl (fun v d => v * radix + d) 0 :=
  ofDigits_reverse radix (digitValues radix cs)

/-! ## From the left -/

theorem le_foldl_digits (radix : Nat) (hradix : 0 < radix) (ds : List Nat) (value : Nat) :
    value ≤ ds.foldl (fun v d => v * radix + d) value := by
  induction ds generalizing value with
  | nil => exact Nat.le_refl _
  | cons d ds ih =>
    have hstep : value ≤ value * radix + d :=
      Nat.le_trans (Nat.le_mul_of_pos_right _ hradix) (Nat.le_add_right _ _)
    exact Nat.le_trans hstep (ih _)

/-- The size is looked at only now and then, but no number becomes smaller by further digits. -/
theorem readDecimal_eq_ok_iff {bs : Bytes} : ∀ {value count n : Nat},
    readDecimal value count bs = .ok n ↔
      (∀ b ∈ bs, IsNumeralChar 10 (Char.ofUInt8 b)) ∧
      (digitValues 10 (bs.map Char.ofUInt8)).foldl (fun v d => v * 10 + d) value = n ∧
      n < numeralLimit := by
  induction bs with
  | nil =>
    intro value count n
    simp only [readDecimal, digitValues, List.map_nil, List.filterMap_nil, List.foldl_nil]
    split
    · next h =>
      constructor
      · intro hn
        obtain rfl := Except.ok.inj hn
        exact ⟨nofun, rfl, h⟩
      · rintro ⟨-, rfl, -⟩
        rfl
    · next h =>
      constructor
      · exact nofun
      · rintro ⟨-, rfl, hn⟩
        exact absurd hn h
  | cons b bs ih =>
    intro value count n
    rw [List.forall_mem_cons, List.map_cons, digitValues, List.filterMap_cons]
    unfold readDecimal
    split
    · next hmute =>
      rw [ih, hmute, digitOf?_underscore]
      exact and_congr_left fun _ => (and_iff_right (.inl rfl)).symm
    · next hmute =>
      cases hd : digitOf? 10 (Char.ofUInt8 b) with
      | none =>
        refine ⟨nofun, fun ⟨⟨hchar, _⟩, _⟩ => ?_⟩
        rcases hchar with hchar | hchar
        · exact absurd hchar hmute
        · rw [hd] at hchar
          exact nomatch hchar
      | some d =>
        have hchar : IsNumeralChar 10 (Char.ofUInt8 b) := .inr (by rw [hd]; rfl)
        simp only [hchar, true_and, List.foldl_cons]
        split
        · next hlarge =>
          refine ⟨nofun, fun ⟨_, hn, hsmall⟩ => ?_⟩
          have hle := le_foldl_digits 10 (by decide)
            (digitValues 10 (bs.map Char.ofUInt8)) (value * 10 + d)
          exact absurd (Nat.lt_of_le_of_lt (hn ▸ hle) hsmall) (Nat.not_lt.2 hlarge.2)
        · exact ih

/-! ## From the right -/

/-- Below a limit that is a power of two there is room behind a digit for all lower ones. -/
theorem add_mul_pow_lt {value d j k : Nat} (hvalue : value < 2 ^ j) (hd : 0 < d)
    (h : d * 2 ^ j < 2 ^ k) : value + d * 2 ^ j < 2 ^ k := by
  have hj : 2 ^ j < 2 ^ k := Nat.lt_of_le_of_lt (Nat.le_mul_of_pos_left _ hd) h
  obtain ⟨m, rfl⟩ := Nat.exists_eq_add_of_le ((Nat.pow_lt_pow_iff_right (by decide)).1 hj).le
  rw [Nat.pow_add, Nat.mul_comm (2 ^ j)] at h ⊢
  have hm : d < 2 ^ m := Nat.lt_of_mul_lt_mul_right h
  calc value + d * 2 ^ j < 2 ^ j + d * 2 ^ j := Nat.add_lt_add_right hvalue _
    _ = (d + 1) * 2 ^ j := by rw [Nat.succ_mul, Nat.add_comm]
    _ ≤ 2 ^ m * 2 ^ j := Nat.mul_le_mul_right _ hm

/-- A digit is too high exactly if the number becomes too large by it. -/
theorem readFromRight_eq_ok_iff {i : Nat} {bs : Bytes} : ∀ {value j n : Nat}, value < 2 ^ j →
    value < numeralLimit →
    (readFromRight (2 ^ i) value (2 ^ j) bs = .ok n ↔
      (∀ b ∈ bs, IsNumeralChar (2 ^ i) (Char.ofUInt8 b)) ∧
      value + 2 ^ j * Nat.ofDigits (2 ^ i) (digitValues (2 ^ i) (bs.map Char.ofUInt8)) = n ∧
      n < numeralLimit) := by
  induction bs with
  | nil =>
    intro value j n _ hlimit
    simp only [readFromRight, digitValues, List.map_nil, List.filterMap_nil, Nat.ofDigits_nil,
      Nat.mul_zero, Nat.add_zero]
    constructor
    · intro hn
      obtain rfl := Except.ok.inj hn
      exact ⟨nofun, rfl, hlimit⟩
    · rintro ⟨-, rfl, -⟩
      rfl
  | cons b bs ih =>
    intro value j n hvalue hlimit
    rw [List.forall_mem_cons, List.map_cons, digitValues, List.filterMap_cons]
    unfold readFromRight
    split
    · next hmute =>
      rw [ih hvalue hlimit, hmute, digitOf?_underscore]
      exact and_congr_left fun _ => (and_iff_right (.inl rfl)).symm
    · next hmute =>
      cases hd : digitOf? (2 ^ i) (Char.ofUInt8 b) with
      | none =>
        refine ⟨nofun, fun ⟨⟨hchar, _⟩, _⟩ => ?_⟩
        rcases hchar with hchar | hchar
        · exact absurd hchar hmute
        · rw [hd] at hchar
          exact nomatch hchar
      | some d =>
        have hchar : IsNumeralChar (2 ^ i) (Char.ofUInt8 b) := .inr (by rw [hd]; rfl)
        have hweight : 2 ^ j * 2 ^ i = 2 ^ (j + i) := (Nat.pow_add 2 j i).symm
        have hdigit : value + d * 2 ^ j < 2 ^ (j + i) := by
          have hd := Nat.mul_le_mul_right (2 ^ j) (Nat.succ_le_of_lt (lt_of_digitOf? hd))
          rw [Nat.succ_mul, Nat.mul_comm (2 ^ i), hweight] at hd
          omega
        simp only [hchar, true_and, Nat.ofDigits_cons]
        rw [Nat.mul_add, ← Nat.mul_assoc, hweight, ← Nat.add_assoc, Nat.mul_comm (2 ^ j) d]
        split
        · next hzero =>
          rw [hzero, Nat.zero_mul, Nat.add_zero] at hdigit ⊢
          exact ih hdigit hlimit
        · next hpos =>
          split
          · next hfits => exact ih hdigit (add_mul_pow_lt hvalue (Nat.pos_of_ne_zero hpos) hfits)
          · next hlarge =>
            refine ⟨nofun, fun ⟨_, hn, hsmall⟩ => ?_⟩
            omega

/-! ## Literals -/

/-- The base of an integer literal, and what stands behind the mark that selects the base. -/
def splitMark : List Char → Nat × List Char
  | '0' :: 'x' :: cs => (16, cs)
  | '0' :: 'X' :: cs => (16, cs)
  | cs => (10, cs)

/-- Digits of the base and underscores, or nothing. -/
def IsNumeralText (radix : Nat) (cs : List Char) : Prop := ∀ c ∈ cs, IsNumeralChar radix c

instance (radix : Nat) (cs : List Char) : Decidable (IsNumeralText radix cs) :=
  decidable_of_iff (cs.all fun c => IsNumeralChar radix c) (by simp [IsNumeralText])

/-- The number that an integer literal denotes, of any size. -/
def natural? (literal : List Char) : Option Nat :=
  let (radix, body) := splitMark literal
  if IsNumeralText radix body then some (positional radix body) else none

theorem readNumeral10_eq_ok_iff {cs : List Char} {n : Nat} : readNumeral10 cs = .ok n ↔
    IsNumeralText 10 cs ∧ positional 10 cs = n ∧ n < numeralLimit := by
  rw [readNumeral10, readDecimal_eq_ok_iff, forall_utf8_iff fun _ => IsNumeralChar.toNat_lt]
  refine and_congr_right fun hcs => ?_
  rw [map_utf8 fun c hc => (hcs c hc).toNat_lt, positional_eq_foldl]

theorem readNumeral16_eq_ok_iff {cs : List Char} {n : Nat} : readNumeral2 16 cs = .ok n ↔
    IsNumeralText 16 cs ∧ positional 16 cs = n ∧ n < numeralLimit := by
  have hread : readNumeral2 16 cs = .ok n ↔
      (∀ b ∈ (utf8 cs).reverse, IsNumeralChar 16 (Char.ofUInt8 b)) ∧
      0 + 1 * Nat.ofDigits 16 (digitValues 16 ((utf8 cs).reverse.map Char.ofUInt8)) = n ∧
      n < numeralLimit := by
    have hzero : 0 < 2 ^ 0 := by decide
    exact readFromRight_eq_ok_iff (i := 4) hzero (by decide)
  rw [hread]
  simp only [List.mem_reverse]
  rw [forall_utf8_iff fun _ => IsNumeralChar.toNat_lt]
  refine and_congr_right fun hcs => ?_
  rw [List.map_reverse, map_utf8 fun c hc => (hcs c hc).toNat_lt, positional, digitValues,
    digitValues, List.filterMap_reverse, Nat.zero_add, Nat.one_mul]

/-- **A literal is read as the number it denotes**, if that is below the limit. -/
theorem readLiteral_eq_ok_iff {literal : List Char} {n : Nat} :
    readLiteral literal = .ok n ↔ natural? literal = some n ∧ n < numeralLimit := by
  unfold readLiteral natural? splitMark
  split
  · simp [readNumeral16_eq_ok_iff, and_assoc]
  · simp [readNumeral16_eq_ok_iff, and_assoc]
  · simp [readNumeral10_eq_ok_iff, and_assoc]

/-- A digit of its base stands in the literal. -/
def HasDigit (literal : List Char) : Prop :=
  ∃ c ∈ (splitMark literal).2, (digitOf? (splitMark literal).1 c).isSome

/-- A numeral: digits and underscores, at least one digit, and a value below the limit. -/
def IsNumeral (literal : List Char) (n : Nat) : Prop :=
  natural? literal = some n ∧ HasDigit literal ∧ n < 2 ^ 256

/-- Behind its mark the literal has nothing but underscores. -/
def IsDigitless (literal : List Char) : Prop := ∀ c ∈ (splitMark literal).2, c = '_'

instance (literal : List Char) : Decidable (HasDigit literal) :=
  decidable_of_iff ((splitMark literal).2.any fun c => (digitOf? (splitMark literal).1 c).isSome)
    List.any_eq_true

instance (literal : List Char) : Decidable (IsDigitless literal) :=
  decidable_of_iff ((splitMark literal).2.all (· == '_')) (by simp [IsDigitless])

variable {literal : List Char} {n : Nat}

/-- Without digits a literal is read as zero. -/
theorem natural?_of_isDigitless (h : IsDigitless literal) : natural? literal = some 0 := by
  have hnone : digitValues (splitMark literal).1 (splitMark literal).2 = [] := by
    refine List.filterMap_eq_nil_iff.2 fun c hc => ?_
    rw [h c hc, digitOf?_underscore]
  have hchars : IsNumeralText (splitMark literal).1 (splitMark literal).2 :=
    fun c hc => .inl (h c hc)
  simp only [natural?]
  rw [if_pos hchars, positional, hnone]
  rfl

theorem hasDigit_or_isDigitless (h : natural? literal = some n) :
    HasDigit literal ∨ IsDigitless literal := by
  simp only [natural?] at h
  split at h
  · next hchars =>
    by_cases hdigit : HasDigit literal
    · exact .inl hdigit
    · exact .inr fun c hc => (hchars c hc).resolve_right fun hd => hdigit ⟨c, hc, hd⟩
  · exact nomatch h

end Text

open Text

theorem readUint_eq_ok_iff {literal : List Char} {n : Nat} :
    readUint literal = .ok n ↔ natural? literal = some n ∧ n < 2 ^ 256 := by
  have hlimit : numeralLimit = 2 ^ 256 := rfl
  rw [← hlimit, ← readLiteral_eq_ok_iff, readUint]
  cases readLiteral literal with
  | ok _ => simp
  | error _ => simp

/-- What is read is a numeral, or has no digit at all. -/
theorem readUint_eq_ok_iff_numeral {literal : List Char} {n : Nat} : readUint literal = .ok n ↔
    IsNumeral literal n ∨ IsDigitless literal ∧ n = 0 := by
  rw [readUint_eq_ok_iff]
  constructor
  · rintro ⟨hvalue, hlimit⟩
    rcases hasDigit_or_isDigitless hvalue with hdigit | hnone
    · exact .inl ⟨hvalue, hdigit, hlimit⟩
    · have hzero := hvalue.symm.trans (natural?_of_isDigitless hnone)
      exact .inr ⟨hnone, Option.some.inj hzero⟩
  · rintro (⟨hvalue, -, hlimit⟩ | ⟨hnone, rfl⟩)
    · exact ⟨hvalue, hlimit⟩
    · exact ⟨natural?_of_isDigitless hnone, by decide⟩

/-! ## Indices -/

/-- Dynamic and static arrays. -/
def Ty.IsArray (t : Ty) : Prop :=
  match t.stored with
  | .dynamicArray _ | .fixedArray _ _ => True
  | _ => False

section Indices

variable {structs : StructTable} {t u : Ty} {literal : String}

theorem Ty.IsArray.materialize (ht : t.IsArray) (h : materialize structs t = .ok u) :
    u.IsArray := by
  cases t with
  | dynamicArray element =>
    simp only [StorageAtlas.materialize] at h
    split at h
    · obtain rfl := Except.ok.inj h
      trivial
    · exact nomatch h
  | fixedArray element length =>
    simp only [StorageAtlas.materialize, Ty.expandInPlace] at h
    cases he : element.expandInPlace structs with
    | error cause =>
      rw [he] at h
      exact nomatch h
    | ok e =>
      rw [he] at h
      obtain rfl := Except.ok.inj h
      trivial
  | userDefined name kind underlying =>
    obtain rfl := Except.ok.inj h
    exact ht
  | _ => exact ht.elim

/-- On an array a bracket literal is the index that it is read as. -/
theorem applyStep_key_of_isArray (ht : t.IsArray) (here : Location) :
    applyStep here t (.key literal) =
      match readUint literal.toList with
      | .ok n => applyStep here t (.index (Word.ofNat n))
      | .error _ => .error (.invalidPath (.notANumber literal)) := by
  unfold Ty.IsArray at ht
  unfold applyStep
  split at ht
  · next hstored =>
    simp only [hstored, stepIndex]
    cases readUint literal.toList <;> rfl
  · next hstored =>
    simp only [hstored, stepIndex]
    cases readUint literal.toList <;> rfl
  · exact ht.elim

theorem derive_key_of_isArray (ht : t.IsArray) (base : Location) {n : Nat}
    (hn : readUint literal.toList = .ok n) (rest : List AccessStep) (limit : Nat) :
    derive base t (.key literal :: rest) limit structs =
      derive base t (.index (Word.ofNat n) :: rest) limit structs := by
  unfold derive
  split
  · rfl
  · next u hu =>
    cases limit with
    | zero => rfl
    | succ limit =>
      rw [List.take_succ_cons, List.take_succ_cons, walk, walk,
        applyStep_key_of_isArray (ht.materialize hu), hn]

theorem derive_key_of_not_read (ht : t.IsArray) (base : Location)
    (hn : ∀ n, readUint literal.toList ≠ .ok n) (hu : materialize structs t = .ok u)
    (rest : List AccessStep) (limit : Nat) :
    derive base t (.key literal :: rest) (limit + 1) structs =
      .error (.invalidPath (.notANumber literal)) := by
  unfold derive
  rw [hu]
  simp only [List.take_succ_cons, walk, applyStep_key_of_isArray (ht.materialize hu)]
  cases hread : readUint literal.toList with
  | ok n => exact absurd hread (hn n)
  | error _ => rfl

end Indices

/-! ## Keys -/

theorem encodeKey_of_elementary {t : Ty} {e : Elementary} (ht : t.stored = .elementary e)
    (literal : String) : encodeKey t literal = e.encodeKey (trim literal.toList) := by
  simp only [encodeKey, ht]

theorem fitsUnsigned_zero (bits : Nat) : fitsUnsigned bits 0 := by
  simp [fitsUnsigned]

/-- What is read and then checked. -/
theorem bind_ite_eq_ok_iff {ε α β : Type} {x : Except ε α} {p : α → Prop} [DecidablePred p]
    {f : α → β} {fault : α → ε} {b : β} :
    (x >>= fun a => if p a then .ok (f a) else .error (fault a)) = .ok b ↔
      ∃ a, x = .ok a ∧ p a ∧ f a = b := by
  cases x with
  | error e => exact ⟨nofun, fun ⟨_, h, _⟩ => nomatch h⟩
  | ok a =>
    show (if p a then Except.ok (f a) else .error (fault a)) = .ok b ↔ _
    split
    · next ha =>
      refine ⟨fun h => ⟨a, rfl, ha, Except.ok.inj h⟩, fun ⟨_, h, _, hb⟩ => ?_⟩
      rw [← hb, Except.ok.inj h]
    · next ha =>
      refine ⟨nofun, fun ⟨_, h, hp, _⟩ => ?_⟩
      rw [Except.ok.inj h] at ha
      exact absurd hp ha

theorem Elementary.encodeKey_uint_eq_ok_iff {bits : UInt16} {literal : List Char} {bs : Bytes} :
    (uint bits).encodeKey literal = .ok bs ↔
      ∃ n, readUint literal = .ok n ∧ fitsUnsigned bits.toNat n ∧
        Word.toBytes (Word.ofNat n) = bs :=
  bind_ite_eq_ok_iff

/-- **What is accepted as an unsigned integer.** A literal is read as `n` exactly if it is a numeral
of the value `n`, or if no digit stands in it and `n` is zero. So a bracket literal is an index of
an array exactly if it is a numeral, or has no digit and is then the index zero; and likewise for
the keys of mappings from unsigned integers, which may have white space around them. -/
theorem readUint_numerals (literal : String) :
    (∀ n, readUint literal.toList = .ok n ↔
      IsNumeral literal.toList n ∨ IsDigitless literal.toList ∧ n = 0) ∧
    (∀ structs base t rest limit, t.IsArray →
      (∀ n, IsNumeral literal.toList n →
        derive base t (.key literal :: rest) limit structs =
          derive base t (.index (Word.ofNat n) :: rest) limit structs) ∧
      (IsDigitless literal.toList →
        derive base t (.key literal :: rest) limit structs =
          derive base t (.index 0 :: rest) limit structs) ∧
      ((∀ n, ¬IsNumeral literal.toList n) → ¬IsDigitless literal.toList →
        ∀ u, materialize structs t = .ok u → 0 < limit →
          derive base t (.key literal :: rest) limit structs =
            .error (.invalidPath (.notANumber literal)))) ∧
    ∀ k bits, k.stored = .uint bits →
      (IsDigitless (trim literal.toList) → encodeKey k literal = .ok (Word.toBytes 0)) ∧
      ∀ bs, encodeKey k literal = .ok bs → ∃ n, bs = Word.toBytes (Word.ofNat n) ∧
        (IsNumeral (trim literal.toList) n ∨ IsDigitless (trim literal.toList) ∧ n = 0) := by
  refine ⟨fun n => readUint_eq_ok_iff_numeral, fun structs base t rest limit ht => ?_,
    fun k bits hk => ⟨fun hnone => ?_, fun bs hbs => ?_⟩⟩
  · refine ⟨fun n hn => ?_, fun hnone => ?_, fun hn hnone u hu hlimit => ?_⟩
    · exact derive_key_of_isArray ht base (readUint_eq_ok_iff_numeral.2 (.inl hn)) rest limit
    · exact derive_key_of_isArray ht base (readUint_eq_ok_iff_numeral.2 (.inr ⟨hnone, rfl⟩)) rest
        limit
    · obtain ⟨limit, rfl⟩ := Nat.exists_eq_succ_of_ne_zero hlimit.ne'
      refine derive_key_of_not_read ht base (fun n hread => ?_) hu rest limit
      rcases readUint_eq_ok_iff_numeral.1 hread with hnumeral | ⟨hdigitless, -⟩
      · exact hn n hnumeral
      · exact hnone hdigitless
  · have hread := readUint_eq_ok_iff_numeral.2 (.inr ⟨hnone, rfl⟩)
    rw [encodeKey_of_elementary hk]
    exact Elementary.encodeKey_uint_eq_ok_iff.2 ⟨0, hread, fitsUnsigned_zero bits.toNat, rfl⟩
  · rw [encodeKey_of_elementary hk] at hbs
    obtain ⟨n, hread, -, rfl⟩ := Elementary.encodeKey_uint_eq_ok_iff.1 hbs
    exact ⟨n, rfl, readUint_eq_ok_iff_numeral.1 hread⟩

/-- A numeral, a mark without digits and a word, as indices and as keys. -/
theorem readUint_numerals_samples :
    IsNumeral "0x_fF".toList 255 ∧ IsDigitless "0x".toList ∧
    readUint "0x_fF".toList = .ok 255 ∧ readUint "0x".toList = .ok 0 ∧
    (Ty.dynamicArray (.uint 256)).IsArray ∧
    derive ⟨0, 0⟩ (.dynamicArray (.uint 256)) [.key "0x_fF"] 20 [] =
      derive ⟨0, 0⟩ (.dynamicArray (.uint 256)) [.index 255] 20 [] ∧
    derive ⟨0, 0⟩ (.dynamicArray (.uint 256)) [.key "0x"] 20 [] =
      derive ⟨0, 0⟩ (.dynamicArray (.uint 256)) [.index 0] 20 [] ∧
    derive ⟨0, 0⟩ (.dynamicArray (.uint 256)) [.key "one"] 20 [] =
      .error (.invalidPath (.notANumber "one")) ∧
    encodeKey (.uint 8) " _ " = .ok (Word.toBytes 0) := by
  have hnumeral : IsNumeral "0x_fF".toList 255 := ⟨by decide, by decide, by decide⟩
  have hnone : IsDigitless "0x".toList := by decide
  have harray : (Ty.dynamicArray (.uint 256)).IsArray := trivial
  obtain ⟨hread, hindex, -⟩ := readUint_numerals "0x_fF"
  obtain ⟨hreadNone, hindexNone, -⟩ := readUint_numerals "0x"
  obtain ⟨-, hindexWord, -⟩ := readUint_numerals "one"
  obtain ⟨-, -, hkey⟩ := readUint_numerals " _ "
  refine ⟨hnumeral, hnone, (hread 255).2 (.inl hnumeral), (hreadNone 0).2 (.inr ⟨hnone, rfl⟩),
    harray, ?_, ?_, ?_, ?_⟩
  · exact (hindex [] ⟨0, 0⟩ _ [] 20 harray).1 255 hnumeral
  · exact (hindexNone [] ⟨0, 0⟩ _ [] 20 harray).2.1 hnone
  · refine (hindexWord [] ⟨0, 0⟩ _ [] 20 harray).2.2 (fun n hn => ?_) (by decide) _ rfl (by decide)
    have hvalue : natural? "one".toList = none := by decide
    rw [IsNumeral, hvalue] at hn
    exact nomatch hn.1
  · exact (hkey (.uint 8) 8 rfl).1 (by decide)

/-- A mark alone is accepted, although it has no digit. -/
theorem readUint_mark : readUint "0x".toList = .ok 0 ∧ ¬HasDigit "0x".toList :=
  ⟨rfl, by decide⟩

end StorageAtlas
