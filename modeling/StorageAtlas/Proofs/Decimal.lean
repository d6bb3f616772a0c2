import Mathlib.Data.List.Induction
import StorageAtlas.Text.Integer
import StorageAtlas.Word

/-!
# Decimal numbers

A number is read back from its digits (`readInteger_digits`), as long as it stays below the limit,
so that no two numbers are written the same (`decimal_inj`). Zeros in front of the digits are passed
over, and nothing else is read (`readInteger_eq_ok_iff`).
-/

namespace StorageAtlas

namespace Text

theorem isDigit_of_mem_digits {n : Nat} {c : Char} (h : c ∈ digits 10 n) : c.isDigit :=
  Nat.isDigit_of_mem_toDigits (by decide) (by decide) h

theorem digits_ne_nil (n : Nat) : digits 10 n ≠ [] := Nat.toDigits_ne_nil

/-- A text that begins with a number begins with a digit. -/
theorem append_ne_decimal_append {word : String} {c : Char} {cs : List Char}
    (hword : word.toList = c :: cs) (hc : c.isDigit = false) (n : Nat) (rest behind : String) :
    word ++ rest ≠ decimal n ++ behind := by
  intro h
  have htext := congrArg String.toList h
  rw [String.toList_append, String.toList_append, hword, decimal, String.toList_ofList] at htext
  cases hdigits : digits 10 n with
  | nil => exact digits_ne_nil n hdigits
  | cons d ds =>
    have hdigit : d.isDigit := isDigit_of_mem_digits (hdigits ▸ List.mem_cons_self)
    rw [hdigits, List.cons_append, List.cons_append] at htext
    rw [← (List.cons.inj htext).1, hc] at hdigit
    exact nomatch hdigit

/-- No two numbers are written the same. -/
theorem decimal_inj {m n : Nat} (h : decimal m = decimal n) : m = n := by
  have hd : digits 10 m = digits 10 n := by
    rw [← String.toList_ofList (l := digits 10 m), ← String.toList_ofList (l := digits 10 n)]
    exact congrArg String.toList h
  have hm : Nat.ofDigitChars 10 (digits 10 m) 0 = m := Nat.ofDigitChars_ten_toDigits
  rw [hd] at hm
  exact hm.symm.trans Nat.ofDigitChars_ten_toDigits

theorem digitOf?_of_isDigit {c : Char} (h : c.isDigit) :
    digitOf? 10 c = some (c.toNat - '0'.toNat) := by
  have hc : '0' ≤ c ∧ c ≤ '9' := by
    simp only [Char.isDigit, Bool.and_eq_true, decide_eq_true_eq] at h
    exact ⟨h.1, h.2⟩
  have hle : c.toNat ≤ '9'.toNat := hc.2
  have hlt : c.toNat - '0'.toNat < 10 := by
    have : '9'.toNat = 57 := rfl
    have : '0'.toNat = 48 := rfl
    omega
  simp only [digitOf?, digitValue?, hc, and_self, ↓reduceIte, Option.filter_some,
    decide_eq_true hlt]

theorem le_ofDigitChars (cs : List Char) (value : Nat) : value ≤ Nat.ofDigitChars 10 cs value := by
  induction cs generalizing value with
  | nil => exact Nat.le_of_eq Nat.ofDigitChars_nil.symm
  | cons c cs ih =>
    rw [Nat.ofDigitChars_cons]
    refine Nat.le_trans ?_ (ih _)
    omega

theorem isDigit_of_digitOf? {c : Char} {d : Nat} (h : digitOf? 10 c = some d) : c.isDigit := by
  obtain ⟨hvalue, hlt⟩ := Option.filter_eq_some_iff.1 h
  have hlt : d < 10 := by simpa using hlt
  unfold digitValue? at hvalue
  split at hvalue
  · next hc =>
    simp only [Char.isDigit, Bool.and_eq_true, decide_eq_true_eq]
    exact ⟨hc.1, hc.2⟩
  · split at hvalue
    · have hd := Option.some.inj hvalue
      omega
    · split at hvalue
      · have hd := Option.some.inj hvalue
        omega
      · exact nomatch hvalue

/-- What is read digit by digit are the digits of a number below the limit. -/
theorem readDigits_eq_ok_iff {limit n : Nat} {cs : List Char} : ∀ {value : Nat}, value < limit →
    (readDigits 10 limit value cs = .ok n ↔
      (∀ c ∈ cs, c.isDigit) ∧ Nat.ofDigitChars 10 cs value = n ∧ n < limit) := by
  induction cs with
  | nil =>
    intro value hvalue
    rw [readDigits, Nat.ofDigitChars_nil]
    refine ⟨fun h => ?_, fun ⟨_, h, _⟩ => congrArg _ h⟩
    obtain rfl := Except.ok.inj h
    exact ⟨nofun, rfl, hvalue⟩
  | cons c cs ih =>
    intro value hvalue
    rw [List.forall_mem_cons, Nat.ofDigitChars_cons, Nat.mul_comm, readDigits]
    cases hdigit : digitOf? 10 c with
    | none =>
      refine iff_of_false nofun fun ⟨⟨hc, _⟩, _⟩ => ?_
      exact nomatch hdigit.symm.trans (digitOf?_of_isDigit hc)
    | some d =>
      have hc := isDigit_of_digitOf? hdigit
      obtain rfl := Option.some.inj ((digitOf?_of_isDigit hc).symm.trans hdigit)
      dsimp only
      split
      · next hnext => rw [ih hnext, and_assoc, and_iff_right hc]
      · next hnext =>
        refine iff_of_false nofun fun ⟨_, hn, hlimit⟩ => hnext ?_
        exact Nat.lt_of_le_of_lt (le_ofDigitChars cs _) (hn ▸ hlimit)

theorem exists_digitChar {c : Char} (h : c.isDigit) :
    ∃ d < 10, c.toNat - '0'.toNat = d ∧ d.digitChar = c := by
  have hdigits : ∀ d : Fin 10, d.val.digitChar = Char.ofNat ('0'.toNat + d.val) := by decide
  simp only [Char.isDigit, Bool.and_eq_true, decide_eq_true_eq] at h
  have hlow : '0'.toNat ≤ c.toNat := h.1
  have hhigh : c.toNat < '0'.toNat + 10 := Nat.lt_succ_of_le h.2
  have hlt : c.toNat - '0'.toNat < 10 := by omega
  have hc := hdigits ⟨c.toNat - '0'.toNat, hlt⟩
  rw [Nat.add_sub_cancel' hlow, Char.ofNat_toNat] at hc
  exact ⟨_, hlt, rfl, hc⟩

/-- Digits are those of the number that they stand for, behind zeros. -/
theorem exists_zeros {cs : List Char} (hne : cs ≠ []) (h : ∀ c ∈ cs, c.isDigit) :
    ∃ zeros, cs = List.replicate zeros '0' ++ digits 10 (Nat.ofDigitChars 10 cs 0) := by
  induction cs using List.reverseRecOn with
  | nil => exact absurd rfl hne
  | append_singleton cs c ih =>
    obtain ⟨hcs, hc⟩ := List.forall_mem_append.1 h
    obtain ⟨d, hlt, hd, rfl⟩ := exists_digitChar (hc c List.mem_cons_self)
    have hlast : digits 10 d = [d.digitChar] := Nat.toDigits_of_lt_base hlt
    rw [Nat.ofDigitChars_append, Nat.ofDigitChars_cons, Nat.ofDigitChars_nil, hd]
    by_cases hnil : cs = []
    · subst hnil
      exact ⟨0, by rw [Nat.ofDigitChars_nil, Nat.mul_zero, Nat.zero_add, hlast]; rfl⟩
    · obtain ⟨zeros, hzeros⟩ := ih hnil hcs
      generalize Nat.ofDigitChars 10 cs 0 = value at hzeros ⊢
      by_cases hvalue : value = 0
      · subst hvalue
        have hzero : digits 10 0 = ['0'] := rfl
        refine ⟨zeros + 1, ?_⟩
        rw [hzeros, hzero, Nat.mul_zero, Nat.zero_add, hlast, List.replicate_succ']
      · have hdigits : digits 10 value ++ digits 10 d = digits 10 (10 * value + d) :=
          Nat.toDigits_append_toDigits (by decide) (Nat.pos_of_ne_zero hvalue) hlt
        exact ⟨zeros, by rw [hzeros, ← hdigits, hlast, List.append_assoc]⟩

/-- **A number is read from its digits and zeros in front of them**, and from nothing else. -/
theorem readInteger_eq_ok_iff {limit n : Nat} (hlimit : 0 < limit) {cs : List Char}
    (hplus : '+' ∉ cs) : readInteger 10 limit cs = .ok n ↔
      n < limit ∧ ∃ zeros, cs = List.replicate zeros '0' ++ digits 10 n := by
  have hread : readInteger 10 limit cs = .ok n ↔ cs ≠ [] ∧ readDigits 10 limit 0 cs = .ok n := by
    unfold readInteger
    split
    · exact iff_of_false nofun fun h => h.1 rfl
    · exact absurd List.mem_cons_self hplus
    · exact absurd List.mem_cons_self hplus
    · exact (and_iff_right (List.cons_ne_nil _ _)).symm
  rw [hread, readDigits_eq_ok_iff hlimit]
  refine ⟨fun ⟨hne, hdigit, hn, hlt⟩ => ⟨hlt, ?_⟩, ?_⟩
  · obtain ⟨zeros, hzeros⟩ := exists_zeros hne hdigit
    exact ⟨zeros, hn ▸ hzeros⟩
  · rintro ⟨hlt, zeros, rfl⟩
    refine ⟨List.append_ne_nil_of_right_ne_nil _ (digits_ne_nil n), ?_, ?_, hlt⟩
    · refine List.forall_mem_append.2 ⟨fun c hc => ?_, fun c hc => isDigit_of_mem_digits hc⟩
      rw [List.eq_of_mem_replicate hc]
      rfl
    · rw [Nat.ofDigitChars_append, Nat.ofDigitChars_replicate_zero, Nat.mul_zero]
      exact Nat.ofDigitChars_ten_toDigits

/-- **A number is read back from its digits.** -/
theorem readInteger_digits {n limit : Nat} (h : n < limit) :
    readInteger 10 limit (digits 10 n) = .ok n := by
  have hplus : '+' ∉ digits 10 n := fun hc => absurd (isDigit_of_mem_digits hc) (by decide)
  exact (readInteger_eq_ok_iff (Nat.zero_lt_of_lt h) hplus).2 ⟨h, 0, rfl⟩

end Text

theorem Word.text_inj {v w : Word} (h : Word.text v = Word.text w) : v = w :=
  BitVec.eq_of_toNat_eq (Text.decimal_inj h)

end StorageAtlas
