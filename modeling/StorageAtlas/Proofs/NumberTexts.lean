import StorageAtlas.Value
import StorageAtlas.Proofs.HexWords
import StorageAtlas.Proofs.NumericSteps

/-!
# Numbers and addresses as texts

Each way in which values of 256 bits are written is read back: words behind a mark in base sixteen
(`Json.asWord?_ofWord`), signed numbers in base ten, of which the least has no positive counterpart
(`Value.asSigned?_signedText`), and addresses without their checksum (`Value.asAddress?_hexText`).
-/

namespace StorageAtlas

open Json Text

namespace Text

/-- The digits of a number in base sixteen denote it. -/
theorem digits16_denote (n : Nat) :
    IsNumeralText 16 (digits 16 n) ∧ positional 16 (digits 16 n) = n := by
  obtain ⟨ds, hds, hdigits, hvalue⟩ := digits16_eq_map n
  have hread : ∀ d ∈ ds, digitOf? 16 d.digitChar = some d := fun d hd =>
    digitOf?_hexDigit (hds d hd)
  have hvalues : digitValues 16 (digits 16 n) = ds := by
    rw [digitValues, hdigits, List.filterMap_map]
    exact (List.filterMap_congr hread).trans List.filterMap_some
  refine ⟨?_, by rw [positional, hvalues, hvalue]⟩
  rw [hdigits]
  intro c hc
  obtain ⟨d, hd, rfl⟩ := List.mem_map.1 hc
  exact .inr (by rw [hread d hd]; rfl)

theorem readMarkedLiteral_hexadecimal {n : Nat} (h : n < numeralLimit) :
    readMarkedLiteral ("0x" ++ hexadecimal n).toList = .ok n := by
  have htext : ("0x" ++ hexadecimal n).toList = '0' :: 'x' :: digits 16 n := by
    rw [String.toList_append, hexadecimal, String.toList_ofList (l := digits 16 n)]
    rfl
  obtain ⟨hchars, hvalue⟩ := digits16_denote n
  rw [htext]
  exact readNumeral16_eq_ok_iff.2 ⟨hchars, hvalue, h⟩

theorem readMarkedLiteral_digits {n : Nat} (h : n < numeralLimit) :
    readMarkedLiteral (digits 10 n) = .ok n := by
  have hdigit : ∀ c ∈ digits 10 n, c.isDigit := fun c hc => isDigit_of_mem_digits hc
  have hread : readLiteral (digits 10 n) = .ok n := readLiteral_eq_ok_iff.2 ⟨natural?_digits n, h⟩
  unfold readMarkedLiteral
  split
  · next heq => exact absurd (hdigit 'o' (by simp [heq])) (by decide)
  · next heq => exact absurd (hdigit 'O' (by simp [heq])) (by decide)
  · next heq => exact absurd (hdigit 'b' (by simp [heq])) (by decide)
  · next heq => exact absurd (hdigit 'B' (by simp [heq])) (by decide)
  · exact hread

end Text

theorem Word.ofNat_toNat (w : Word) : Word.ofNat w.toNat = w := by
  rw [Word.ofNat, BitVec.ofNat_toNat, BitVec.setWidth_eq]

theorem Json.asWord?_ofWord (w : Word) : asWord? (ofWord w) = some w := by
  simp only [asWord?, ofWord, Word.hexText, readMarkedLiteral_hexadecimal w.isLt,
    Word.ofNat_toNat]

namespace Value

variable {s : String} {n : Nat}

theorem asSigned?_minus {cs : List Char} (hs : s.toList = '-' :: cs)
    (hread : readMarkedLiteral cs = .ok n) (hn : n ≤ numeralLimit / 2) :
    asSigned? (.string s) = some (BitVec.ofInt 256 (-(n : Int))) := by
  simp only [asSigned?, hs, hread, hn, if_true]

theorem asSigned?_digits (hs : s.toList = digits 10 n) (hn : n < numeralLimit / 2) :
    asSigned? (.string s) = some (Word.ofNat n) := by
  obtain ⟨c, cs, hcs⟩ := List.exists_cons_of_ne_nil (digits_ne_nil n)
  have hdigit : c.isDigit := isDigit_of_mem_digits (hcs ▸ List.mem_cons_self)
  have hminus : c ≠ '-' := by
    rintro rfl
    exact absurd hdigit (by decide)
  have hplus : c ≠ '+' := by
    rintro rfl
    exact absurd hdigit (by decide)
  have hread := readMarkedLiteral_digits (Nat.lt_of_lt_of_le hn (Nat.div_le_self _ 2))
  rw [hcs] at hs hread
  simp [asSigned?, hs, hminus, hplus, hread, hn]

/-- **A signed number is read back from its text**, the least one too. -/
theorem asSigned?_signedText (w : Word) : asSigned? (.string (Word.signedText w)) = some w := by
  have hhalf : numeralLimit / 2 = 2 ^ 255 := rfl
  cases hsign : w.msb with
  | true =>
    -- the least number is its own negative: its magnitude is the limit, which a minus sign allows
    have hlarge := BitVec.msb_eq_true_iff_two_mul_ge.1 hsign
    have hneg : (-w).toNat ≤ numeralLimit / 2 := by
      rw [BitVec.toNat_neg, hhalf, Nat.mod_eq_of_lt (by omega)]
      omega
    have htext : (Word.signedText w).toList = '-' :: digits 10 (-w).toNat := by
      rw [Word.signedText, hsign, if_pos rfl, String.toList_append, decimal,
        String.toList_ofList (l := digits 10 _)]
      rfl
    rw [asSigned?_minus htext (readMarkedLiteral_digits (-w).isLt) hneg, BitVec.ofInt_neg,
      BitVec.ofInt_natCast, BitVec.ofNat_toNat, BitVec.setWidth_eq, BitVec.neg_neg]
  | false =>
    have hsmall := BitVec.msb_eq_false_iff_two_mul_lt.1 hsign
    have htext : (Word.signedText w).toList = digits 10 w.toNat := by
      rw [Word.signedText, hsign, if_neg Bool.false_ne_true, decimal, String.toList_ofList]
    rw [asSigned?_digits htext (by omega), Word.ofNat_toNat]

theorem asAddress?_hexText (o : Origin) (a : Address) :
    asAddress? o (.string (Address.hexText a)) = some a := by
  have htext : Address.dropMark (Address.hexText a).toList = hexDigits (Address.toBytes a) := by
    rw [Address.hexText, toList_hex, Address.dropMark]
  have hlength : (utf8 (hexDigits (Address.toBytes a))).length = 40 := by
    rw [length_utf8_hexDigits, Address.toBytes, Bytes.length_bigEndian]
  have hread : Address.read (Address.hexText a).toList = .ok a := by
    simp only [Address.read, htext, hlength, readHexPairs_hexDigits, Address.ofBytes_toBytes]
    rfl
  rw [asAddress?, hread]
  rfl

end Value

end StorageAtlas
