import Mathlib.Tactic.Ring
import StorageAtlas.Node.Message
import StorageAtlas.Proofs.Numerals

/-!
# Words in base sixteen

A word is read from pairs of digits, and an odd number of them gets a zero in front. What is read
is the number that the digits denote, however many leading zeros there are and in whichever case
the letters are written (`IsWordText.readWord`); nothing but digits is read
(`Text.readHex_eq_ok_iff`). The digits that bytes are written in are read as these bytes
(`Text.readHex_hex`).
-/

namespace StorageAtlas

namespace Text

/-- The number that digits of base sixteen denote behind digits of value `value`. -/
def hexValue? (value : Nat) : List Char → Option Nat
  | [] => some value
  | c :: cs =>
    match digitOf? 16 c with
    | some d => hexValue? (value * 16 + d) cs
    | none => none

theorem length_utf8_of_hexValue? {cs : List Char} {value n : Nat}
    (h : hexValue? value cs = some n) : (utf8 cs).length = cs.length := by
  induction cs generalizing value with
  | nil => rfl
  | cons c cs ih =>
    rw [hexValue?] at h
    split at h
    · next d hd =>
      obtain ⟨b, hb, -⟩ := encode_of_digitOf? hd
      simpa [utf8, hb] using ih h
    · cases h

/-- **Pairs of digits are the bytes of the number that the digits denote.** -/
theorem readHexPairs_of_hexValue? {cs : List Char} {value n pairs : Nat}
    (hpairs : cs.length = 2 * pairs) (h : hexValue? value cs = some n) (position : Nat) :
    ∃ bs, readHexPairs position (utf8 cs) = .ok bs ∧ bs.length = pairs ∧
      n = value * Nat.pow 256 pairs + Bytes.ofBigEndian bs := by
  induction pairs generalizing cs value position with
  | zero =>
    obtain rfl := List.length_eq_zero_iff.1 hpairs
    obtain rfl := Option.some.inj h
    exact ⟨[], rfl, rfl, by simp [Bytes.ofBigEndian, Bytes.ofLittleEndian]⟩
  | succ pairs ih =>
    obtain ⟨c, e, cs, rfl⟩ : ∃ c e cs', cs = c :: e :: cs' := by
      rcases cs with _ | ⟨c, _ | ⟨e, cs⟩⟩
      · simp at hpairs
      · simp only [List.length_cons, List.length_nil] at hpairs
        omega
      · exact ⟨c, e, cs, rfl⟩
    simp only [List.length_cons] at hpairs
    rw [hexValue?] at h
    split at h
    · next a ha =>
      rw [hexValue?] at h
      split at h
      · next b hb =>
        obtain ⟨bs, hbs, hlength, hn⟩ := ih (by omega) h (position + 2)
        obtain ⟨x, hx, hxc⟩ := encode_of_digitOf? ha
        obtain ⟨y, hy, hye⟩ := encode_of_digitOf? hb
        have hab : 16 * a + b < 256 := by
          have ha16 := lt_of_digitOf? ha
          have hb16 := lt_of_digitOf? hb
          omega
        refine ⟨UInt8.ofNat (16 * a + b) :: bs, ?_, congrArg Nat.succ hlength, ?_⟩
        · have hutf8 : utf8 (c :: e :: cs) = x :: y :: utf8 cs := by simp [utf8, hx, hy]
          simp only [hutf8, readHexPairs, hxc, hye, ha, hb, hbs]
        · have hbyte : (UInt8.ofNat (16 * a + b)).toNat = 16 * a + b :=
            UInt8.toNat_ofNat_of_lt hab
          have hpow : Nat.pow 256 (pairs + 1) = Nat.pow 256 pairs * 256 := rfl
          have hpow' : Nat.pow 256 bs.length = Nat.pow 256 pairs := congrArg _ hlength
          rw [hn, Bytes.ofBigEndian_cons, hbyte, hpow, hpow']
          ring
      · cases h
    · cases h

theorem readHex_eq_pairs {cs : List Char} {value n : Nat} (heven : cs.length % 2 = 0)
    (h : hexValue? value cs = some n) : readHex cs = readHexPairs 0 (utf8 cs) := by
  rw [readHex, length_utf8_of_hexValue? h, if_neg (by omega)]

theorem isSome_digitOf?_of_readHexPairs {text : Bytes} : ∀ {position : Nat} {bs : Bytes},
    readHexPairs position text = .ok bs → ∀ b ∈ text, (digitOf? 16 (Char.ofUInt8 b)).isSome := by
  intro position
  fun_induction readHexPairs position text with
  | case1 => exact fun _ => nofun
  | case6 position h l rest a b ha hb bs hrest ih =>
    intro _ _
    rw [List.forall_mem_cons, List.forall_mem_cons, ha, hb]
    exact ⟨rfl, rfl, ih hrest⟩
  | case2 => intro bs h; exact nomatch h
  | case3 => intro bs h; exact nomatch h
  | case4 => intro bs h; exact nomatch h
  | case5 => intro bs h; exact nomatch h

theorem exists_hexValue? {cs : List Char} (h : ∀ c ∈ cs, (digitOf? 16 c).isSome) (value : Nat) :
    ∃ n, hexValue? value cs = some n := by
  induction cs generalizing value with
  | nil => exact ⟨value, rfl⟩
  | cons c cs ih =>
    obtain ⟨hc, hcs⟩ := List.forall_mem_cons.1 h
    obtain ⟨d, hd⟩ := Option.isSome_iff_exists.1 hc
    simp only [hexValue?, hd]
    exact ih hcs _

theorem readHex_of_hexValue? {digits : List Char} {n : Nat} (heven : digits.length % 2 = 0)
    (hn : hexValue? 0 digits = some n) :
    readHex digits = .ok (Bytes.bigEndian (digits.length / 2) n) := by
  have hpairs : digits.length = 2 * (digits.length / 2) := by omega
  obtain ⟨bs, hbs, hlength, hvalue⟩ := readHexPairs_of_hexValue? hpairs hn 0
  rw [Nat.zero_mul, Nat.zero_add] at hvalue
  rw [readHex_eq_pairs heven hn, hvalue, ← hlength, Bytes.bigEndian_ofBigEndian]
  exact hbs

/-- **An even number of digits is read, and nothing else**: as the bytes of their number. -/
theorem readHex_eq_ok_iff {digits : List Char} {bs : Bytes} :
    readHex digits = .ok bs ↔ digits.length % 2 = 0 ∧
      ∃ n, hexValue? 0 digits = some n ∧ Bytes.bigEndian (digits.length / 2) n = bs := by
  constructor
  · intro h
    have hread := h
    simp only [readHex] at hread
    split at hread
    · exact nomatch hread
    · next heven =>
      have hdigits : ∀ c ∈ digits, (digitOf? 16 c).isSome := by
        refine (forall_utf8_iff fun c hc => ?_).1 (isSome_digitOf?_of_readHexPairs hread)
        obtain ⟨d, hd⟩ := Option.isSome_iff_exists.1 hc
        exact toNat_lt_of_digitOf? hd
      obtain ⟨n, hn⟩ := exists_hexValue? hdigits 0
      rw [length_utf8_of_hexValue? hn] at heven
      have heven : digits.length % 2 = 0 := by omega
      rw [readHex_of_hexValue? heven hn] at h
      exact ⟨heven, n, hn, Except.ok.inj h⟩
  · rintro ⟨heven, n, hn, rfl⟩
    exact readHex_of_hexValue? heven hn

/-! ### What is written in base sixteen -/

theorem digitOf?_hexDigit {n : Nat} (h : n < 16) : digitOf? 16 (hexDigit n) = some n :=
  (by decide : ∀ n : Fin 16, digitOf? 16 (hexDigit n) = some n.val) ⟨n, h⟩

/-- A number is written with its digits. -/
theorem digits16_eq_map (n : Nat) : ∃ ds : List Nat, (∀ d ∈ ds, d < 16) ∧
    digits 16 n = ds.map Nat.digitChar ∧ Nat.ofDigits 16 ds.reverse = n := by
  induction n using Nat.strongRecOn with
  | ind n ih =>
    by_cases hn : n < 16
    · exact ⟨[n], List.forall_mem_singleton.2 hn, Nat.toDigits_of_lt_base hn,
        Nat.ofDigits_singleton⟩
    · have hlast : n % 16 < 16 := Nat.mod_lt _ (by decide)
      obtain ⟨ds, hds, hdigits, hvalue⟩ := ih (n / 16) (by omega)
      refine ⟨ds ++ [n % 16], List.forall_mem_append.2 ⟨hds, List.forall_mem_singleton.2 hlast⟩,
        ?_, ?_⟩
      · rw [List.map_append, ← hdigits, digits, digits, List.map_singleton,
          ← Nat.toDigits_of_lt_base hlast,
          Nat.toDigits_append_toDigits (by decide) (by omega) hlast, Nat.div_add_mod]
      · rw [ofDigits_reverse, List.foldl_append, ← ofDigits_reverse, hvalue]
        exact Nat.div_add_mod' n 16

/-- A digit is one byte, and denotes its number. -/
theorem encode_hexDigit {n : Nat} (h : n < 16) : ∃ b, String.utf8EncodeChar (hexDigit n) = [b] ∧
    digitOf? 16 (Char.ofUInt8 b) = some n := by
  obtain ⟨b, hb, hchar⟩ := encode_of_digitOf? (digitOf?_hexDigit h)
  exact ⟨b, hb, by rw [hchar, digitOf?_hexDigit h]⟩

/-- A byte is written in two bytes, which denote its halves. -/
theorem utf8_hexDigits_cons (b : UInt8) (bs : Bytes) : ∃ high low,
    utf8 (hexDigits (b :: bs)) = high :: low :: utf8 (hexDigits bs) ∧
    digitOf? 16 (Char.ofUInt8 high) = some (b.toNat / 16) ∧
    digitOf? 16 (Char.ofUInt8 low) = some (b.toNat % 16) := by
  have hb : b.toNat < 256 := b.toNat_lt
  obtain ⟨high, hhigh, hhighDigit⟩ := encode_hexDigit (n := b.toNat / 16) (by omega)
  obtain ⟨low, hlow, hlowDigit⟩ := encode_hexDigit (n := b.toNat % 16) (by omega)
  refine ⟨high, low, ?_, hhighDigit, hlowDigit⟩
  simp [utf8, hexDigits, hexByte, hhigh, hlow]

/-- **The bytes that are written are read back.** -/
theorem readHexPairs_hexDigits (bs : Bytes) : ∀ position : Nat,
    readHexPairs position (utf8 (hexDigits bs)) = .ok bs := by
  induction bs with
  | nil => exact fun _ => rfl
  | cons b bs ih =>
    intro position
    obtain ⟨high, low, hutf8, hhigh, hlow⟩ := utf8_hexDigits_cons b bs
    simp only [hutf8, readHexPairs, hhigh, hlow, ih, Nat.div_add_mod, UInt8.ofNat_toNat]

theorem length_utf8_hexDigits (bs : Bytes) : (utf8 (hexDigits bs)).length = 2 * bs.length := by
  induction bs with
  | nil => rfl
  | cons b bs ih =>
    obtain ⟨high, low, hutf8, -⟩ := utf8_hexDigits_cons b bs
    rw [hutf8, List.length_cons, List.length_cons, List.length_cons]
    omega

theorem toList_hex (bs : Bytes) : (hex bs).toList = '0' :: 'x' :: hexDigits bs := by
  rw [hex, String.toList_append, String.toList_ofList (l := hexDigits bs)]
  rfl

theorem readHex_hex (bs : Bytes) : readHex (dropHexMark (hex bs).toList) = .ok bs := by
  rw [toList_hex, dropHexMark, readHex, length_utf8_hexDigits, Nat.mul_mod_right,
    readHexPairs_hexDigits]
  rfl

end Text

namespace Node

open Text

/-- A way to write a word: at most 64 digits of base sixteen, with or without a mark. -/
def IsWordText (w : Word) (s : String) : Prop :=
  ∃ digits : List Char, (s.toList = digits ∨ s.toList = '0' :: 'x' :: digits) ∧
    digits.length ≤ 64 ∧ hexValue? 0 digits = some w.toNat

variable {w : Word} {s : String}

/-- No digits begin like a mark. -/
theorem dropHexMark_of_hexValue? {cs : List Char} {value n : Nat}
    (h : hexValue? value cs = some n) : dropHexMark cs = cs := by
  unfold dropHexMark
  split
  · have hx : digitOf? 16 'x' = none := by decide
    simp only [hexValue?, hx] at h
    split at h <;> exact nomatch h
  · rfl

theorem IsWordText.wordDigits (h : IsWordText w s) :
    (wordDigits s).length % 2 = 0 ∧ (wordDigits s).length ≤ 64 ∧
      hexValue? 0 (wordDigits s) = some w.toNat := by
  obtain ⟨digits, htext, hlength, hvalue⟩ := h
  have hdigits : dropHexMark s.toList = digits := by
    rcases htext with htext | htext
    · rw [htext, dropHexMark_of_hexValue? hvalue]
    · rw [htext, dropHexMark]
  rw [Node.wordDigits, hdigits]
  simp only [length_utf8_of_hexValue? hvalue]
  split
  · next hodd =>
    have hzero : digitOf? 16 '0' = some 0 := by decide
    refine ⟨?_, ?_, ?_⟩
    · simp only [List.length_cons]
      omega
    · simp only [List.length_cons]
      omega
    · simpa only [hexValue?, hzero] using hvalue
  · next heven => exact ⟨by omega, hlength, hvalue⟩

/-- **Every way to write a word is read as that word.** -/
theorem IsWordText.readWord (h : IsWordText w s) : readWord (.string s) = .ok w := by
  obtain ⟨heven, hlength, hvalue⟩ := h.wordDigits
  have hpairs : (Node.wordDigits s).length = 2 * ((Node.wordDigits s).length / 2) := by omega
  obtain ⟨bs, hbs, hbytes, hword⟩ := readHexPairs_of_hexValue? hpairs hvalue 0
  have hread : readHex (Node.wordDigits s) = .ok bs := (readHex_eq_pairs heven hvalue).trans hbs
  have hshort : bs.length ≤ 32 := by omega
  have hw : Word.ofBytes bs = w := by
    rw [Word.ofBytes, ← Nat.zero_add (Bytes.ofBigEndian bs), ← Nat.zero_mul, ← hword]
    exact BitVec.eq_of_toNat_eq (by simp)
  rw [Node.readWord, hread]
  simp only [hshort, if_true, hw]

end Node

end StorageAtlas
