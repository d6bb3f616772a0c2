import StorageAtlas.Proofs.HexWords

/-!
# Spellings of words

A text tells a word if it has at most 64 digits of base sixteen, of either case and behind an
optional mark (`Node.HoldsDigits`). Which word that is depends on the number of the digits alone:
the odd digit is filled up to a byte, and the bytes to a word, from the left, so that a word written
in full has the digits of the text behind zeros (`Node.HoldsDigits.hexDigits`).

Conversely, the texts that tell a given word are those of its shortest form with zeros in front and
letters in capitals or not, and nothing else but the texts without digits, which tell zero
(`Node.isSpelling_iff`).
-/

namespace StorageAtlas

namespace Text

/-! ## Digits -/

theorem toNat_lt_of_toLower {c : Char} (h : c.toLower.toNat < 128) : c.toNat < 128 := by
  unfold Char.toLower at h
  split at h
  · next hupper => exact Nat.lt_of_le_of_lt hupper.2 (by decide)
  · exact h

/-- A digit is one of `0` to `9` and `a` to `f` once it is in lower case. -/
theorem digitOf?_eq_some_iff {c : Char} {d : Nat} :
    digitOf? 16 c = some d ↔ d < 16 ∧ c.toLower = d.digitChar := by
  have hdigit : ∀ n < 16, n.digitChar.toNat < 128 := by decide
  have hsmall : ∀ k : Fin 128, ∀ n : Fin 16, digitOf? 16 (Char.ofNat k) = some n.val ↔
      (Char.ofNat k).toLower = Nat.digitChar n := by decide +kernel
  have heq (hc : c.toNat < 128) (hd : d < 16) :
      digitOf? 16 c = some d ↔ c.toLower = d.digitChar := by
    simpa only [Char.ofNat_toNat] using hsmall ⟨c.toNat, hc⟩ ⟨d, hd⟩
  constructor
  · intro h
    have hd := lt_of_digitOf? h
    exact ⟨hd, (heq (toNat_lt_of_digitOf? h) hd).1 h⟩
  · rintro ⟨hd, h⟩
    exact (heq (toNat_lt_of_toLower (h ▸ hdigit d hd)) hd).2 h

theorem hexValue?_eq_some_iff {cs : List Char} {value n : Nat} :
    hexValue? value cs = some n ↔ ∃ ds : List Nat, (∀ d ∈ ds, d < 16) ∧
      cs.map Char.toLower = ds.map Nat.digitChar ∧
      ds.foldl (fun v d => v * 16 + d) value = n := by
  induction cs generalizing value with
  | nil => simp [hexValue?]
  | cons c cs ih =>
    rw [hexValue?]
    constructor
    · intro h
      split at h
      · next d hd =>
        obtain ⟨hlt, hc⟩ := digitOf?_eq_some_iff.1 hd
        obtain ⟨ds, hds, hcs, hvalue⟩ := ih.1 h
        refine ⟨d :: ds, List.forall_mem_cons.2 ⟨hlt, hds⟩, ?_, hvalue⟩
        rw [List.map_cons, List.map_cons, hc, hcs]
      · cases h
    · rintro ⟨_ | ⟨d, ds⟩, hds, hcs, hvalue⟩
      · cases hcs
      · obtain ⟨hlt, hds⟩ := List.forall_mem_cons.1 hds
        obtain ⟨hc, hcs⟩ := List.cons.inj hcs
        rw [digitOf?_eq_some_iff.2 ⟨hlt, hc⟩]
        exact ih.2 ⟨ds, hds, hcs, hvalue⟩

theorem ofDigits_reverse_lt {ds : List Nat} (hds : ∀ d ∈ ds, d < 16) :
    Nat.ofDigits 16 ds.reverse < 16 ^ ds.length := by
  rw [← List.length_reverse]
  exact Nat.ofDigits_lt_base_pow_length (by decide) fun d hd => hds d (List.mem_reverse.1 hd)

theorem ofDigits_zeros_append (radix zeros : Nat) (ds : List Nat) :
    Nat.ofDigits radix (List.replicate zeros 0 ++ ds).reverse = Nat.ofDigits radix ds.reverse := by
  rw [List.reverse_append, List.reverse_replicate, Nat.ofDigits_append_replicate_zero]

theorem lt_of_mem_zeros_append {ds : List Nat} (hds : ∀ d ∈ ds, d < 16) (zeros : Nat) :
    ∀ d ∈ List.replicate zeros 0 ++ ds, d < 16 := by
  refine List.forall_mem_append.2 ⟨fun d hd => ?_, hds⟩
  rw [List.eq_of_mem_replicate hd]
  decide

/-- **The digits of one number differ by zeros in front only.** -/
theorem eq_zeros_append {ds es : List Nat} (hds : ∀ d ∈ ds, d < 16) (hes : ∀ d ∈ es, d < 16)
    (hlength : ds.length ≤ es.length)
    (hvalue : Nat.ofDigits 16 ds.reverse = Nat.ofDigits 16 es.reverse) :
    es = List.replicate (es.length - ds.length) 0 ++ ds := by
  have hzeros := lt_of_mem_zeros_append hds (es.length - ds.length)
  apply List.reverse_inj.1
  apply Nat.ofDigits_inj_of_len_eq (b := 16) (by decide)
  · simp only [List.length_append, List.length_reverse, List.length_replicate]
    omega
  · exact fun d hd => hes d (List.mem_reverse.1 hd)
  · exact fun d hd => hzeros d (List.mem_reverse.1 hd)
  · rw [ofDigits_zeros_append, hvalue]

/-! ## Half bytes -/

/-- Two digits a byte, the higher one first. -/
def halfBytes (bs : Bytes) : List Nat := bs.flatMap fun b => [b.toNat / 16, b.toNat % 16]

theorem hexDigits_eq_map (bs : Bytes) : hexDigits bs = (halfBytes bs).map Nat.digitChar := by
  rw [hexDigits, halfBytes, List.map_flatMap]
  rfl

theorem lt_of_mem_halfBytes {bs : Bytes} : ∀ d ∈ halfBytes bs, d < 16 := by
  rw [halfBytes, List.forall_mem_flatMap]
  intro b _
  have hb : b.toNat < 256 := b.toNat_lt
  simp only [List.mem_cons, List.not_mem_nil, or_false]
  omega

theorem length_halfBytes (bs : Bytes) : (halfBytes bs).length = 2 * bs.length := by
  induction bs with
  | nil => rfl
  | cons b bs ih =>
    rw [halfBytes, List.flatMap_cons, ← halfBytes, List.length_append, ih]
    simp only [List.length_cons, List.length_nil]
    omega

theorem foldl_halfBytes (bs : Bytes) (value : Nat) :
    (halfBytes bs).foldl (fun v d => v * 16 + d) value =
      value * Nat.pow 256 bs.length + Bytes.ofBigEndian bs := by
  induction bs generalizing value with
  | nil => simp [halfBytes, Bytes.ofBigEndian, Bytes.ofLittleEndian]
  | cons b bs ih =>
    have hbyte : (value * 16 + b.toNat / 16) * 16 + b.toNat % 16 = value * 256 + b.toNat := by omega
    have hpow : Nat.pow 256 (bs.length + 1) = Nat.pow 256 bs.length * 256 := rfl
    rw [halfBytes, List.flatMap_cons, ← halfBytes, List.foldl_append, ih, Bytes.ofBigEndian_cons,
      List.length_cons, hpow]
    simp only [List.foldl_cons, List.foldl_nil, hbyte]
    ring

end Text

namespace Node

open Json Text

/-! ## Texts of words -/

/-- The text has the digits `ds`, the highest first: at most 64 of base sixteen, letters in either
case, behind an optional mark. -/
structure HoldsDigits (s : String) (ds : List Nat) : Prop where
  text : ∃ cs, (s.toList = cs ∨ s.toList = '0' :: 'x' :: cs) ∧
    cs.map Char.toLower = ds.map Nat.digitChar
  digits_lt : ∀ d ∈ ds, d < 16
  length_le : ds.length ≤ 64

/-- A spelling of a word: the digits of its number behind any zeros, letters in either case, at most
64 of them behind an optional mark. Zero may go without digits. -/
def IsSpelling (w : Word) (s : String) : Prop :=
  ∃ cs, (s.toList = cs ∨ s.toList = '0' :: 'x' :: cs) ∧ cs.length ≤ 64 ∧
    ((∃ zeros, cs.map Char.toLower = List.replicate zeros '0' ++ digits 16 w.toNat) ∨
      cs = [] ∧ w = 0)

variable {s : String} {ds : List Nat} {w : Word} {j : Json}

theorem length_of_map_toLower {cs : List Char} (h : cs.map Char.toLower = ds.map Nat.digitChar) :
    cs.length = ds.length := by
  simpa using congrArg List.length h

theorem isWordText_iff :
    IsWordText w s ↔ ∃ ds, HoldsDigits s ds ∧ Nat.ofDigits 16 ds.reverse = w.toNat := by
  constructor
  · rintro ⟨cs, htext, hlength, hvalue⟩
    obtain ⟨ds, hds, hcs, hvalue⟩ := hexValue?_eq_some_iff.1 hvalue
    exact ⟨ds, ⟨⟨cs, htext, hcs⟩, hds, length_of_map_toLower hcs ▸ hlength⟩,
      (ofDigits_reverse 16 ds).trans hvalue⟩
  · rintro ⟨ds, ⟨⟨cs, htext, hcs⟩, hds, hlength⟩, hvalue⟩
    exact ⟨cs, htext, length_of_map_toLower hcs ▸ hlength,
      hexValue?_eq_some_iff.2 ⟨ds, hds, hcs, (ofDigits_reverse 16 ds).symm.trans hvalue⟩⟩

/-- **The spellings of a word are the texts whose digits denote its number.** -/
theorem isSpelling_iff :
    IsSpelling w s ↔ ∃ ds, HoldsDigits s ds ∧ Nat.ofDigits 16 ds.reverse = w.toNat := by
  obtain ⟨es, hes, hminimal, hvalue⟩ := digits16_eq_map w.toNat
  have hmap (zeros : Nat) : (List.replicate zeros 0 ++ es).map Nat.digitChar =
      List.replicate zeros '0' ++ digits 16 w.toNat := by
    rw [List.map_append, List.map_replicate, hminimal]
    rfl
  constructor
  · rintro ⟨cs, htext, hlength, ⟨zeros, hcs⟩ | ⟨rfl, rfl⟩⟩
    · rw [← hmap] at hcs
      have hdigits : HoldsDigits s (List.replicate zeros 0 ++ es) :=
        ⟨⟨cs, htext, hcs⟩, lt_of_mem_zeros_append hes zeros, length_of_map_toLower hcs ▸ hlength⟩
      exact ⟨_, hdigits, (ofDigits_zeros_append 16 zeros es).trans hvalue⟩
    · exact ⟨[], ⟨⟨[], htext, rfl⟩, nofun, Nat.zero_le 64⟩, rfl⟩
  · rintro ⟨ds, ⟨⟨cs, htext, hcs⟩, hds, hlength⟩, hnumber⟩
    refine ⟨cs, htext, length_of_map_toLower hcs ▸ hlength, ?_⟩
    by_cases hnone : ds.length = 0
    · obtain rfl := List.length_eq_zero_iff.1 hnone
      exact .inr ⟨List.map_eq_nil_iff.1 hcs, BitVec.eq_of_toNat_eq hnumber.symm⟩
    · -- The shortest form is no longer than any other, unless that has no digits at all.
      have hshortest : es.length ≤ ds.length := by
        have hlt : w.toNat < 16 ^ ds.length := hnumber ▸ ofDigits_reverse_lt hds
        have hle := Nat.toDigits_length 16 w.toNat ds.length (Nat.pos_of_ne_zero hnone) hlt
        rwa [← digits, hminimal, List.length_map] at hle
      refine .inl ⟨ds.length - es.length, ?_⟩
      rw [hcs, ← hmap, ← eq_zeros_append hes hds hshortest (hvalue.trans hnumber.symm)]

namespace HoldsDigits

variable (h : HoldsDigits s ds)
include h

theorem toNat_word :
    (Word.ofNat (Nat.ofDigits 16 ds.reverse)).toNat = Nat.ofDigits 16 ds.reverse := by
  have hfits : Nat.ofDigits 16 ds.reverse < 2 ^ 256 :=
    calc Nat.ofDigits 16 ds.reverse < 16 ^ ds.length := ofDigits_reverse_lt h.digits_lt
      _ ≤ 16 ^ 64 := Nat.pow_le_pow_right (by decide) h.length_le
      _ = 2 ^ 256 := by decide
  rw [Word.ofNat, BitVec.toNat_ofNat, Nat.mod_eq_of_lt hfits]

theorem readWord :
    readWord (.string s) = .ok (Word.ofNat (Nat.ofDigits 16 ds.reverse)) :=
  (isWordText_iff.2 ⟨ds, h, h.toNat_word.symm⟩).readWord

/-- **Written in full, the word has the digits of the text behind zeros.** -/
theorem hexDigits (hvalue : Nat.ofDigits 16 ds.reverse = w.toNat) :
    Text.hexDigits (Word.toBytes w) =
      List.replicate (64 - ds.length) '0' ++ ds.map Nat.digitChar := by
  have hfits : w.toNat < Nat.pow 256 32 := w.isLt
  have hbytes : Nat.ofDigits 16 (halfBytes (Word.toBytes w)).reverse = w.toNat := by
    rw [ofDigits_reverse, foldl_halfBytes, Nat.zero_mul, Nat.zero_add, Word.toBytes,
      Bytes.ofBigEndian_bigEndian, Nat.mod_eq_of_lt hfits]
  have hlength : (halfBytes (Word.toBytes w)).length = 64 := by
    rw [length_halfBytes, Word.length_toBytes]
  have hfull := eq_zeros_append h.digits_lt lt_of_mem_halfBytes (hlength ▸ h.length_le)
    (hvalue.trans hbytes.symm)
  rw [hexDigits_eq_map, hfull, hlength, List.map_append, List.map_replicate]
  rfl

end HoldsDigits

/-! ## What is read -/

theorem dropHexMark_text (cs : List Char) :
    cs = dropHexMark cs ∨ cs = '0' :: 'x' :: dropHexMark cs := by
  unfold dropHexMark
  split
  · exact .inr rfl
  · exact .inl rfl

theorem exists_drop_wordDigits (s : String) :
    ∃ zeros, dropHexMark s.toList = (wordDigits s).drop zeros := by
  simp only [wordDigits]
  split
  · exact ⟨1, rfl⟩
  · exact ⟨0, rfl⟩

/-- Nothing but digits is read, and no more of them than a word has. -/
theorem exists_holdsDigits (h : readWord (.string s) = .ok w) : ∃ ds, HoldsDigits s ds := by
  rw [readWord] at h
  split at h
  · cases h
  · next bs hbs =>
    split at h
    · next hshort =>
      obtain ⟨heven, n, hn, rfl⟩ := readHex_eq_ok_iff.1 hbs
      rw [Bytes.length_bigEndian] at hshort
      obtain ⟨ds, hds, hcs, -⟩ := hexValue?_eq_some_iff.1 hn
      have hlength := length_of_map_toLower hcs
      -- The digit that was put in front of an odd number of them is none of the text's.
      obtain ⟨zeros, hdrop⟩ := exists_drop_wordDigits s
      refine ⟨ds.drop zeros, ⟨_, dropHexMark_text s.toList, ?_⟩,
        fun d hd => hds d (List.mem_of_mem_drop hd), ?_⟩
      · rw [hdrop, List.map_drop, List.map_drop, hcs]
      · rw [List.length_drop]
        omega
    · cases h

theorem readWord_eq_ok_iff : readWord j = .ok w ↔
    ∃ s ds, j = .string s ∧ HoldsDigits s ds ∧ Nat.ofDigits 16 ds.reverse = w.toNat := by
  constructor
  · intro h
    cases j with
    | string s =>
      obtain ⟨ds, hds⟩ := exists_holdsDigits h
      rw [hds.readWord] at h
      refine ⟨s, ds, rfl, hds, ?_⟩
      rw [← Except.ok.inj h, hds.toNat_word]
    | _ => exact nomatch h
  · rintro ⟨s, ds, rfl, hds, hvalue⟩
    exact (isWordText_iff.2 ⟨ds, hds, hvalue⟩).readWord

/-- **A word is read by its number.** A result tells a word exactly if it is a text of at most 64
digits behind an optional mark; the word then is the number that they denote, and written in full it
has these digits behind zeros. So exactly the spellings of a word are read as that word. -/
theorem readWord_spellings (j : Json) :
    ((∃ w, readWord j = .ok w) ↔ ∃ s ds, j = .string s ∧ HoldsDigits s ds) ∧
    (∀ s ds, j = .string s → HoldsDigits s ds → ∃ w, readWord j = .ok w ∧
      Word.toBytes w = Bytes.bigEndian 32 (Nat.ofDigits 16 ds.reverse) ∧
      hexDigits (Word.toBytes w) =
        List.replicate (64 - ds.length) '0' ++ ds.map Nat.digitChar) ∧
    ∀ w, readWord j = .ok w ↔ ∃ s, j = .string s ∧ IsSpelling w s := by
  refine ⟨⟨?_, ?_⟩, ?_, fun w => ?_⟩
  · rintro ⟨w, hw⟩
    obtain ⟨s, ds, hj, hds, -⟩ := readWord_eq_ok_iff.1 hw
    exact ⟨s, ds, hj, hds⟩
  · rintro ⟨s, ds, rfl, hds⟩
    exact ⟨_, hds.readWord⟩
  · rintro s ds rfl hds
    refine ⟨_, hds.readWord, ?_, hds.hexDigits hds.toNat_word.symm⟩
    rw [Word.toBytes, hds.toNat_word]
  · simp only [readWord_eq_ok_iff, isSpelling_iff, exists_and_left]

/-- Capitals, an odd number of digits, zeros in front, no digits at all, and one digit too many. -/
theorem readWord_spellings_samples :
    HoldsDigits "0xaBc" [10, 11, 12] ∧
    (∃ w, readWord (.string "0xaBc") = .ok w ∧ Word.toBytes w = Bytes.bigEndian 32 0xabc ∧
      hexDigits (Word.toBytes w) = List.replicate 61 '0' ++ ['a', 'b', 'c']) ∧
    IsSpelling 0xabc "000ABC" ∧ readWord (.string "000ABC") = .ok 0xabc ∧
    IsSpelling 0 "0x" ∧ readWord (.string "0x") = .ok 0 ∧
    ∀ w, readWord (.string (String.ofList (List.replicate 65 '0'))) ≠ .ok w := by
  have hmixed : HoldsDigits "0xaBc" [10, 11, 12] :=
    ⟨⟨"aBc".toList, .inr (by decide), by decide⟩, by decide, by decide⟩
  have hpadded : IsSpelling 0xabc "000ABC" :=
    ⟨"000ABC".toList, .inl rfl, by decide, .inl ⟨3, by decide⟩⟩
  have hnone : IsSpelling 0 "0x" := ⟨[], .inr (by decide), by decide, .inr ⟨rfl, rfl⟩⟩
  have hnumber : Nat.ofDigits 16 [10, 11, 12].reverse = 0xabc := by decide
  obtain ⟨w, hread, hbytes, hfull⟩ :=
    (readWord_spellings (.string "0xaBc")).2.1 _ _ rfl hmixed
  rw [hnumber] at hbytes
  refine ⟨hmixed, ⟨w, hread, hbytes, hfull⟩, hpadded,
    ((readWord_spellings (.string "000ABC")).2.2 0xabc).2 ⟨_, rfl, hpadded⟩, hnone,
    ((readWord_spellings (.string "0x")).2.2 0).2 ⟨_, rfl, hnone⟩, fun w hw => ?_⟩
  obtain ⟨s, hs, cs, htext, hlength, -⟩ := ((readWord_spellings _).2.2 w).1 hw
  obtain rfl := Json.string.inj hs
  rw [String.toList_ofList] at htext
  rcases htext with rfl | htext
  · exact absurd hlength (by decide)
  · exact absurd htext (by simp [List.replicate])

end Node

end StorageAtlas
