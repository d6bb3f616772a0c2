import Mathlib.Data.List.TakeWhile
import StorageAtlas.Proofs.Numerals
import StorageAtlas.Text.Utf8

/-!
# Texts are read back from their bytes

`decodeLossy_utf8`: the reader that puts replacement characters in the place of broken bytes has
none to put where the bytes are those of a text. A character of several bytes is told from broken
ones by its second byte, whose range depends on the first (`leadShape?`); that the ranges leave out
overlong bytes, surrogates and numbers that are no characters does not touch any character's own
bytes.
-/

namespace StorageAtlas.Text

theorem toNat_byte {n : Nat} (h : n < 256) : (UInt8.ofNat n).toNat = n := by
  rw [UInt8.toNat_ofNat', Nat.mod_eq_of_lt h]

/-- The byte that carries a character on by the low six bits of a number. -/
def carryByte (n : Nat) : UInt8 := UInt8.ofNat (n % 64 + 128)

theorem toNat_carryByte (n : Nat) : (carryByte n).toNat = n % 64 + 128 := toNat_byte (by omega)

theorem isContinuation_carryByte (n : Nat) : isContinuation (carryByte n) := by
  rw [isContinuation, toNat_carryByte, Bool.and_eq_true, decide_eq_true_eq, decide_eq_true_eq]
  omega

theorem joinPayload_carryBytes (high : Nat) (ns : List Nat) :
    joinPayload high (ns.map carryByte) = ns.foldl (fun acc n => acc * 64 + n % 64) high := by
  rw [joinPayload, List.foldl_map]
  congr 1
  funext acc n
  rw [toNat_carryByte]
  omega

section Run

variable {low high lead n : Nat} {ns : List Nat} {rest : Bytes}

/-- Bytes that carry a character on are taken to their end, and no further. -/
theorem continuationRun_carryBytes (hn : low ≤ n % 64 + 128 ∧ n % 64 + 128 ≤ high) :
    continuationRun low high ((n :: ns).map carryByte ++ rest) (ns.length + 1) = ns.length + 1 := by
  have hall : ∀ b ∈ ns.map carryByte, isContinuation b := by
    intro b hb
    obtain ⟨m, -, rfl⟩ := List.mem_map.1 hb
    exact isContinuation_carryByte m
  have htake : (ns.map carryByte ++ rest).take ns.length = ns.map carryByte :=
    List.take_left' (List.length_map carryByte)
  rw [List.map_cons, List.cons_append, continuationRun, toNat_carryByte, if_pos hn,
    Nat.add_sub_cancel, htake, List.takeWhile_eq_self_iff.2 hall, List.length_map, Nat.add_comm]

/-- **A character of several bytes is read from them**, whatever stands behind. -/
theorem decodeLossy_many {c : Char} (hmany : 0x80 ≤ lead) (hlead : lead < 256)
    (hshape : leadShape? lead = some (ns.length + 2, low, high))
    (hn : low ≤ n % 64 + 128 ∧ n % 64 + 128 ≤ high)
    (hc : (n :: ns).foldl (fun acc n => acc * 64 + n % 64) (leadPayload (ns.length + 2) lead) =
      c.toNat) :
    decodeLossy (UInt8.ofNat lead :: (n :: ns).map carryByte ++ rest) = c :: decodeLossy rest := by
  have hlength : ((n :: ns).map carryByte).length = ns.length + 1 := List.length_map carryByte
  have hfirst : decodeFirst (UInt8.ofNat lead) ((n :: ns).map carryByte ++ rest) =
      (c, ns.length + 1) := by
    have hrun : continuationRun low high ((n :: ns).map carryByte ++ rest) (ns.length + 2 - 1) =
        ns.length + 1 := continuationRun_carryBytes hn
    unfold decodeFirst
    rw [toNat_byte hlead, if_neg (Nat.not_lt.2 hmany), hshape]
    simp only
    rw [hrun, if_pos rfl, List.take_left' hlength, joinPayload_carryBytes, hc, Char.ofNat_toNat]
  rw [List.cons_append, decodeLossy, hfirst]
  simp only [List.drop_left' hlength]

end Run

section Shapes

variable {n : Nat}

/-- Of three bytes the second is in range: the number needs three, and is no surrogate. -/
theorem leadShape_three (hlow : 0x800 ≤ n) (hhigh : n < 0x10000)
    (hvalid : n < 0xd800 ∨ 0xdfff < n) :
    ∃ low high, leadShape? (n / 4096 % 16 + 224) = some (3, low, high) ∧
      low ≤ n / 64 % 64 + 128 ∧ n / 64 % 64 + 128 ≤ high := by
  unfold leadShape?
  rw [if_neg (by omega)]
  by_cases hfirst : n / 4096 % 16 + 224 = 0xe0
  · exact ⟨0xa0, 0xbf, if_pos hfirst, by omega, by omega⟩
  · rw [if_neg hfirst]
    by_cases hsurrogate : n / 4096 % 16 + 224 = 0xed
    · exact ⟨0x80, 0x9f, if_pos hsurrogate, by omega, by omega⟩
    · exact ⟨0x80, 0xbf, by rw [if_neg hsurrogate, if_pos (by omega)], by omega, by omega⟩

/-- Of four bytes the second is in range: the number needs four, and is small enough. -/
theorem leadShape_four (hlow : 0x10000 ≤ n) (hhigh : n < 0x110000) :
    ∃ low high, leadShape? (n / 262144 % 8 + 240) = some (4, low, high) ∧
      low ≤ n / 4096 % 64 + 128 ∧ n / 4096 % 64 + 128 ≤ high := by
  unfold leadShape?
  rw [if_neg (by omega), if_neg (by omega), if_neg (by omega), if_neg (by omega)]
  by_cases hfirst : n / 262144 % 8 + 240 = 0xf0
  · exact ⟨0x90, 0xbf, if_pos hfirst, by omega, by omega⟩
  · rw [if_neg hfirst]
    by_cases hmiddle : n / 262144 % 8 + 240 ≤ 0xf3
    · exact ⟨0x80, 0xbf, if_pos (by omega), by omega, by omega⟩
    · exact ⟨0x80, 0x8f, by rw [if_neg (by omega), if_pos (by omega)], by omega, by omega⟩

end Shapes

/-- A character of one byte is read from it. -/
theorem decodeLossy_one {c : Char} (hsmall : c.toNat < 128) (rest : Bytes) :
    decodeLossy (String.utf8EncodeChar c ++ rest) = c :: decodeLossy rest := by
  obtain ⟨b, hb, hc⟩ := encode_of_lt hsmall
  have hbyte : b.toNat < 0x80 := by
    rw [← toNat_ofUInt8, hc]
    exact hsmall
  rw [hb, List.singleton_append, decodeLossy, decodeFirst, if_pos hbyte, hc]
  rfl

/-- **The bytes of a character are read as the character.** -/
theorem decodeLossy_encode (c : Char) (rest : Bytes) :
    decodeLossy (String.utf8EncodeChar c ++ rest) = c :: decodeLossy rest := by
  by_cases hone : c.toNat ≤ 127
  · exact decodeLossy_one (Nat.lt_succ_of_le hone) rest
  · have hvalid : c.toNat < 0xd800 ∨ 0xdfff < c.toNat ∧ c.toNat < 0x110000 := c.valid
    have hcases : String.utf8EncodeChar c =
        if c.toNat ≤ 2047 then UInt8.ofNat (c.toNat / 64 % 32 + 192) :: [c.toNat].map carryByte
        else if c.toNat ≤ 65535 then
          UInt8.ofNat (c.toNat / 4096 % 16 + 224) :: [c.toNat / 64, c.toNat].map carryByte
        else UInt8.ofNat (c.toNat / 262144 % 8 + 240) ::
          [c.toNat / 4096, c.toNat / 64, c.toNat].map carryByte := if_neg hone
    rw [hcases]
    by_cases htwo : c.toNat ≤ 2047
    · have hshape : leadShape? (c.toNat / 64 % 32 + 192) = some (2, 0x80, 0xbf) :=
        if_pos (by omega)
      rw [if_pos htwo]
      refine decodeLossy_many (by omega) (by omega) hshape (by omega) ?_
      simp only [List.foldl_cons, List.foldl_nil, leadPayload, List.length_nil, Nat.reduceAdd,
        if_true]
      omega
    · rw [if_neg htwo]
      by_cases hthree : c.toNat ≤ 65535
      · obtain ⟨low, high, hshape, hsecond⟩ : ∃ low high,
            leadShape? (c.toNat / 4096 % 16 + 224) = some (3, low, high) ∧
              low ≤ c.toNat / 64 % 64 + 128 ∧ c.toNat / 64 % 64 + 128 ≤ high :=
          leadShape_three (by omega) (by omega) (by omega)
        rw [if_pos hthree]
        refine decodeLossy_many (by omega) (by omega) hshape hsecond ?_
        simp only [List.foldl_cons, List.foldl_nil, leadPayload, List.length_cons, List.length_nil,
          Nat.reduceAdd, Nat.reduceEqDiff, if_true, if_false]
        omega
      · obtain ⟨low, high, hshape, hsecond⟩ : ∃ low high,
            leadShape? (c.toNat / 262144 % 8 + 240) = some (4, low, high) ∧
              low ≤ c.toNat / 4096 % 64 + 128 ∧ c.toNat / 4096 % 64 + 128 ≤ high :=
          leadShape_four (by omega) (by omega)
        rw [if_neg hthree]
        refine decodeLossy_many (by omega) (by omega) hshape hsecond ?_
        simp only [List.foldl_cons, List.foldl_nil, leadPayload, List.length_cons, List.length_nil,
          Nat.reduceAdd, Nat.reduceEqDiff, if_false]
        omega

/-- **A text is read back from its bytes.** -/
theorem decodeLossy_utf8 (cs : List Char) : decodeLossy (utf8 cs) = cs := by
  induction cs with
  | nil => rw [utf8, List.flatMap_nil, decodeLossy]
  | cons c cs ih => rw [utf8, List.flatMap_cons, decodeLossy_encode, ← utf8, ih]

end StorageAtlas.Text
