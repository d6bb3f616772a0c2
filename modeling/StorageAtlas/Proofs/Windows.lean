import Mathlib.Algebra.Group.Int.Defs
import Mathlib.Algebra.Group.Nat.Defs
import StorageAtlas.Decode
import StorageAtlas.Proofs.Spelling

/-!
# Values in windows of words

A window is a piece of the 32 bytes of a word (`windowBytes_eq`). `Word.overwrite` puts bytes into a
window: they are read there afterwards, and every window apart from it is as it was. A value type
keeps its values as bytes of its own width (`Elementary.encode`): numbers highest byte first,
signed ones in two's complement, byte strings as they are. Reading them back gives the value
(`decodeValueType_overwrite`).
-/

namespace StorageAtlas

namespace Bytes

theorem littleEndian_add (m n v : Nat) :
    littleEndian (m + n) v = littleEndian m v ++ littleEndian n (v / Nat.pow 256 m) := by
  induction m generalizing v with
  | zero => simp [littleEndian]
  | succ m ih =>
    have hdiv : v / 256 / Nat.pow 256 m = v / Nat.pow 256 (m + 1) := by
      rw [Nat.div_div_eq_div_mul]
      exact congrArg (v / ·) (Nat.pow_succ' (n := m) (m := 256)).symm
    rw [Nat.add_right_comm, littleEndian, ih, hdiv]
    rfl

/-- Higher bytes are not looked at. -/
theorem littleEndian_mod (n v : Nat) : littleEndian n (v % Nat.pow 256 n) = littleEndian n v := by
  have h := littleEndian_ofLittleEndian (littleEndian n v)
  rwa [length_littleEndian, ofLittleEndian_littleEndian] at h

end Bytes

namespace Word

/-- The bytes of the word, with `bs` in the window at `offset`. -/
def overwrite (w : Word) (offset : Nat) (bs : Bytes) : Word :=
  ofBytes ((toBytes w).take (32 - offset - bs.length) ++ bs ++ (toBytes w).drop (32 - offset))

theorem toBytes_ofBytes {bs : Bytes} (h : bs.length = 32) : toBytes (ofBytes bs) = bs := by
  have hlt : Bytes.ofBigEndian bs < 2 ^ 256 := by
    have hlt := Bytes.ofLittleEndian_lt bs.reverse
    rw [List.length_reverse, h] at hlt
    exact hlt
  rw [toBytes, ofBytes, ofNat, BitVec.toNat_ofNat, Nat.mod_eq_of_lt hlt, ← h]
  exact Bytes.bigEndian_ofBigEndian bs

variable {w : Word} {offset n : Nat} {bs : Bytes}

theorem toBytes_overwrite (h : offset + bs.length ≤ 32) : toBytes (w.overwrite offset bs) =
    (toBytes w).take (32 - offset - bs.length) ++ bs ++ (toBytes w).drop (32 - offset) := by
  refine toBytes_ofBytes ?_
  simp only [List.length_append, List.length_take, List.length_drop, length_toBytes]
  omega

theorem window_eq (w : Word) (offset n : Nat) :
    w.window offset n = w.toNat / Nat.pow 256 offset % Nat.pow 256 n := by
  have hpow (k : Nat) : 2 ^ (8 * k) = Nat.pow 256 k := by rw [Nat.pow_mul]; rfl
  rw [window, BitVec.toNat_setWidth, BitVec.toNat_ushiftRight, Nat.shiftRight_eq_div_pow, hpow,
    hpow]

end Word

variable {w : Word} {offset offset' n : Nat} {bs : Bytes}

/-- **A window is a piece of the bytes of the word.** -/
theorem windowBytes_eq (h : offset + n ≤ 32) :
    windowBytes w offset n = .ok (((Word.toBytes w).drop (32 - offset - n)).take n) := by
  have hparts : Bytes.littleEndian 32 w.toNat = Bytes.littleEndian offset w.toNat ++
      (Bytes.littleEndian n (w.toNat / Nat.pow 256 offset) ++
        Bytes.littleEndian (32 - offset - n)
          (w.toNat / Nat.pow 256 offset / Nat.pow 256 n)) := by
    rw [← Bytes.littleEndian_add, ← Bytes.littleEndian_add]
    exact congrArg (Bytes.littleEndian · w.toNat) (by omega)
  have hbytes : ((Word.toBytes w).drop (32 - offset - n)).take n =
      Bytes.bigEndian n (w.toNat / Nat.pow 256 offset) := by
    rw [Word.toBytes, Bytes.bigEndian, hparts, List.reverse_append, List.reverse_append,
      List.append_assoc, List.drop_left' (by simp), List.take_left' (by simp)]
    rfl
  have hwindow : Bytes.bigEndian n (w.window offset n) =
      Bytes.bigEndian n (w.toNat / Nat.pow 256 offset) := by
    rw [Bytes.bigEndian, Word.window_eq, Bytes.littleEndian_mod]
    rfl
  simp only [windowBytes, slotBytes]
  rw [if_neg (by omega), if_neg (by omega), hwindow, hbytes]

/-- What was written is read. -/
theorem windowBytes_overwrite (h : offset + bs.length ≤ 32) :
    windowBytes (w.overwrite offset bs) offset bs.length = .ok bs := by
  have hfront : ((Word.toBytes w).take (32 - offset - bs.length)).length =
      32 - offset - bs.length := by
    rw [List.length_take, Word.length_toBytes]
    omega
  rw [windowBytes_eq h, Word.toBytes_overwrite h, List.append_assoc, List.drop_left' hfront,
    List.take_left' rfl]

/-- A window apart from the one that is written is as it was. -/
theorem windowBytes_overwrite_of_apart (h : offset + bs.length ≤ 32) (hn : offset' + n ≤ 32)
    (hapart : offset' + n ≤ offset ∨ offset + bs.length ≤ offset') :
    windowBytes (w.overwrite offset bs) offset' n = windowBytes w offset' n := by
  have hlength := Word.length_toBytes w
  rw [windowBytes_eq hn, windowBytes_eq hn, Word.toBytes_overwrite h]
  refine congrArg Except.ok (List.ext_getElem ?_ fun i hi hi' => ?_)
  · simp only [List.length_take, List.length_drop, List.length_append]
    omega
  · simp only [List.length_take, List.length_drop, List.length_append] at hi hi'
    simp only [List.getElem_take, List.getElem_drop, List.append_assoc]
    rcases hapart with hlow | hhigh
    · -- the window lies behind the written bytes, which come highest first
      rw [List.getElem_append_right (by simp only [List.length_take]; omega),
        List.getElem_append_right (by simp only [List.length_take]; omega), List.getElem_drop]
      congr 1
      simp only [List.length_take]
      omega
    · rw [List.getElem_append_left (by simp only [List.length_take]; omega), List.getElem_take]

/-! ## Values as bytes -/

namespace Elementary

/-- The values of a type. -/
def Holds : Elementary → Value → Prop
  | uint bits, .uint n => n.toNat < 2 ^ bits.toNat
  | int bits, .int n => -2 ^ (bits.toNat - 1) ≤ n.toInt ∧ n.toInt < 2 ^ (bits.toNat - 1)
  | address, .address _ => True
  | bool, .bool _ => True
  | fixedBytes width, .fixedBytes bs => bs.length = width.toNat
  | _, _ => False

/-- The bytes that are stored for a value. -/
def encode (e : Elementary) : Value → Bytes
  | .uint n | .int n => Bytes.bigEndian e.byteWidth n.toNat
  | .address a => a.toBytes
  | .bool b => [if b then 1 else 0]
  | .fixedBytes bs => bs
  | _ => []

variable {e : Elementary} {v : Value}

theorem byteWidth_of_isIntegerWidth {bits : UInt16} (h : TypeExpr.isIntegerWidth bits.toNat) :
    bits.toNat = 8 * max 1 (min 32 ((bits.toNat + 7) / 8)) := by
  obtain ⟨k, hk⟩ := exists_width h
  omega

theorem length_encode (he : e.Legal) (hv : e.Holds v) : (e.encode v).length = e.byteWidth := by
  cases e with
  | uint bits => cases v <;> first | exact hv.elim | exact Bytes.length_bigEndian _ _
  | int bits => cases v <;> first | exact hv.elim | exact Bytes.length_bigEndian _ _
  | address => cases v <;> first | exact hv.elim | exact Bytes.length_bigEndian _ _
  | bool => cases v <;> first | exact hv.elim | rfl
  | fixedBytes width =>
    cases v with
    | fixedBytes bs =>
      obtain ⟨hpos, hle⟩ := he
      have hlength : bs.length = width.toNat := hv
      simp only [encode, byteWidth]
      omega
    | _ => exact hv.elim

/-- A signed number in range is known by its low bytes. -/
theorem signExtend_of_holds {size : Nat} (hpos : 0 < size) (hle : size ≤ 32) {n : Word}
    (hlow : -2 ^ (8 * size - 1) ≤ n.toInt) (hhigh : n.toInt < 2 ^ (8 * size - 1)) :
    signExtend size (n.toNat % Nat.pow 256 size) = n := by
  have hpow : Nat.pow 256 size = 2 ^ (8 * size) := (Nat.pow_mul 2 8 size).symm
  have hhalf : 2 ^ (8 * size) = 2 * 2 ^ (8 * size - 1) := by
    rw [← Nat.pow_succ', Nat.succ_eq_add_one, Nat.sub_add_cancel (by omega)]
  refine BitVec.eq_of_toInt_eq ?_
  calc (signExtend size (n.toNat % Nat.pow 256 size)).toInt
      = (BitVec.ofNat (8 * size) (n.toNat % Nat.pow 256 size)).toInt :=
        BitVec.toInt_signExtend_of_le (by omega)
    _ = (n.toNat : Int).bmod (2 ^ (8 * size)) := by
        rw [BitVec.toInt_eq_toNat_bmod, BitVec.toNat_ofNat, hpow, Nat.mod_mod, Int.natCast_emod,
          Int.emod_bmod]
    _ = n.toInt.bmod (2 ^ (8 * size)) := by
        rw [BitVec.toInt_eq_toNat_bmod n,
          Int.bmod_bmod_of_dvd (Nat.pow_dvd_pow 2 (by omega : 8 * size ≤ 256))]
    _ = n.toInt := by
        refine Int.bmod_eq_of_le ?_ ?_
        · push_cast [hhalf]
          omega
        · push_cast [hhalf]
          omega

/-- **A value is read back from its bytes.** -/
theorem ofWindow_encode (he : e.Legal) (hv : e.Holds v) : e.ofWindow (e.encode v) = v := by
  cases e with
  | uint bits =>
    cases v with
    | uint n =>
      have hbits := byteWidth_of_isIntegerWidth he
      have hn : n.toNat < 2 ^ bits.toNat := hv
      rw [hbits, Nat.pow_mul] at hn
      refine congrArg Value.uint ?_
      rw [encode, Bytes.ofBigEndian_bigEndian, byteWidth]
      refine (congrArg Word.ofNat (Nat.mod_eq_of_lt hn)).trans ?_
      rw [Word.ofNat, BitVec.ofNat_toNat, BitVec.setWidth_eq]
    | _ => exact hv.elim
  | int bits =>
    cases v with
    | int n =>
      have hbits := byteWidth_of_isIntegerWidth he
      obtain ⟨hlow, hhigh⟩ := hv
      rw [hbits] at hlow hhigh
      refine congrArg Value.int ?_
      rw [encode, Bytes.ofBigEndian_bigEndian, Bytes.length_bigEndian]
      exact signExtend_of_holds (byteWidth_pos _) (byteWidth_le _) hlow hhigh
    | _ => exact hv.elim
  | address =>
    cases v with
    | address a => exact congrArg Value.address (Address.ofBytes_toBytes a)
    | _ => exact hv.elim
  | bool =>
    cases v with
    | bool b => cases b <;> rfl
    | _ => exact hv.elim
  | fixedBytes width =>
    cases v with
    | fixedBytes bs => rfl
    | _ => exact hv.elim

end Elementary

/-- **A value type at any offset** is read back where it was written. -/
theorem decodeValueType_overwrite {t : Ty} {e : Elementary} {v : Value}
    (ht : t.stored = .elementary e) (he : e.Legal) (hv : e.Holds v)
    (h : offset + e.byteWidth ≤ 32) (w : Word) :
    decodeValueType t (w.overwrite offset (e.encode v)) offset = .ok v := by
  have hlength := Elementary.length_encode he hv
  have hread := windowBytes_overwrite (w := w) (hlength.symm ▸ h)
  rw [hlength] at hread
  simp only [decodeValueType, ht, hread, Elementary.ofWindow_encode he hv]

end StorageAtlas
