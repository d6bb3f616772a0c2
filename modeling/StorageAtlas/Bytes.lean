/-!
# Byte strings

Numbers as byte strings of a fixed length, in both orders, and back. Writing keeps the low-order
bytes; reading a string that was written gives the number modulo 256 to the power of its length
(`ofLittleEndian_littleEndian`, `ofBigEndian_bigEndian`).
-/

namespace StorageAtlas

/-- A byte string. -/
abbrev Bytes := List UInt8

namespace Bytes

/-- The `len` low-order bytes of `v`, lowest first. -/
def littleEndian : Nat → Nat → Bytes
  | 0, _ => []
  | len + 1, v => UInt8.ofNat v :: littleEndian len (v / 256)

/-- The `len` low-order bytes of `v`, highest first. -/
def bigEndian (len v : Nat) : Bytes := (littleEndian len v).reverse

/-- The number whose bytes are given lowest first. -/
def ofLittleEndian : Bytes → Nat
  | [] => 0
  | b :: bs => b.toNat + 256 * ofLittleEndian bs

/-- The number whose bytes are given highest first. -/
def ofBigEndian (bs : Bytes) : Nat := ofLittleEndian bs.reverse

@[simp] theorem length_littleEndian (len v : Nat) : (littleEndian len v).length = len := by
  induction len generalizing v with
  | zero => rfl
  | succ len ih => simp [littleEndian, ih]

@[simp] theorem length_bigEndian (len v : Nat) : (bigEndian len v).length = len := by
  simp [bigEndian]

theorem ofLittleEndian_lt (bs : Bytes) : ofLittleEndian bs < Nat.pow 256 bs.length := by
  induction bs with
  | nil => simp [ofLittleEndian]
  | cons b bs ih =>
    have hb : b.toNat < 256 := b.toNat_lt
    change b.toNat + 256 * ofLittleEndian bs < Nat.pow 256 bs.length * 256
    omega

theorem ofLittleEndian_littleEndian (len v : Nat) :
    ofLittleEndian (littleEndian len v) = v % Nat.pow 256 len := by
  induction len generalizing v with
  | zero => simp [littleEndian, ofLittleEndian, Nat.mod_one]
  | succ len ih =>
    have hbyte : (UInt8.ofNat v).toNat = v % 256 := by simp
    simp only [littleEndian, ofLittleEndian, ih, hbyte]
    change _ = v % (Nat.pow 256 len * 256)
    rw [Nat.mul_comm (Nat.pow 256 len) 256, Nat.mod_mul]

/-- A number that fits is known by its bytes. -/
theorem littleEndian_inj {len v w : Nat} (hv : v < Nat.pow 256 len) (hw : w < Nat.pow 256 len) :
    littleEndian len v = littleEndian len w ↔ v = w := by
  refine ⟨fun h => ?_, fun h => h ▸ rfl⟩
  have hback := congrArg ofLittleEndian h
  simp only [ofLittleEndian_littleEndian] at hback
  rwa [Nat.mod_eq_of_lt hv, Nat.mod_eq_of_lt hw] at hback

theorem ofLittleEndian_append (bs cs : Bytes) :
    ofLittleEndian (bs ++ cs) = ofLittleEndian bs + Nat.pow 256 bs.length * ofLittleEndian cs := by
  induction bs with
  | nil => simp [ofLittleEndian]
  | cons b bs ih =>
    have hpow : Nat.pow 256 (b :: bs).length = 256 * Nat.pow 256 bs.length := Nat.mul_comm _ _
    rw [List.cons_append, ofLittleEndian, ofLittleEndian, ih, hpow, Nat.mul_add, Nat.mul_assoc,
      Nat.add_assoc]

theorem ofBigEndian_cons (b : UInt8) (bs : Bytes) :
    ofBigEndian (b :: bs) = b.toNat * Nat.pow 256 bs.length + ofBigEndian bs := by
  rw [ofBigEndian, List.reverse_cons, ofLittleEndian_append, List.length_reverse, Nat.add_comm,
    Nat.mul_comm]
  simp only [ofLittleEndian, Nat.mul_zero, Nat.add_zero, ofBigEndian]

theorem ofBigEndian_bigEndian (len v : Nat) :
    ofBigEndian (bigEndian len v) = v % Nat.pow 256 len := by
  simp [ofBigEndian, bigEndian, ofLittleEndian_littleEndian]

theorem littleEndian_ofLittleEndian (bs : Bytes) :
    littleEndian bs.length (ofLittleEndian bs) = bs := by
  induction bs with
  | nil => rfl
  | cons b bs ih =>
    have hb : b.toNat < 256 := b.toNat_lt
    have hdiv : (b.toNat + 256 * ofLittleEndian bs) / 256 = ofLittleEndian bs := by omega
    have hbyte : UInt8.ofNat (b.toNat + 256 * ofLittleEndian bs) = b := by
      apply UInt8.toNat_inj.1
      simp only [UInt8.toNat_ofNat', Nat.reducePow]
      omega
    simp only [List.length_cons, littleEndian, ofLittleEndian, hdiv, hbyte, ih]

theorem bigEndian_ofBigEndian (bs : Bytes) : bigEndian bs.length (ofBigEndian bs) = bs := by
  have h := littleEndian_ofLittleEndian bs.reverse
  rw [List.length_reverse] at h
  simp [bigEndian, ofBigEndian, h]

end Bytes

end StorageAtlas
