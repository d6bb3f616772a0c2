import StorageAtlas.Proofs.HexWords
import StorageAtlas.Proofs.Windows

/-!
# Keys of value types

What a literal denotes where a key of a value type is expected is said without the readers: a number
by the places of its digits, of which there is at least one, behind an optional minus sign; a byte
string by two digits for each byte; a flag by its name or its number (`Elementary.denoted?`). A
number, byte string or flag means a value of the type or lies outside of it (`Elementary.Denotes`),
and a byte string that is shorter than its type is filled up with zeros on the right.

A literal that denotes a value of the type is accepted, except that a sign is not taken for unsigned
integers, so that minus zero is refused there. Nothing asks for the digit, though: a sign, a mark,
underscores or nothing at all denote no number and are taken for zero (`Elementary.TakenForZero`).
There is nothing else that is accepted (`Elementary.encodeKey_eq_ok_iff`). The key is a word in
which decoding finds the value again, at the low end or, for byte strings, at the high end
(`Elementary.decodeValueType_keyBytes`).
-/

namespace StorageAtlas

open Text

namespace Bytes

theorem drop_bigEndian {m n : Nat} (h : m ≤ n) (v : Nat) :
    (bigEndian n v).drop (n - m) = bigEndian m v := by
  have hparts : littleEndian n v =
      littleEndian m v ++ littleEndian (n - m) (v / Nat.pow 256 m) := by
    rw [← littleEndian_add, Nat.add_sub_cancel' h]
  rw [bigEndian, hparts, List.reverse_append, List.drop_left' (by simp)]
  rfl

end Bytes

/-! ## What literals denote -/

/-- What a key literal says, whether or not a type can hold it. -/
inductive Denoted
  | number (z : Int)
  | flag (b : Bool)
  | bytes (bs : Bytes)
deriving DecidableEq

namespace Text

/-- The number of a literal with at least one digit. -/
def numeral? (literal : List Char) : Option Nat :=
  if HasDigit literal then natural? literal else none

/-- The number of an integer literal, which may have a minus sign in front of its mark. -/
def integer? : List Char → Option Int
  | '-' :: cs => (numeral? cs).map fun n : Nat => -(n : Int)
  | cs => (numeral? cs).map fun n : Nat => (n : Int)

/-- An integer literal without its sign. -/
def magnitude : List Char → List Char
  | '-' :: cs => cs
  | cs => cs

/-- The bytes that two digits each stand for, behind an optional mark. -/
def byteString? (literal : List Char) : Option Bytes :=
  let digits := dropHexMark literal
  if digits.length % 2 = 0 then
    (hexValue? 0 digits).map (Bytes.bigEndian (digits.length / 2))
  else none

/-- The flag that is named, or meant by its number. -/
def flag? (literal : List Char) : Option Bool :=
  if literal = ['t', 'r', 'u', 'e'] ∨ literal = ['1'] then some true
  else if literal = ['f', 'a', 'l', 's', 'e'] ∨ literal = ['0'] then some false
  else none

variable {literal : List Char}

theorem numeral?_eq_some_iff {n : Nat} :
    numeral? literal = some n ↔ natural? literal = some n ∧ HasDigit literal := by
  unfold numeral?
  split
  · next hdigit => exact (and_iff_left hdigit).symm
  · next hnone => exact ⟨nofun, fun h => absurd h.2 hnone⟩

theorem isNumeral_iff {n : Nat} :
    IsNumeral literal n ↔ numeral? literal = some n ∧ n < 2 ^ 256 := by
  rw [IsNumeral, numeral?_eq_some_iff, and_assoc]

theorem not_isNumeral_minus (cs : List Char) (n : Nat) : ¬IsNumeral ('-' :: cs) n := by
  have hminus : ¬IsNumeralText 10 ('-' :: cs) := fun h =>
    absurd (h '-' List.mem_cons_self) (by decide)
  rintro ⟨hn, -, -⟩
  unfold natural? at hn
  rw [show splitMark ('-' :: cs) = (10, '-' :: cs) from rfl] at hn
  exact nomatch (if_neg hminus).symm.trans hn

theorem integer?_of_head?_ne (h : literal.head? ≠ some '-') :
    integer? literal = (numeral? literal).map fun n : Nat => (n : Int) := by
  unfold integer?
  split
  · exact absurd rfl h
  · rfl

theorem magnitude_of_head?_ne (h : literal.head? ≠ some '-') : magnitude literal = literal := by
  unfold magnitude
  split
  · exact absurd rfl h
  · rfl

theorem IsDigitless.not_hasDigit (h : IsDigitless literal) : ¬HasDigit literal := by
  rintro ⟨c, hc, hdigit⟩
  rw [h c hc, digitOf?_underscore] at hdigit
  exact nomatch hdigit

theorem IsDigitless.numeral? (h : IsDigitless literal) : numeral? literal = none :=
  if_neg h.not_hasDigit

theorem IsDigitless.magnitude_eq (h : IsDigitless literal) : magnitude literal = literal := by
  refine magnitude_of_head?_ne fun hsign => ?_
  obtain ⟨cs, rfl⟩ := List.head?_eq_some_iff.1 hsign
  have hminus : '-' = '_' := h '-' List.mem_cons_self
  exact absurd hminus (by decide)

/-- Without digits there is no number, whatever the sign. -/
theorem integer?_eq_none (h : IsDigitless (magnitude literal)) : integer? literal = none := by
  unfold magnitude at h
  unfold integer?
  split at h
  · rw [h.numeral?]
    rfl
  · rw [h.numeral?]
    rfl

/-! ### Byte strings -/

/-- **A literal is read as the bytes it denotes.** -/
theorem readHexLiteral_eq_ok_iff {bs : Bytes} :
    readHexLiteral literal = .ok bs ↔ byteString? literal = some bs := by
  have hread : readHexLiteral literal = .ok bs ↔ readHex (dropHexMark literal) = .ok bs := by
    unfold readHexLiteral
    cases readHex (dropHexMark literal) <;> simp
  rw [hread, readHex_eq_ok_iff, byteString?]
  split
  · next heven => simp only [heven, true_and, Option.map_eq_some_iff]
  · next hodd => simp [hodd]

/-! ### Numbers -/

/-- **A signed literal is read as the number it denotes**, if 256 bits can hold it, or as zero if
no digit stands in it. -/
theorem readInt_eq_ok_iff {z : Int} : readInt literal = .ok z ↔
    (integer? literal = some z ∧ -2 ^ 255 ≤ z ∧ z < 2 ^ 255) ∨
      IsDigitless (magnitude literal) ∧ z = 0 := by
  have hhalf : numeralLimit / 2 = 2 ^ 255 := rfl
  -- the bound itself is in range below zero only, so the two signs are checked differently
  by_cases hsign : literal.head? = some '-'
  · obtain ⟨cs, rfl⟩ := List.head?_eq_some_iff.1 hsign
    have hread : readInt ('-' :: cs) = readUint cs >>= fun n =>
        if n ≤ numeralLimit / 2 then .ok (-(n : Int))
        else .error (.doesNotFit (String.ofList ('-' :: cs)) "int256") := by
      simp only [readInt]
      cases readUint cs <;> rfl
    have hvalue : integer? ('-' :: cs) = (numeral? cs).map fun n : Nat => -(n : Int) := rfl
    have hdigits : magnitude ('-' :: cs) = cs := rfl
    rw [hread, hvalue, hdigits, bind_ite_eq_ok_iff, Option.map_eq_some_iff, hhalf]
    simp only [readUint_eq_ok_iff_numeral, isNumeral_iff]
    constructor
    · rintro ⟨n, ⟨hn, -⟩ | ⟨hnone, rfl⟩, hle, rfl⟩
      · exact .inl ⟨⟨n, hn, rfl⟩, by omega, by omega⟩
      · exact .inr ⟨hnone, rfl⟩
    · rintro (⟨⟨n, hn, rfl⟩, hlow, -⟩ | ⟨hnone, rfl⟩)
      · exact ⟨n, .inl ⟨hn, by omega⟩, by omega, rfl⟩
      · exact ⟨0, .inr ⟨hnone, rfl⟩, Nat.zero_le _, rfl⟩
  · have hread : readInt literal = readUint literal >>= fun n =>
        if n < numeralLimit / 2 then .ok (n : Int)
        else .error (.doesNotFit (String.ofList literal) "int256") := by
      unfold readInt
      split
      · exact absurd rfl hsign
      · cases readUint literal <;> rfl
    rw [hread, integer?_of_head?_ne hsign, magnitude_of_head?_ne hsign, bind_ite_eq_ok_iff,
      Option.map_eq_some_iff, hhalf]
    simp only [readUint_eq_ok_iff_numeral, isNumeral_iff]
    constructor
    · rintro ⟨n, ⟨hn, -⟩ | ⟨hnone, rfl⟩, hlt, rfl⟩
      · exact .inl ⟨⟨n, hn, rfl⟩, by omega, by omega⟩
      · exact .inr ⟨hnone, rfl⟩
    · rintro (⟨⟨n, hn, rfl⟩, -, hhigh⟩ | ⟨hnone, rfl⟩)
      · exact ⟨n, .inl ⟨hn, by omega⟩, by omega, rfl⟩
      · exact ⟨0, .inr ⟨hnone, rfl⟩, by decide, rfl⟩

end Text

/-! ## The values that literals denote -/

/-- The value that is meant; a byte string is filled up with zeros on the right. -/
def Denoted.Means : Denoted → Value → Prop
  | number z, .uint n => z = n.toNat
  | number z, .int n => z = n.toInt
  | flag b, .bool b' => b = b'
  | bytes bs, .address a => bs = a.toBytes
  | bytes bs, .fixedBytes cs => ∃ zeros, cs = bs ++ List.replicate zeros 0
  | _, _ => False

namespace Elementary

/-- What a literal says where a key of the type is expected. -/
def denoted? (e : Elementary) (literal : List Char) : Option Denoted :=
  match e with
  | uint _ | int _ => (integer? literal).map .number
  | address | fixedBytes _ => (byteString? literal).map .bytes
  | bool => (flag? literal).map .flag

/-- The literal denotes a value of the type. -/
def Denotes (e : Elementary) (literal : List Char) (v : Value) : Prop :=
  ∃ d, e.denoted? literal = some d ∧ d.Means v ∧ e.Holds v

/-- Keys of unsigned integers are written without a sign. -/
def SignAllowed : Elementary → List Char → Prop
  | uint _, literal => literal.head? ≠ some '-'
  | _, _ => True

/-- The literal denotes no number, as no digit stands in it, and is taken for this zero. -/
inductive TakenForZero : Elementary → List Char → Value → Prop
  | uint {bits : UInt16} {literal : List Char} (h : IsDigitless literal) :
    TakenForZero (uint bits) literal (.uint 0)
  | int {bits : UInt16} {literal : List Char} (h : IsDigitless (magnitude literal)) :
    TakenForZero (int bits) literal (.int 0)

variable {e : Elementary} {literal : List Char} {v v' : Value} {bs : Bytes}

/-! ### One lemma per type -/

theorem denotes_uint_iff {bits : UInt16} : (uint bits).Denotes literal v ↔
    ∃ n : Word, v = .uint n ∧ integer? literal = some (n.toNat : Int) ∧
      n.toNat < 2 ^ bits.toNat := by
  constructor
  · rintro ⟨d, hd, hmeans, hv⟩
    obtain ⟨z, hz, rfl⟩ := Option.map_eq_some_iff.1 hd
    cases v with
    | uint n => exact ⟨n, rfl, (show z = n.toNat from hmeans) ▸ hz, hv⟩
    | _ => exact hv.elim
  · rintro ⟨n, rfl, hn, hrange⟩
    exact ⟨.number n.toNat, congrArg (Option.map _) hn, rfl, hrange⟩

theorem denotes_int_iff {bits : UInt16} : (int bits).Denotes literal v ↔
    ∃ n : Word, v = .int n ∧ integer? literal = some n.toInt ∧
      -2 ^ (bits.toNat - 1) ≤ n.toInt ∧ n.toInt < 2 ^ (bits.toNat - 1) := by
  constructor
  · rintro ⟨d, hd, hmeans, hv⟩
    obtain ⟨z, hz, rfl⟩ := Option.map_eq_some_iff.1 hd
    cases v with
    | int n => exact ⟨n, rfl, (show z = n.toInt from hmeans) ▸ hz, hv⟩
    | _ => exact hv.elim
  · rintro ⟨n, rfl, hn, hrange⟩
    exact ⟨.number n.toInt, congrArg (Option.map _) hn, rfl, hrange⟩

theorem denotes_address_iff : address.Denotes literal v ↔
    ∃ a : Address, v = .address a ∧ byteString? literal = some a.toBytes := by
  constructor
  · rintro ⟨d, hd, hmeans, hv⟩
    obtain ⟨bs, hbs, rfl⟩ := Option.map_eq_some_iff.1 hd
    cases v with
    | address a => exact ⟨a, rfl, (show bs = a.toBytes from hmeans) ▸ hbs⟩
    | _ => exact hv.elim
  · rintro ⟨a, rfl, ha⟩
    exact ⟨.bytes a.toBytes, congrArg (Option.map _) ha, rfl, trivial⟩

theorem denotes_bool_iff : bool.Denotes literal v ↔
    ∃ b, v = .bool b ∧ flag? literal = some b := by
  constructor
  · rintro ⟨d, hd, hmeans, hv⟩
    obtain ⟨b, hb, rfl⟩ := Option.map_eq_some_iff.1 hd
    cases v with
    | bool b' => exact ⟨b', rfl, (show b = b' from hmeans) ▸ hb⟩
    | _ => exact hv.elim
  · rintro ⟨b, rfl, hb⟩
    exact ⟨.flag b, congrArg (Option.map _) hb, rfl, trivial⟩

theorem denotes_fixedBytes_iff {width : UInt8} : (fixedBytes width).Denotes literal v ↔
    ∃ bs zeros, v = .fixedBytes (bs ++ List.replicate zeros 0) ∧
      byteString? literal = some bs ∧ bs.length + zeros = width.toNat := by
  constructor
  · rintro ⟨d, hd, hmeans, hv⟩
    obtain ⟨bs, hbs, rfl⟩ := Option.map_eq_some_iff.1 hd
    cases v with
    | fixedBytes cs =>
      obtain ⟨zeros, rfl⟩ := hmeans
      refine ⟨bs, zeros, rfl, hbs, ?_⟩
      rw [← List.length_replicate (n := zeros), ← List.length_append]
      exact hv
    | _ => exact hv.elim
  · rintro ⟨bs, zeros, rfl, hbs, hlength⟩
    refine ⟨.bytes bs, congrArg (Option.map _) hbs, ⟨zeros, rfl⟩, ?_⟩
    show (bs ++ List.replicate zeros 0).length = width.toNat
    rw [List.length_append, List.length_replicate, hlength]

theorem Denotes.holds (h : e.Denotes literal v) : e.Holds v := by
  obtain ⟨-, -, -, hv⟩ := h
  exact hv

/-- **No literal denotes two values** of a type. -/
theorem Denotes.unique (h : e.Denotes literal v) (h' : e.Denotes literal v') : v = v' := by
  cases e with
  | uint bits =>
    obtain ⟨n, rfl, hn, -⟩ := denotes_uint_iff.1 h
    obtain ⟨n', rfl, hn', -⟩ := denotes_uint_iff.1 h'
    have heq : (n.toNat : Int) = n'.toNat := Option.some.inj (hn.symm.trans hn')
    rw [BitVec.eq_of_toNat_eq (Int.ofNat.inj heq)]
  | int bits =>
    obtain ⟨n, rfl, hn, -⟩ := denotes_int_iff.1 h
    obtain ⟨n', rfl, hn', -⟩ := denotes_int_iff.1 h'
    rw [BitVec.eq_of_toInt_eq (Option.some.inj (hn.symm.trans hn'))]
  | address =>
    obtain ⟨a, rfl, ha⟩ := denotes_address_iff.1 h
    obtain ⟨a', rfl, ha'⟩ := denotes_address_iff.1 h'
    have heq : a.toBytes = a'.toBytes := Option.some.inj (ha.symm.trans ha')
    rw [← a.ofBytes_toBytes, heq, a'.ofBytes_toBytes]
  | bool =>
    obtain ⟨b, rfl, hb⟩ := denotes_bool_iff.1 h
    obtain ⟨b', rfl, hb'⟩ := denotes_bool_iff.1 h'
    rw [Option.some.inj (hb.symm.trans hb')]
  | fixedBytes width =>
    obtain ⟨bs, zeros, rfl, hbs, hlength⟩ := denotes_fixedBytes_iff.1 h
    obtain ⟨bs', zeros', rfl, hbs', hlength'⟩ := denotes_fixedBytes_iff.1 h'
    obtain rfl : bs = bs' := Option.some.inj (hbs.symm.trans hbs')
    obtain rfl : zeros = zeros' := by omega
    rfl

/-! ### Literals without digits -/

theorem TakenForZero.holds (h : e.TakenForZero literal v) : e.Holds v := by
  cases h with
  | uint h => exact Nat.two_pow_pos _
  | int h => exact ⟨Int.neg_nonpos_of_nonneg (by positivity), by positivity⟩

theorem TakenForZero.unique (h : e.TakenForZero literal v) (h' : e.TakenForZero literal v') :
    v = v' := by
  cases h <;> cases h' <;> rfl

theorem TakenForZero.denoted?_eq_none (h : e.TakenForZero literal v) :
    e.denoted? literal = none := by
  cases h with
  | uint h => exact congrArg (Option.map _) (integer?_eq_none (h.magnitude_eq.symm ▸ h))
  | int h => exact congrArg (Option.map _) (integer?_eq_none h)

theorem TakenForZero.not_denotes (h : e.TakenForZero literal v) : ¬e.Denotes literal v' := by
  rintro ⟨d, hd, -⟩
  rw [h.denoted?_eq_none] at hd
  cases hd

/-- The value that a literal is accepted for: what it denotes, or zero. -/
def Accepts (e : Elementary) (literal : List Char) (v : Value) : Prop :=
  e.SignAllowed literal ∧ e.Denotes literal v ∨ e.TakenForZero literal v

theorem Accepts.holds (h : e.Accepts literal v) : e.Holds v :=
  h.elim (fun h => h.2.holds) TakenForZero.holds

theorem Accepts.unique (h : e.Accepts literal v) (h' : e.Accepts literal v') : v = v' := by
  rcases h with ⟨-, hv⟩ | hzero
  · rcases h' with ⟨-, hv'⟩ | hzero'
    · exact hv.unique hv'
    · exact absurd hv hzero'.not_denotes
  · rcases h' with ⟨-, hv'⟩ | hzero'
    · exact absurd hv' hzero.not_denotes
    · exact hzero.unique hzero'

/-- What an accepted literal stands for is what it is accepted for. -/
theorem Accepts.eq_of_denotes (h : e.Accepts literal v)
    (h' : e.Denotes literal v' ∨ e.TakenForZero literal v') : v = v' := by
  rcases h with ⟨hsign, hv⟩ | hzero
  · exact Accepts.unique (.inl ⟨hsign, hv⟩) (h'.imp_left fun hv' => ⟨hsign, hv'⟩)
  · exact hzero.unique (h'.resolve_left hzero.not_denotes)

/-- Where no number is expected, literals are accepted for what they denote. -/
theorem accepts_iff_denotes (hsign : e.SignAllowed literal)
    (hzero : ∀ u, ¬e.TakenForZero literal u) : e.Accepts literal v ↔ e.Denotes literal v :=
  ⟨fun h => h.elim (·.2) fun h => absurd h (hzero v), fun h => .inl ⟨hsign, h⟩⟩

end Elementary

/-! ## Keys -/

/-- A value of a value type as a key: a number, an address or a flag at the low end of a word, a
byte string at its high end. -/
def Value.keyBytes : Value → Bytes
  | uint n | int n => Word.toBytes n
  | address a => List.replicate 12 0 ++ a.toBytes
  | bool b => Word.toBytes (if b then 1 else 0)
  | fixedBytes bs => padRight bs
  | _ => []

/-- Zeros on the right are what a key is filled up with anyway. -/
theorem padRight_append_zeros (bs : Bytes) (zeros : Nat) :
    padRight (bs ++ List.replicate zeros 0) = padRight bs := by
  rw [padRight, padRight, List.append_assoc, List.replicate_append_replicate, List.take_append,
    List.take_append, List.take_replicate, List.take_replicate]
  congr 2
  omega

theorem Address.toBytes_ofBytes {bs : Bytes} (h : bs.length = 20) :
    (Address.ofBytes bs).toBytes = bs := by
  have hlt : Bytes.ofBigEndian bs < 2 ^ 160 := by
    have hlt := Bytes.ofLittleEndian_lt bs.reverse
    rw [List.length_reverse, h] at hlt
    exact hlt
  rw [Address.toBytes, Address.ofBytes, BitVec.toNat_ofNat, Nat.mod_eq_of_lt hlt, ← h]
  exact Bytes.bigEndian_ofBigEndian bs

namespace Elementary

variable {e : Elementary} {literal : List Char} {v v' : Value} {bs : Bytes}

theorem fitsUnsigned_iff {bits n : Nat} (hbits : TypeExpr.isIntegerWidth bits) (hn : n < 2 ^ 256) :
    fitsUnsigned bits n ↔ n < 2 ^ bits := by
  obtain ⟨k, rfl⟩ := exists_width hbits
  by_cases hfull : 256 ≤ 8 * (k.val + 1)
  · have hk : 8 * (k.val + 1) = 256 := by omega
    simp only [fitsUnsigned, hk, hn, Nat.le_refl, decide_true, Bool.true_or]
  · simp only [fitsUnsigned, hfull, decide_false, Bool.false_or, decide_eq_true_eq, Nat.pow_eq]

theorem fitsSigned_iff {bits : Nat} {z : Int} (hbits : TypeExpr.isIntegerWidth bits)
    (hlow : -2 ^ 255 ≤ z) (hhigh : z < 2 ^ 255) :
    fitsSigned bits z ↔ -2 ^ (bits - 1) ≤ z ∧ z < 2 ^ (bits - 1) := by
  obtain ⟨k, rfl⟩ := exists_width hbits
  by_cases hfull : 256 ≤ 8 * (k.val + 1)
  · -- nothing is checked at full width, where all that was read is in range
    have hk : 8 * (k.val + 1) = 256 := by omega
    simp only [fitsSigned, hk, Nat.le_refl, decide_true, Bool.true_or, true_iff]
    exact ⟨hlow, hhigh⟩
  · have hhalf : Nat.pow 2 (8 * (k.val + 1)) / 2 = 2 ^ (8 * (k.val + 1) - 1) :=
      Nat.div_eq_of_eq_mul_left (by decide) (Nat.pow_succ (n := 2) (m := 8 * k.val + 7))
    simp only [fitsSigned, hfull, decide_false, Bool.false_or, hhalf, Bool.and_eq_true,
      decide_eq_true_eq]
    push_cast
    rfl

theorem encodeKey_uint_iff_accepts {bits : UInt16} (hbits : (uint bits).Legal) :
    (uint bits).encodeKey literal = .ok bs ↔
      ∃ v, (uint bits).Accepts literal v ∧ v.keyBytes = bs := by
  rw [encodeKey_uint_eq_ok_iff]
  constructor
  · rintro ⟨n, hread, hfits, rfl⟩
    rcases readUint_eq_ok_iff_numeral.1 hread with hn | ⟨hnone, rfl⟩
    · have hsign : literal.head? ≠ some '-' := by
        intro hminus
        obtain ⟨cs, rfl⟩ := List.head?_eq_some_iff.1 hminus
        exact not_isNumeral_minus cs n hn
      obtain ⟨hn, hlimit⟩ := isNumeral_iff.1 hn
      have hword : (Word.ofNat n).toNat = n := Nat.mod_eq_of_lt hlimit
      refine ⟨.uint (Word.ofNat n), .inl ⟨hsign, denotes_uint_iff.2 ⟨_, rfl, ?_, ?_⟩⟩, rfl⟩
      · rw [integer?_of_head?_ne hsign, hn, hword]
        rfl
      · rw [hword]
        exact (fitsUnsigned_iff hbits hlimit).1 hfits
    · exact ⟨.uint 0, .inr (.uint hnone), rfl⟩
  · rintro ⟨v, ⟨hsign, hv⟩ | hzero, rfl⟩
    · obtain ⟨n, rfl, hn, hrange⟩ := denotes_uint_iff.1 hv
      rw [integer?_of_head?_ne hsign] at hn
      obtain ⟨m, hm, hmn⟩ := Option.map_eq_some_iff.1 hn
      obtain rfl : m = n.toNat := Int.ofNat.inj hmn
      have hread := readUint_eq_ok_iff_numeral.2 (.inl (isNumeral_iff.2 ⟨hm, n.isLt⟩))
      refine ⟨n.toNat, hread, (fitsUnsigned_iff hbits n.isLt).2 hrange, ?_⟩
      rw [Word.ofNat, BitVec.ofNat_toNat, BitVec.setWidth_eq]
      rfl
    · cases hzero with
      | uint hnone =>
        have hread := readUint_eq_ok_iff_numeral.2 (.inr ⟨hnone, rfl⟩)
        exact ⟨0, hread, fitsUnsigned_zero bits.toNat, rfl⟩

theorem encodeKey_int_eq_ok_iff {bits : UInt16} : (int bits).encodeKey literal = .ok bs ↔
    ∃ z, readInt literal = .ok z ∧ fitsSigned bits.toNat z ∧
      Word.toBytes (BitVec.ofInt 256 z) = bs :=
  bind_ite_eq_ok_iff

theorem encodeKey_int_iff_accepts {bits : UInt16} (hbits : (int bits).Legal) :
    (int bits).encodeKey literal = .ok bs ↔
      ∃ v, (int bits).Accepts literal v ∧ v.keyBytes = bs := by
  rw [encodeKey_int_eq_ok_iff]
  constructor
  · rintro ⟨z, hread, hfits, rfl⟩
    rcases readInt_eq_ok_iff.1 hread with ⟨hz, hlow, hhigh⟩ | ⟨hnone, rfl⟩
    · have hword : (BitVec.ofInt 256 z).toInt = z :=
        BitVec.toInt_ofInt_eq_self (by decide) hlow hhigh
      refine ⟨.int (BitVec.ofInt 256 z), .inl ⟨trivial, denotes_int_iff.2 ⟨_, rfl, ?_, ?_⟩⟩, rfl⟩
      · rw [hz, hword]
      · rw [hword]
        exact (fitsSigned_iff hbits hlow hhigh).1 hfits
    · exact ⟨.int 0, .inr (.int hnone), rfl⟩
  · rintro ⟨v, ⟨-, hv⟩ | hzero, rfl⟩
    · obtain ⟨n, rfl, hn, hrange⟩ := denotes_int_iff.1 hv
      have hlow : -2 ^ 255 ≤ n.toInt := BitVec.le_toInt n
      have hhigh : n.toInt < 2 ^ 255 := BitVec.toInt_lt
      refine ⟨n.toInt, readInt_eq_ok_iff.2 (.inl ⟨hn, hlow, hhigh⟩),
        (fitsSigned_iff hbits hlow hhigh).2 hrange, ?_⟩
      rw [BitVec.ofInt_toInt]
      rfl
    · have hrange := hzero.holds
      cases hzero with
      | int hnone =>
        exact ⟨0, readInt_eq_ok_iff.2 (.inr ⟨hnone, rfl⟩),
          (fitsSigned_iff hbits (by decide) (by decide)).2 hrange, rfl⟩

theorem encodeKey_address_iff_denotes : address.encodeKey literal = .ok bs ↔
    ∃ v, address.Denotes literal v ∧ v.keyBytes = bs := by
  have hread : address.encodeKey literal = .ok bs ↔ ∃ cs, readHexLiteral literal = .ok cs ∧
      cs.length = 20 ∧ List.replicate 12 0 ++ cs = bs := bind_ite_eq_ok_iff
  rw [hread]
  constructor
  · rintro ⟨cs, hcs, hlength, rfl⟩
    have hback := Address.toBytes_ofBytes hlength
    refine ⟨.address (Address.ofBytes cs), denotes_address_iff.2 ⟨_, rfl, ?_⟩, ?_⟩
    · rw [hback]
      exact readHexLiteral_eq_ok_iff.1 hcs
    · rw [Value.keyBytes, hback]
  · rintro ⟨v, hv, rfl⟩
    obtain ⟨a, rfl, ha⟩ := denotes_address_iff.1 hv
    exact ⟨a.toBytes, readHexLiteral_eq_ok_iff.2 ha, Bytes.length_bigEndian _ _, rfl⟩

theorem encodeKey_bool (literal : List Char) : bool.encodeKey literal =
    match flag? literal with
    | some b => .ok (Value.bool b).keyBytes
    | none => .error (.notABool (String.ofList literal)) := by
  simp only [encodeKey, flag?]
  by_cases htrue : literal = ['t', 'r', 'u', 'e'] ∨ literal = ['1']
  · rw [if_pos htrue, if_pos htrue]
    rfl
  · rw [if_neg htrue, if_neg htrue]
    by_cases hfalse : literal = ['f', 'a', 'l', 's', 'e'] ∨ literal = ['0']
    · rw [if_pos hfalse, if_pos hfalse]
      rfl
    · rw [if_neg hfalse, if_neg hfalse]

theorem encodeKey_bool_iff_denotes : bool.encodeKey literal = .ok bs ↔
    ∃ v, bool.Denotes literal v ∧ v.keyBytes = bs := by
  rw [encodeKey_bool]
  constructor
  · intro h
    split at h
    · next b hb => exact ⟨.bool b, denotes_bool_iff.2 ⟨b, rfl, hb⟩, Except.ok.inj h⟩
    · cases h
  · rintro ⟨v, hv, rfl⟩
    obtain ⟨b, rfl, hb⟩ := denotes_bool_iff.1 hv
    rw [hb]

theorem encodeKey_fixedBytes_iff_denotes {width : UInt8} :
    (fixedBytes width).encodeKey literal = .ok bs ↔
      ∃ v, (fixedBytes width).Denotes literal v ∧ v.keyBytes = bs := by
  have hread : (fixedBytes width).encodeKey literal = .ok bs ↔ ∃ cs,
      readHexLiteral literal = .ok cs ∧ cs.length ≤ width.toNat ∧ padRight cs = bs :=
    bind_ite_eq_ok_iff
  rw [hread]
  constructor
  · rintro ⟨cs, hcs, hlength, rfl⟩
    refine ⟨_, denotes_fixedBytes_iff.2 ⟨cs, width.toNat - cs.length, rfl,
      readHexLiteral_eq_ok_iff.1 hcs, Nat.add_sub_cancel' hlength⟩, ?_⟩
    exact padRight_append_zeros _ _
  · rintro ⟨v, hv, rfl⟩
    obtain ⟨cs, zeros, rfl, hcs, hlength⟩ := denotes_fixedBytes_iff.1 hv
    exact ⟨cs, readHexLiteral_eq_ok_iff.2 hcs, by omega, (padRight_append_zeros _ _).symm⟩

/-- **What is accepted as a key**: literals that denote a value of the type, and those without a
digit where a number is expected. -/
theorem encodeKey_eq_ok_iff (he : e.Legal) :
    e.encodeKey literal = .ok bs ↔ ∃ v, e.Accepts literal v ∧ v.keyBytes = bs := by
  cases e with
  | uint bits => exact encodeKey_uint_iff_accepts he
  | int bits => exact encodeKey_int_iff_accepts he
  | address =>
    have haccepts (v : Value) : address.Accepts literal v ↔ address.Denotes literal v :=
      accepts_iff_denotes trivial nofun
    simp only [encodeKey_address_iff_denotes, haccepts]
  | bool =>
    have haccepts (v : Value) : bool.Accepts literal v ↔ bool.Denotes literal v :=
      accepts_iff_denotes trivial nofun
    simp only [encodeKey_bool_iff_denotes, haccepts]
  | fixedBytes width =>
    have haccepts (v : Value) :
        (fixedBytes width).Accepts literal v ↔ (fixedBytes width).Denotes literal v :=
      accepts_iff_denotes trivial nofun
    simp only [encodeKey_fixedBytes_iff_denotes, haccepts]

/-! ## Keys read back -/

/-- Where a key has its value: byte strings stand at the high end of the word. -/
def keyOffset : Elementary → Nat
  | fixedBytes width => 32 - width.toNat
  | _ => 0

theorem length_padRight (bs : Bytes) : (padRight bs).length = 32 := by
  rw [padRight, List.length_take, List.length_append, List.length_replicate]
  omega

theorem length_keyBytes (hv : e.Holds v) : v.keyBytes.length = 32 := by
  cases e with
  | uint bits => cases v <;> first | exact hv.elim | exact Word.length_toBytes _
  | int bits => cases v <;> first | exact hv.elim | exact Word.length_toBytes _
  | address =>
    cases v with
    | address a => simp [Value.keyBytes, Address.toBytes]
    | _ => exact hv.elim
  | bool => cases v <;> first | exact hv.elim | exact Word.length_toBytes _
  | fixedBytes width => cases v <;> first | exact hv.elim | exact length_padRight _

/-- The bytes of the value stand in the key where they are looked for. -/
theorem slice_keyBytes (he : e.Legal) (hv : e.Holds v) :
    (v.keyBytes.drop (32 - e.keyOffset - e.byteWidth)).take e.byteWidth = e.encode v := by
  -- the low-order bytes of a negative number, too, are those of its word
  have hnumber {e' : Elementary} (hoffset : e'.keyOffset = 0) (n : Nat) :
      ((Bytes.bigEndian 32 n).drop (32 - e'.keyOffset - e'.byteWidth)).take e'.byteWidth =
        Bytes.bigEndian e'.byteWidth n := by
    rw [hoffset, Nat.sub_zero, Bytes.drop_bigEndian e'.byteWidth_le]
    exact List.take_of_length_le (Nat.le_of_eq (Bytes.length_bigEndian _ _))
  cases e with
  | uint bits =>
    cases v with
    | uint n => exact hnumber rfl n.toNat
    | _ => exact hv.elim
  | int bits =>
    cases v with
    | int n => exact hnumber rfl n.toNat
    | _ => exact hv.elim
  | address =>
    cases v with
    | address a =>
      have hlength : a.toBytes.length = 20 := Bytes.length_bigEndian _ _
      have hdrop : (Value.address a).keyBytes.drop 12 = a.toBytes := List.drop_left' (by simp)
      exact (congrArg (List.take 20) hdrop).trans (List.take_of_length_le hlength.le)
    | _ => exact hv.elim
  | bool =>
    cases v with
    | bool b => cases b <;> decide
    | _ => exact hv.elim
  | fixedBytes width =>
    cases v with
    | fixedBytes bs =>
      obtain ⟨hpos, hle⟩ := he
      have hlength : bs.length = width.toNat := hv
      have hwidth : (fixedBytes width).byteWidth = bs.length := by
        rw [byteWidth, hlength]
        omega
      have hfront : 32 - (fixedBytes width).keyOffset - bs.length = 0 := by
        rw [keyOffset, hlength]
        omega
      rw [hwidth, hfront, List.drop_zero, Value.keyBytes, padRight, List.take_take,
        Nat.min_eq_left (hlength ▸ hle), List.take_left' rfl, encode]
    | _ => exact hv.elim

theorem keyOffset_add_le (he : e.Legal) : e.keyOffset + e.byteWidth ≤ 32 := by
  cases e with
  | fixedBytes width =>
    obtain ⟨hpos, hle⟩ := he
    simp only [keyOffset, byteWidth]
    omega
  | _ => exact (Nat.zero_add _).symm ▸ byteWidth_le _

/-- **A key is decoded to its value.** -/
theorem decodeValueType_keyBytes {t : Ty} (ht : t.stored = .elementary e) (he : e.Legal)
    (hv : e.Holds v) : decodeValueType t (Word.ofBytes v.keyBytes) e.keyOffset = .ok v := by
  have hwindow : windowBytes (Word.ofBytes v.keyBytes) e.keyOffset e.byteWidth =
      .ok (e.encode v) := by
    rw [windowBytes_eq (keyOffset_add_le he), Word.toBytes_ofBytes (length_keyBytes hv),
      slice_keyBytes he hv]
  simp only [decodeValueType, ht, hwindow, ofWindow_encode he hv]

end Elementary

/-- **Keys of value types are faithful, apart from literals without digits.** A literal is accepted
as a key of a value type exactly if it denotes a value of the type and has a sign only where one is
allowed, or if the type has numbers and no digit stands in it, so that it denotes nothing. The key
then has 32 bytes, and decoding it gives the value that the literal denotes and no other, or zero
where it denotes none; so two accepted literals have one key exactly if they denote one value, those
without digits standing for zero. What lies outside of the type is refused. -/
theorem encodeKey_faithful {t : Ty} {e : Elementary} (ht : t.stored = .elementary e)
    (he : e.Legal) :
    (∀ literal bs, encodeKey t literal = .ok bs → bs.length = 32 ∧
      ∃ v, decodeValueType t (Word.ofBytes bs) e.keyOffset = .ok v ∧
        ((∀ v', e.Denotes (trim literal.toList) v' ↔ v' = v) ∨
          e.TakenForZero (trim literal.toList) v ∧ e.denoted? (trim literal.toList) = none)) ∧
    (∀ literal literal' bs bs', encodeKey t literal = .ok bs → encodeKey t literal' = .ok bs' →
      (bs = bs' ↔ ∃ v,
        (e.Denotes (trim literal.toList) v ∨ e.TakenForZero (trim literal.toList) v) ∧
        (e.Denotes (trim literal'.toList) v ∨ e.TakenForZero (trim literal'.toList) v))) ∧
    (∀ literal d, e.denoted? (trim literal.toList) = some d →
      (∀ v, d.Means v → ¬e.Holds v) → ∃ fault, encodeKey t literal = .error fault) ∧
    ∀ literal, (∃ bs, encodeKey t literal = .ok bs) ↔
      (e.SignAllowed (trim literal.toList) ∧ ∃ v, e.Denotes (trim literal.toList) v) ∨
      ∃ v, e.TakenForZero (trim literal.toList) v := by
  have hkey (literal : String) (bs : Bytes) : encodeKey t literal = .ok bs ↔
      ∃ v, e.Accepts (trim literal.toList) v ∧ v.keyBytes = bs := by
    rw [encodeKey_of_elementary ht, Elementary.encodeKey_eq_ok_iff he]
  refine ⟨fun literal bs hbs => ?_, fun literal literal' bs bs' hbs hbs' => ?_,
    fun literal d hd hout => ?_, fun literal => ?_⟩
  · obtain ⟨v, hv, rfl⟩ := (hkey literal bs).1 hbs
    refine ⟨Elementary.length_keyBytes hv.holds, v,
      Elementary.decodeValueType_keyBytes ht he hv.holds, ?_⟩
    rcases hv with ⟨-, hv⟩ | hzero
    · exact .inl fun v' => ⟨fun hv' => hv'.unique hv, fun heq => heq ▸ hv⟩
    · exact .inr ⟨hzero, hzero.denoted?_eq_none⟩
  · obtain ⟨v, hv, rfl⟩ := (hkey literal bs).1 hbs
    obtain ⟨v', hv', rfl⟩ := (hkey literal' bs').1 hbs'
    constructor
    · intro hsame
      -- one key cannot be decoded to two values
      have hread := Elementary.decodeValueType_keyBytes ht he hv.holds
      rw [hsame, Elementary.decodeValueType_keyBytes ht he hv'.holds] at hread
      obtain rfl := Except.ok.inj hread
      exact ⟨v', hv.imp_left (·.2), hv'.imp_left (·.2)⟩
    · rintro ⟨u, hu, hu'⟩
      rw [hv.eq_of_denotes hu, hv'.eq_of_denotes hu']
  · cases hbs : encodeKey t literal with
    | error fault => exact ⟨fault, rfl⟩
    | ok bs =>
      obtain ⟨v, ⟨-, d', hd', hmeans, hholds⟩ | hzero, -⟩ := (hkey literal bs).1 hbs
      · obtain rfl : d = d' := Option.some.inj (hd.symm.trans hd')
        exact absurd hholds (hout v hmeans)
      · rw [hzero.denoted?_eq_none] at hd
        cases hd
  · constructor
    · rintro ⟨bs, hbs⟩
      obtain ⟨v, ⟨hsign, hv⟩ | hzero, -⟩ := (hkey literal bs).1 hbs
      · exact .inl ⟨hsign, v, hv⟩
      · exact .inr ⟨v, hzero⟩
    · rintro (⟨hsign, v, hv⟩ | ⟨v, hzero⟩)
      · exact ⟨v.keyBytes, (hkey literal _).2 ⟨v, .inl ⟨hsign, hv⟩, rfl⟩⟩
      · exact ⟨v.keyBytes, (hkey literal _).2 ⟨v, .inr hzero, rfl⟩⟩

namespace Sample

/-- A name for signed numbers of one byte. -/
def level : Ty := .userDefined "Level" .valueType (.int 8)

theorem level_legal : (Elementary.int 8).Legal :=
  show TypeExpr.isIntegerWidth _ = true by decide

theorem denotes_least (literal : List Char) (h : integer? literal = some (-128)) :
    (Elementary.int 8).Denotes literal (.int (-128)) :=
  Elementary.denotes_int_iff.2 ⟨-128, rfl, h, by decide, by decide⟩

end Sample

/-- The least number of one byte, written twice, one that is too large, and a sign and a mark that
are both taken for zero; and two bytes of four. -/
theorem encodeKey_faithful_samples :
    Sample.level.stored = .elementary (.int 8) ∧ (Elementary.int 8).Legal ∧
    (Ty.fixedBytes 4).stored = .elementary (.fixedBytes 4) ∧ (Elementary.fixedBytes 4).Legal ∧
    (∃ bs, encodeKey Sample.level " -0x80" = .ok bs ∧ encodeKey Sample.level "-128" = .ok bs ∧
      decodeValueType Sample.level (Word.ofBytes bs) 0 = .ok (.int (-128))) ∧
    (∃ fault, encodeKey Sample.level "128" = .error fault) ∧
    (∃ bs, encodeKey Sample.level "-" = .ok bs ∧ encodeKey Sample.level "0x" = .ok bs ∧
      decodeValueType Sample.level (Word.ofBytes bs) 0 = .ok (.int 0)) ∧
    ∃ bs, encodeKey (.fixedBytes 4) "0xDEad" = .ok bs ∧
      decodeValueType (.fixedBytes 4) (Word.ofBytes bs) 28 =
        .ok (.fixedBytes [0xde, 0xad, 0, 0]) := by
  have hbytes : (Elementary.fixedBytes 4).Legal := ⟨by decide, by decide⟩
  obtain ⟨hread, hsame, hout, haccept⟩ := encodeKey_faithful (t := Sample.level) rfl
    Sample.level_legal
  obtain ⟨hreadBytes, -, -, hacceptBytes⟩ := encodeKey_faithful (t := .fixedBytes 4) rfl hbytes
  refine ⟨rfl, Sample.level_legal, rfl, hbytes, ?_, ?_, ?_, ?_⟩
  · have hhex := Sample.denotes_least (trim " -0x80".toList) (by decide)
    have hdecimal := Sample.denotes_least (trim "-128".toList) (by decide)
    obtain ⟨bs, hbs⟩ := (haccept " -0x80").2 (.inl ⟨trivial, _, hhex⟩)
    obtain ⟨bs', hbs'⟩ := (haccept "-128").2 (.inl ⟨trivial, _, hdecimal⟩)
    obtain rfl := (hsame _ _ bs bs' hbs hbs').2 ⟨_, .inl hhex, .inl hdecimal⟩
    obtain ⟨-, v, hv, hunique | ⟨hzero, -⟩⟩ := hread _ bs hbs
    · obtain rfl := (hunique _).1 hhex
      exact ⟨bs, hbs, hbs', hv⟩
    · exact absurd hhex hzero.not_denotes
  · have hvalue : (Elementary.int 8).denoted? (trim "128".toList) = some (.number 128) := by decide
    refine hout "128" _ hvalue fun v hmeans hv => ?_
    cases v with
    | int n =>
      have hn : 128 = n.toInt := hmeans
      have hlt : n.toInt < 2 ^ 7 := hv.2
      omega
    | _ => exact hv.elim
  · have hsign : (Elementary.int 8).TakenForZero (trim "-".toList) (.int 0) := .int (by decide)
    have hmark : (Elementary.int 8).TakenForZero (trim "0x".toList) (.int 0) := .int (by decide)
    obtain ⟨bs, hbs⟩ := (haccept "-").2 (.inr ⟨_, hsign⟩)
    obtain ⟨bs', hbs'⟩ := (haccept "0x").2 (.inr ⟨_, hmark⟩)
    obtain rfl := (hsame _ _ bs bs' hbs hbs').2 ⟨_, .inr hsign, .inr hmark⟩
    obtain ⟨-, v, hv, hunique | ⟨hzero, -⟩⟩ := hread _ bs hbs
    · exact absurd ((hunique v).2 rfl) hsign.not_denotes
    · obtain rfl := hzero.unique hsign
      exact ⟨bs, hbs, hbs', hv⟩
  · have hvalue : (Elementary.fixedBytes 4).Denotes (trim "0xDEad".toList)
        (.fixedBytes [0xde, 0xad, 0, 0]) :=
      Elementary.denotes_fixedBytes_iff.2 ⟨[0xde, 0xad], 2, rfl, by decide, rfl⟩
    obtain ⟨bs, hbs⟩ := (hacceptBytes "0xDEad").2 (.inl ⟨trivial, _, hvalue⟩)
    obtain ⟨-, v, hv, hunique | ⟨hzero, -⟩⟩ := hreadBytes _ bs hbs
    · obtain rfl := (hunique _).1 hvalue
      exact ⟨bs, hbs, hv⟩
    · cases hzero

/-- A sign alone is accepted as a number of one byte, although it denotes none. -/
theorem encodeKey_sign : encodeKey (.int 8) "-" = .ok (Word.toBytes 0) ∧
    ∀ v, ¬(Elementary.int 8).Denotes (trim "-".toList) v := by
  have hzero : (Elementary.int 8).TakenForZero (trim "-".toList) (.int 0) := .int (by decide)
  exact ⟨by decide, fun v => hzero.not_denotes⟩

end StorageAtlas
