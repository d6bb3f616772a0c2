import StorageAtlas.Text.Integer

/-!
# Labels in ASCII

A label with other characters is written with its ASCII characters first, and behind the last
hyphen numbers that tell where the others are put in, smallest first. A number is written in digits
of base 36 whose last one is below a threshold, and the thresholds adapt to the numbers before.
-/

namespace StorageAtlas.Url.Punycode

/-- The letter or decimal digit of a digit in base 36; letters come first. -/
def digitChar (d : Nat) : Char := if d < 26 then Char.ofNat (97 + d) else Char.ofNat (22 + d)

def digit? (c : Char) : Option Nat :=
  (Text.digitValue? c).map fun n => if n < 10 then n + 26 else n - 10

/-- The threshold of the digit at `position`, a multiple of 36. -/
def threshold (position bias : Nat) : Nat := max 1 (min 26 (position - bias))

theorem threshold_pos (position bias : Nat) : 0 < threshold position bias := by
  simp only [threshold]
  omega

/-- Divides by 35 until at most 455 is left; the bias grows with each step. -/
def settle (delta bias : Nat) : Nat :=
  if 455 < delta then settle (delta / 35) (bias + 36) else bias + 36 * delta / (delta + 38)
termination_by delta
decreasing_by omega

/-- The bias after a number was written as one of `count`. -/
def adapt (delta count : Nat) (isFirst : Bool) : Nat :=
  let delta := if isFirst then delta / 700 else delta / 2
  settle (delta + delta / count) 0

/-! ## Writing -/

/-- A number in digits, from the digit at `position` on. -/
def writeNumber (bias position n : Nat) : List Char :=
  let t := threshold position bias
  if n < t then [digitChar n]
  else digitChar (t + (n - t) % (36 - t)) :: writeNumber bias (position + 36) ((n - t) / (36 - t))
termination_by n
decreasing_by
  have := threshold_pos position bias
  have := Nat.div_le_self (n - threshold position bias) (36 - threshold position bias)
  omega

/-- What is known while a label is written. -/
structure Writing where
  written : List Char := []
  /-- How many characters are in place. -/
  placed : Nat
  delta : Nat := 0
  bias : Nat := 72

/-- Passes over a character while the places of `next` are looked for, among a label with
`basic` characters of ASCII. -/
def Writing.pass (basic next : Nat) (w : Writing) (c : Char) : Writing :=
  if c.toNat < next then { w with delta := w.delta + 1 }
  else if c.toNat = next then
    { written := w.written ++ writeNumber w.bias 36 w.delta
      placed := w.placed + 1
      delta := 0
      bias := adapt w.delta (w.placed + 1) (w.placed == basic) }
  else w

/-- Writes the places of the characters with the codes, which are in order and none below `code`. -/
def writeCodes (label : List Char) (basic : Nat) : Nat → List Nat → Writing → List Char
  | _, [], w => w.written
  | code, next :: rest, w =>
    let w := { w with delta := w.delta + (next - code) * (w.placed + 1) }
    let w := label.foldl (Writing.pass basic next) w
    writeCodes label basic (next + 1) rest { w with delta := w.delta + 1 }

/-- A label in ASCII. -/
def encode (label : List Char) : List Char :=
  let basic := label.filter (·.toNat < 128)
  let codes := ((label.map Char.toNat).filter (128 ≤ ·)).eraseDups.mergeSort
  basic ++ (if basic.isEmpty then [] else ['-']) ++
    writeCodes label basic.length 128 codes { placed := basic.length }

/-! ## Reading -/

/-- Reads a number, from the digit at `position` on, and what follows it. -/
def readNumber (bias position weight n : Nat) : List Char → Option (Nat × List Char)
  | [] => none
  | c :: rest =>
    match digit? c with
    | none => none
    | some d =>
      let t := threshold position bias
      if d < t then some (n + d * weight, rest)
      else readNumber bias (position + 36) (weight * (36 - t)) (n + d * weight) rest

theorem readNumber_length {bias position weight n : Nat} {cs : List Char} {r : Nat × List Char}
    (h : readNumber bias position weight n cs = some r) : r.2.length < cs.length := by
  induction cs generalizing position weight n with
  | nil => simp [readNumber] at h
  | cons c rest ih =>
    simp only [readNumber] at h
    split at h
    · simp at h
    · split at h
      · cases h
        simp
      · have := ih h
        simp only [List.length_cons]
        omega

/-- Puts characters in, each at the place and with the code that the next number tells. -/
def readCodes (bias code place : Nat) (label cs : List Char) : Option (List Char) :=
  if cs.isEmpty then some label
  else match _h : readNumber bias 36 1 place cs with
    | none => none
    | some (n, rest) =>
      let count := label.length + 1
      let code := code + n / count
      if code < 0xd800 ∨ (0xdfff < code ∧ code < 0x110000) then
        readCodes (adapt (n - place) count (place == 0)) code
          (n % count + 1) (label.insertIdx (n % count) (Char.ofNat code)) rest
      else none
termination_by cs.length
decreasing_by exact readNumber_length _h

/-- The label that is written in ASCII. A hyphen that is the first character and the last hyphen
cuts nothing off, and is no digit either. -/
def decode? (cs : List Char) : Option (List Char) :=
  let behind := (cs.reverse.takeWhile (· != '-')).reverse
  let basic := (cs.take (cs.length - behind.length)).dropLast
  if basic.isEmpty && behind.length < cs.length then none
  else if basic.all (·.toNat < 128) then readCodes 72 128 0 basic behind
  else none

end StorageAtlas.Url.Punycode
