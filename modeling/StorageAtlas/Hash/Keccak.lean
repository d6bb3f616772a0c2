import StorageAtlas.Word

/-!
# Keccak-256

The sponge with a rate of 136 bytes and the padding that starts with the byte `01`. A state is
twenty-five lanes of 64 bits; lane `(x, y)` stands at index `x + 5 * y`.
-/

namespace StorageAtlas.Hash

/-- Twenty-five lanes of 64 bits. -/
abbrev Lanes := Vector UInt64 25

namespace Lanes

/-- Lane `(x, y)`, both coordinates modulo five. -/
def lane (a : Lanes) (x y : Nat) : UInt64 :=
  have _ : x % 5 + 5 * (y % 5) < 25 := by omega
  a[x % 5 + 5 * (y % 5)]

/-- The state with the given lane at each coordinate. -/
def ofCoordinates (f : Nat → Nat → UInt64) : Lanes := Vector.ofFn fun i => f (i.val % 5) (i.val / 5)

def rotate (v : UInt64) (amount : Nat) : UInt64 :=
  if amount % 64 = 0 then v
  else (v <<< UInt64.ofNat (amount % 64)) ||| (v >>> UInt64.ofNat (64 - amount % 64))

/-- How far each lane turns. -/
def turns : Vector Nat 25 := #v[
  0, 1, 62, 28, 27,
  36, 44, 6, 55, 20,
  3, 10, 43, 25, 39,
  41, 45, 15, 21, 8,
  18, 2, 61, 56, 14]

/-- The constant of each round. -/
def roundConstants : List UInt64 := [
  0x0000000000000001, 0x0000000000008082, 0x800000000000808a, 0x8000000080008000,
  0x000000000000808b, 0x0000000080000001, 0x8000000080008081, 0x8000000000008009,
  0x000000000000008a, 0x0000000000000088, 0x0000000080008009, 0x000000008000000a,
  0x000000008000808b, 0x800000000000008b, 0x8000000000008089, 0x8000000000008003,
  0x8000000000008002, 0x8000000000000080, 0x000000000000800a, 0x800000008000000a,
  0x8000000080008081, 0x8000000000008080, 0x0000000080000001, 0x8000000080008008]

/-- Mixes each lane with the parities of two neighbouring columns. -/
def mixColumns (a : Lanes) : Lanes :=
  let parity : Vector UInt64 5 := Vector.ofFn fun x =>
    a.lane x 0 ^^^ a.lane x 1 ^^^ a.lane x 2 ^^^ a.lane x 3 ^^^ a.lane x 4
  let column (x : Nat) : UInt64 :=
    have _ : x % 5 < 5 := by omega
    parity[x % 5]
  let effect : Vector UInt64 5 := Vector.ofFn fun x => column (x + 4) ^^^ rotate (column (x + 1)) 1
  ofCoordinates fun x y =>
    have _ : x % 5 < 5 := by omega
    a.lane x y ^^^ effect[x % 5]

/-- Turns every lane and moves it to its place in the next round. -/
def turnAndMove (a : Lanes) : Lanes :=
  ofCoordinates fun x y =>
    let fromX := (x + 3 * y) % 5
    have _ : fromX + 5 * (x % 5) < 25 := by omega
    rotate (a.lane fromX x) turns[fromX + 5 * (x % 5)]

/-- Combines each lane with the two behind it in its row. -/
def combineRows (a : Lanes) : Lanes :=
  ofCoordinates fun x y => a.lane x y ^^^ (~~~a.lane (x + 1) y &&& a.lane (x + 2) y)

def round (a : Lanes) (constant : UInt64) : Lanes :=
  let b := combineRows (turnAndMove (mixColumns a))
  b.set 0 (b.lane 0 0 ^^^ constant)

def permute (a : Lanes) : Lanes := roundConstants.foldl round a

/-- Adds a block of 136 bytes to the first seventeen lanes. -/
def absorb (a : Lanes) (block : Array UInt8) : Lanes :=
  permute <| Vector.ofFn fun i =>
    let input : UInt64 := (List.range 8).foldr
      (fun k (acc : UInt64) => (acc <<< 8) ||| (block.getD (8 * i.val + k) 0).toUInt64) 0
    if i.val < 17 then a[i] ^^^ input else a[i]

end Lanes

/-- Bytes a block holds. -/
def keccakRate : Nat := 136

/-- The padding behind a message of `size` bytes. -/
def keccakPadding (size : Nat) : Bytes :=
  let room := keccakRate - size % keccakRate
  if room = 1 then [0x81] else 0x01 :: (List.replicate (room - 2) 0 ++ [0x80])

/-- The 32-byte Keccak digest of a message. -/
def keccak256 (message : Bytes) : Bytes :=
  let padded := (message ++ keccakPadding message.length).toArray
  let state := (List.range (padded.size / keccakRate)).foldl
    (fun (a : Lanes) k => a.absorb (padded.extract (k * keccakRate) ((k + 1) * keccakRate)))
    (Vector.replicate 25 0)
  (List.range 4).flatMap fun i => Bytes.littleEndian 8 (state.lane i 0).toNat

/-- The Keccak digest of a message as a word. -/
def keccakWord (message : Bytes) : Word := Word.ofBytes (keccak256 message)

end StorageAtlas.Hash
