import StorageAtlas.Bytes

/-!
# SHA-256

The message schedule and the sixty-four rounds over blocks of 64 bytes.
-/

namespace StorageAtlas.Hash

namespace Sha256

/-- The constant of each round. -/
def roundConstants : Array UInt32 := #[
  0x428a2f98, 0x71374491, 0xb5c0fbcf, 0xe9b5dba5, 0x3956c25b, 0x59f111f1, 0x923f82a4, 0xab1c5ed5,
  0xd807aa98, 0x12835b01, 0x243185be, 0x550c7dc3, 0x72be5d74, 0x80deb1fe, 0x9bdc06a7, 0xc19bf174,
  0xe49b69c1, 0xefbe4786, 0x0fc19dc6, 0x240ca1cc, 0x2de92c6f, 0x4a7484aa, 0x5cb0a9dc, 0x76f988da,
  0x983e5152, 0xa831c66d, 0xb00327c8, 0xbf597fc7, 0xc6e00bf3, 0xd5a79147, 0x06ca6351, 0x14292967,
  0x27b70a85, 0x2e1b2138, 0x4d2c6dfc, 0x53380d13, 0x650a7354, 0x766a0abb, 0x81c2c92e, 0x92722c85,
  0xa2bfe8a1, 0xa81a664b, 0xc24b8b70, 0xc76c51a3, 0xd192e819, 0xd6990624, 0xf40e3585, 0x106aa070,
  0x19a4c116, 0x1e376c08, 0x2748774c, 0x34b0bcb5, 0x391c0cb3, 0x4ed8aa4a, 0x5b9cca4f, 0x682e6ff3,
  0x748f82ee, 0x78a5636f, 0x84c87814, 0x8cc70208, 0x90befffa, 0xa4506ceb, 0xbef9a3f7, 0xc67178f2]

/-- The chaining state before the first block. -/
def start : Vector UInt32 8 := #v[
  0x6a09e667, 0xbb67ae85, 0x3c6ef372, 0xa54ff53a, 0x510e527f, 0x9b05688c, 0x1f83d9ab, 0x5be0cd19]

def rotateRight (v : UInt32) (n : UInt32) : UInt32 := (v >>> n) ||| (v <<< (32 - n))

/-- The padding behind a message of `size` bytes: one set bit, zeros, the length in bits. -/
def padding (size : Nat) : Bytes :=
  0x80 :: (List.replicate ((119 - size % 64) % 64) 0 ++ Bytes.bigEndian 8 (8 * size))

/-- The sixteen words of a block, extended to sixty-four. -/
def schedule (block : Array UInt8) : Array UInt32 :=
  let input : Array UInt32 := (Array.range 16).map fun i =>
    (List.range 4).foldl
      (fun (acc : UInt32) k => (acc <<< 8) ||| (block.getD (4 * i + k) 0).toUInt32) 0
  (List.range 48).foldl (fun (w : Array UInt32) k =>
    let back (n : Nat) : UInt32 := w.getD (k + 16 - n) 0
    let small0 := rotateRight (back 15) 7 ^^^ rotateRight (back 15) 18 ^^^ (back 15 >>> 3)
    let small1 := rotateRight (back 2) 17 ^^^ rotateRight (back 2) 19 ^^^ (back 2 >>> 10)
    w.push (back 16 + small0 + back 7 + small1)) input

/-- One round with its schedule word and constant added up. -/
def round (s : Vector UInt32 8) (added : UInt32) : Vector UInt32 8 :=
  let big1 := rotateRight s[4] 6 ^^^ rotateRight s[4] 11 ^^^ rotateRight s[4] 25
  let choice := (s[4] &&& s[5]) ^^^ (~~~s[4] &&& s[6])
  let first := s[7] + big1 + choice + added
  let big0 := rotateRight s[0] 2 ^^^ rotateRight s[0] 13 ^^^ rotateRight s[0] 22
  let majority := (s[0] &&& s[1]) ^^^ (s[0] &&& s[2]) ^^^ (s[1] &&& s[2])
  #v[first + big0 + majority, s[0], s[1], s[2], s[3] + first, s[4], s[5], s[6]]

/-- Folds one block into the chaining state. -/
def compress (s : Vector UInt32 8) (block : Array UInt8) : Vector UInt32 8 :=
  let words := schedule block
  let mixed := (List.range 64).foldl
    (fun t i => round t (words.getD i 0 + roundConstants.getD i 0)) s
  Vector.zipWith (· + ·) s mixed

end Sha256

/-- The 32-byte SHA-256 digest of a message. -/
def sha256 (message : Bytes) : Bytes :=
  let padded := (message ++ Sha256.padding message.length).toArray
  let state := (List.range (padded.size / 64)).foldl
    (fun s k => Sha256.compress s (padded.extract (64 * k) (64 * (k + 1)))) Sha256.start
  state.toList.flatMap fun w => Bytes.bigEndian 4 w.toNat

end StorageAtlas.Hash
