import LayeredConfig.Number.Natural

/-!
# SHA-256

The digest of FIPS 180-4 over byte arrays, and its hexadecimal text. `padded` appends the closing
block of the message, `schedule` expands a block to sixty-four words, `compress` folds one block
into the eight words of state.
-/

namespace LayeredConfig.Sha256

/-- The round constants: fractional parts of the cube roots of the first sixty-four primes. -/
def roundConstants : Array UInt32 :=
  #[0x428a2f98, 0x71374491, 0xb5c0fbcf, 0xe9b5dba5, 0x3956c25b, 0x59f111f1, 0x923f82a4, 0xab1c5ed5,
    0xd807aa98, 0x12835b01, 0x243185be, 0x550c7dc3, 0x72be5d74, 0x80deb1fe, 0x9bdc06a7, 0xc19bf174,
    0xe49b69c1, 0xefbe4786, 0x0fc19dc6, 0x240ca1cc, 0x2de92c6f, 0x4a7484aa, 0x5cb0a9dc, 0x76f988da,
    0x983e5152, 0xa831c66d, 0xb00327c8, 0xbf597fc7, 0xc6e00bf3, 0xd5a79147, 0x06ca6351, 0x14292967,
    0x27b70a85, 0x2e1b2138, 0x4d2c6dfc, 0x53380d13, 0x650a7354, 0x766a0abb, 0x81c2c92e, 0x92722c85,
    0xa2bfe8a1, 0xa81a664b, 0xc24b8b70, 0xc76c51a3, 0xd192e819, 0xd6990624, 0xf40e3585, 0x106aa070,
    0x19a4c116, 0x1e376c08, 0x2748774c, 0x34b0bcb5, 0x391c0cb3, 0x4ed8aa4a, 0x5b9cca4f, 0x682e6ff3,
    0x748f82ee, 0x78a5636f, 0x84c87814, 0x8cc70208, 0x90befffa, 0xa4506ceb, 0xbef9a3f7, 0xc67178f2]

/-- The eight words of state between blocks. -/
structure State where
  a : UInt32
  b : UInt32
  c : UInt32
  d : UInt32
  e : UInt32
  f : UInt32
  g : UInt32
  h : UInt32

/-- The state before the first block: fractional parts of the square roots of eight primes. -/
def start : State :=
  ⟨0x6a09e667, 0xbb67ae85, 0x3c6ef372, 0xa54ff53a, 0x510e527f, 0x9b05688c, 0x1f83d9ab, 0x5be0cd19⟩

/-- Rotate a word to the right. -/
def rotate (x : UInt32) (n : UInt32) : UInt32 := (x >>> n) ||| (x <<< (32 - n))

/-- The big-endian word at byte `i`. -/
def wordAt (bytes : ByteArray) (i : Nat) : UInt32 :=
  ((bytes.get! i).toUInt32 <<< 24) ||| ((bytes.get! (i + 1)).toUInt32 <<< 16)
    ||| ((bytes.get! (i + 2)).toUInt32 <<< 8) ||| (bytes.get! (i + 3)).toUInt32

/-- The sixty-four schedule words of the block at byte `i`. -/
def schedule (bytes : ByteArray) (i : Nat) : Array UInt32 :=
  let first := (List.range 16).foldl (fun w j => w.push (wordAt bytes (i + 4 * j)))
    (Array.mkEmpty 64)
  (List.range 48).foldl (fun w k =>
    let t := k + 16
    let x := w[t - 15]!
    let y := w[t - 2]!
    let s₀ := rotate x 7 ^^^ rotate x 18 ^^^ (x >>> 3)
    let s₁ := rotate y 17 ^^^ rotate y 19 ^^^ (y >>> 10)
    w.push (w[t - 16]! + s₀ + w[t - 7]! + s₁)) first

/-- One round with constant `k` and schedule word `w`. -/
def round (s : State) (k w : UInt32) : State :=
  let s₁ := rotate s.e 6 ^^^ rotate s.e 11 ^^^ rotate s.e 25
  let choice := (s.e &&& s.f) ^^^ ((s.e ^^^ 0xffffffff) &&& s.g)
  let t₁ := s.h + s₁ + choice + k + w
  let s₀ := rotate s.a 2 ^^^ rotate s.a 13 ^^^ rotate s.a 22
  let majority := (s.a &&& s.b) ^^^ (s.a &&& s.c) ^^^ (s.b &&& s.c)
  ⟨t₁ + (s₀ + majority), s.a, s.b, s.c, s.d + t₁, s.e, s.f, s.g⟩

/-- Fold the block at byte `i` into the state. -/
def compress (bytes : ByteArray) (s : State) (i : Nat) : State :=
  let w := schedule bytes i
  let r := (List.range 64).foldl (fun t j => round t roundConstants[j]! w[j]!) s
  ⟨s.a + r.a, s.b + r.b, s.c + r.c, s.d + r.d, s.e + r.e, s.f + r.f, s.g + r.g, s.h + r.h⟩

/-- The `n` low bytes of a number, the highest first. -/
def bigEndian (n value : Nat) : List UInt8 :=
  (List.range n).map fun i => UInt8.ofNat (value / twoPow (8 * (n - 1 - i)))

/-- The message with its closing bit, zeros and bit length: a whole number of blocks. -/
def padded (message : ByteArray) : ByteArray :=
  let zeros := (119 - message.size % 64) % 64
  let tail : List UInt8 := 0x80 :: (List.replicate zeros 0 ++ bigEndian 8 (8 * message.size))
  tail.foldl ByteArray.push message

/-- The digest, thirty-two bytes. -/
def digest (message : ByteArray) : List UInt8 :=
  let bytes := padded message
  let s := (List.range (bytes.size / 64)).foldl (fun s i => compress bytes s (64 * i)) start
  [s.a, s.b, s.c, s.d, s.e, s.f, s.g, s.h].flatMap fun w => bigEndian 4 w.toNat

/-- The two hexadecimal digits of a byte. -/
def hexByte (b : UInt8) : List Char :=
  [Nat.digitChar (b.toNat / 16), Nat.digitChar (b.toNat % 16)]

/-- The digest as sixty-four hexadecimal digits in lower case. -/
def hex (message : ByteArray) : String := String.ofList ((digest message).flatMap hexByte)

end LayeredConfig.Sha256
