/-
  EnumExtract.Digest.Sha256
  ────────────────────────────────
  The SHA-256 digest of a list of bytes.
-/
import EnumExtract.Text.Number

namespace EnumExtract.Sha256

/-! ## §1. Words. -/

/-- The word `x` rotated right by `n` bits, `n` between 1 and 31. -/
def rotateRight (x : UInt32) (n : UInt32) : UInt32 :=
  (x >>> n) ||| (x <<< (32 - n))

/-- The round constants: the first 32 bits of the fractional parts of the cube roots of the
first 64 primes. -/
def roundConstants : List UInt32 :=
  [0x428a2f98, 0x71374491, 0xb5c0fbcf, 0xe9b5dba5, 0x3956c25b, 0x59f111f1, 0x923f82a4, 0xab1c5ed5,
   0xd807aa98, 0x12835b01, 0x243185be, 0x550c7dc3, 0x72be5d74, 0x80deb1fe, 0x9bdc06a7, 0xc19bf174,
   0xe49b69c1, 0xefbe4786, 0x0fc19dc6, 0x240ca1cc, 0x2de92c6f, 0x4a7484aa, 0x5cb0a9dc, 0x76f988da,
   0x983e5152, 0xa831c66d, 0xb00327c8, 0xbf597fc7, 0xc6e00bf3, 0xd5a79147, 0x06ca6351, 0x14292967,
   0x27b70a85, 0x2e1b2138, 0x4d2c6dfc, 0x53380d13, 0x650a7354, 0x766a0abb, 0x81c2c92e, 0x92722c85,
   0xa2bfe8a1, 0xa81a664b, 0xc24b8b70, 0xc76c51a3, 0xd192e819, 0xd6990624, 0xf40e3585, 0x106aa070,
   0x19a4c116, 0x1e376c08, 0x2748774c, 0x34b0bcb5, 0x391c0cb3, 0x4ed8aa4a, 0x5b9cca4f, 0x682e6ff3,
   0x748f82ee, 0x78a5636f, 0x84c87814, 0x8cc70208, 0x90befffa, 0xa4506ceb, 0xbef9a3f7, 0xc67178f2]

/-- The eight words that are carried from block to block. -/
structure State where
  a : UInt32
  b : UInt32
  c : UInt32
  d : UInt32
  e : UInt32
  f : UInt32
  g : UInt32
  h : UInt32
  deriving Repr, DecidableEq

namespace State

/-- The state before the first block: the first 32 bits of the fractional parts of the square
roots of the first eight primes. -/
def start : State :=
  ⟨0x6a09e667, 0xbb67ae85, 0x3c6ef372, 0xa54ff53a,
   0x510e527f, 0x9b05688c, 0x1f83d9ab, 0x5be0cd19⟩

/-- The sum of two states, word by word. -/
def add (s t : State) : State :=
  ⟨s.a + t.a, s.b + t.b, s.c + t.c, s.d + t.d, s.e + t.e, s.f + t.f, s.g + t.g, s.h + t.h⟩

/-- The words in order. -/
def words (s : State) : List UInt32 :=
  [s.a, s.b, s.c, s.d, s.e, s.f, s.g, s.h]

/-- One round with the sum of its round constant and its schedule word. -/
def round (s : State) (input : UInt32) : State :=
  let sum1 := rotateRight s.e 6 ^^^ rotateRight s.e 11 ^^^ rotateRight s.e 25
  let choice := (s.e &&& s.f) ^^^ (~~~s.e &&& s.g)
  let t1 := s.h + sum1 + choice + input
  let sum0 := rotateRight s.a 2 ^^^ rotateRight s.a 13 ^^^ rotateRight s.a 22
  let majority := (s.a &&& s.b) ^^^ (s.a &&& s.c) ^^^ (s.b &&& s.c)
  ⟨t1 + sum0 + majority, s.a, s.b, s.c, s.d + t1, s.e, s.f, s.g⟩

end State

/-! ## §2. Blocks. -/

/-- The bytes of a number, the most significant first. -/
def bigEndian (count n : Nat) : List UInt8 :=
  (List.range count).map fun i => UInt8.ofNat (n >>> (8 * (count - 1 - i)))

/-- The message with a one bit, zeros, and its length in bits as 64 bits behind it: a whole
number of blocks of 64 bytes. -/
def pad (message : List UInt8) : List UInt8 :=
  let length := message.length
  message ++ 0x80 :: List.replicate ((119 - length % 64) % 64) 0 ++ bigEndian 8 (8 * length)

/-- The words that bytes write, the most significant byte first. -/
def wordsOf : List UInt8 → List UInt32
  | a :: b :: c :: d :: rest =>
      (a.toUInt32 <<< 24 ||| b.toUInt32 <<< 16 ||| c.toUInt32 <<< 8 ||| d.toUInt32) :: wordsOf rest
  | _ => []

/-- The words of a list in groups of sixteen. -/
def blocksOf : List UInt32 → List (List UInt32)
  | a :: b :: c :: d :: e :: f :: g :: h :: i :: j :: k :: l :: m :: n :: o :: p :: rest =>
      [a, b, c, d, e, f, g, h, i, j, k, l, m, n, o, p] :: blocksOf rest
  | _ => []

/-- The schedule of a block, `count` words beyond the block's own.  `window` holds the last
sixteen words, the oldest first. -/
def extend : Nat → List UInt32 → List UInt32
  | 0, window => window
  | count + 1, window =>
      let old1 := window.getD 1 0
      let old14 := window.getD 14 0
      let small0 := rotateRight old1 7 ^^^ rotateRight old1 18 ^^^ (old1 >>> 3)
      let small1 := rotateRight old14 17 ^^^ rotateRight old14 19 ^^^ (old14 >>> 10)
      let next := window.getD 0 0 + small0 + window.getD 9 0 + small1
      match window with
      | oldest :: rest => oldest :: extend count (rest ++ [next])
      | [] => []

/-- The state after a block. -/
def compress (s : State) (block : List UInt32) : State :=
  let inputs := roundConstants.zipWith (· + ·) (extend 48 block)
  s.add (inputs.foldl State.round s)

/-! ## §3. The digest. -/

/-- The digest as eight words. -/
def digest (message : List UInt8) : List UInt32 :=
  ((blocksOf (wordsOf (pad message))).foldl compress State.start).words

/-- The digest as 64 hexadecimal digits. -/
def hexDigest (message : List UInt8) : Text :=
  (digest message).flatMap fun word => Text.hex 8 word.toNat

end EnumExtract.Sha256
