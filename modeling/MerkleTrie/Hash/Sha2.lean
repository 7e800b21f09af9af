-- SUMMARY: The SHA-2 digests: word sizes, message schedule, compression, padding, and the length of a digest.
import MerkleTrie.Bytes.Basic
import MerkleTrie.Hash.Algorithm

/-! # SHA-2

Both halves of the family run the same rounds, over words of 32 bits or of 64
bits. `Word` holds what differs: the size of a word, the four mixing functions
and the number of rounds. A digest has the length of its algorithm
(`length_digest`). -/

namespace MerkleTrie.Sha2

/-! ## Words -/

/-- The first 64 bits behind the point of the cube roots of the first eighty primes. -/
def cubeRoots : List Nat :=
  [0x428a2f98d728ae22, 0x7137449123ef65cd, 0xb5c0fbcfec4d3b2f, 0xe9b5dba58189dbbc,
    0x3956c25bf348b538, 0x59f111f1b605d019, 0x923f82a4af194f9b, 0xab1c5ed5da6d8118,
    0xd807aa98a3030242, 0x12835b0145706fbe, 0x243185be4ee4b28c, 0x550c7dc3d5ffb4e2,
    0x72be5d74f27b896f, 0x80deb1fe3b1696b1, 0x9bdc06a725c71235, 0xc19bf174cf692694,
    0xe49b69c19ef14ad2, 0xefbe4786384f25e3, 0x0fc19dc68b8cd5b5, 0x240ca1cc77ac9c65,
    0x2de92c6f592b0275, 0x4a7484aa6ea6e483, 0x5cb0a9dcbd41fbd4, 0x76f988da831153b5,
    0x983e5152ee66dfab, 0xa831c66d2db43210, 0xb00327c898fb213f, 0xbf597fc7beef0ee4,
    0xc6e00bf33da88fc2, 0xd5a79147930aa725, 0x06ca6351e003826f, 0x142929670a0e6e70,
    0x27b70a8546d22ffc, 0x2e1b21385c26c926, 0x4d2c6dfc5ac42aed, 0x53380d139d95b3df,
    0x650a73548baf63de, 0x766a0abb3c77b2a8, 0x81c2c92e47edaee6, 0x92722c851482353b,
    0xa2bfe8a14cf10364, 0xa81a664bbc423001, 0xc24b8b70d0f89791, 0xc76c51a30654be30,
    0xd192e819d6ef5218, 0xd69906245565a910, 0xf40e35855771202a, 0x106aa07032bbd1b8,
    0x19a4c116b8d2d0c8, 0x1e376c085141ab53, 0x2748774cdf8eeb99, 0x34b0bcb5e19b48a8,
    0x391c0cb3c5c95a63, 0x4ed8aa4ae3418acb, 0x5b9cca4f7763e373, 0x682e6ff3d6b2b8a3,
    0x748f82ee5defb2fc, 0x78a5636f43172f60, 0x84c87814a1f0ab72, 0x8cc702081a6439ec,
    0x90befffa23631e28, 0xa4506cebde82bde9, 0xbef9a3f7b2c67915, 0xc67178f2e372532b,
    0xca273eceea26619c, 0xd186b8c721c0c207, 0xeada7dd6cde0eb1e, 0xf57d4f7fee6ed178,
    0x06f067aa72176fba, 0x0a637dc5a2c898a6, 0x113f9804bef90dae, 0x1b710b35131c471b,
    0x28db77f523047d84, 0x32caab7b40c72493, 0x3c9ebe0a15c9bebc, 0x431d67c49c100d4c,
    0x4cc5d4becb3e42b6, 0x597f299cfc657e2a, 0x5fcb6fab3ad6faec, 0x6c44198c4a475817]

/-- The first 64 bits behind the point of the square roots of the first eight primes. -/
def lowSquareRoots : List Nat :=
  [0x6a09e667f3bcc908, 0xbb67ae8584caa73b, 0x3c6ef372fe94f82b, 0xa54ff53a5f1d36f1,
    0x510e527fade682d1, 0x9b05688c2b3e6c1f, 0x1f83d9abfb41bd6b, 0x5be0cd19137e2179]

/-- The first 64 bits behind the point of the square roots of the next eight primes. -/
def highSquareRoots : List Nat :=
  [0xcbbb9d5dc1059ed8, 0x629a292a367cd507, 0x9159015a3070dd17, 0x152fecd8f70e5939,
    0x67332667ffc00b31, 0x8eb44a8768581511, 0xdb0c2e0d64f98fa7, 0x47b5481dbefa4fa4]

/-- A word size of the family, with the functions that mix the bits of a word. -/
class Word (W : Type) extends Add W, AndOp W, XorOp W, Complement W where
  width : Nat
  /-- The word that agrees with a number modulo the word size. -/
  ofNat : Nat → W
  toNat : W → Nat
  /-- The mixing of the first register in a round. -/
  bigSigma0 : W → W
  /-- The mixing of the fifth register in a round. -/
  bigSigma1 : W → W
  /-- The mixing of the word fifteen places back in the schedule. -/
  smallSigma0 : W → W
  /-- The mixing of the word two places back in the schedule. -/
  smallSigma1 : W → W
  roundConstants : List W

/-- Turn the bits of a 32-bit word to the right. -/
def rotate32 (w n : UInt32) : UInt32 := (w >>> n) ||| (w <<< (32 - n))

/-- Turn the bits of a 64-bit word to the right. -/
def rotate64 (w n : UInt64) : UInt64 := (w >>> n) ||| (w <<< (64 - n))

/-- The constants of the 64 rounds over 32-bit words: the upper halves of the first roots. -/
def roundConstants32 : List UInt32 := (cubeRoots.take 64).map fun n => UInt32.ofNat (n >>> 32)

def roundConstants64 : List UInt64 := cubeRoots.map UInt64.ofNat

instance : Word UInt32 where
  width := 4
  ofNat := UInt32.ofNat
  toNat := UInt32.toNat
  bigSigma0 w := rotate32 w 2 ^^^ rotate32 w 13 ^^^ rotate32 w 22
  bigSigma1 w := rotate32 w 6 ^^^ rotate32 w 11 ^^^ rotate32 w 25
  smallSigma0 w := rotate32 w 7 ^^^ rotate32 w 18 ^^^ (w >>> 3)
  smallSigma1 w := rotate32 w 17 ^^^ rotate32 w 19 ^^^ (w >>> 10)
  roundConstants := roundConstants32

instance : Word UInt64 where
  width := 8
  ofNat := UInt64.ofNat
  toNat := UInt64.toNat
  bigSigma0 w := rotate64 w 28 ^^^ rotate64 w 34 ^^^ rotate64 w 39
  bigSigma1 w := rotate64 w 14 ^^^ rotate64 w 18 ^^^ rotate64 w 41
  smallSigma0 w := rotate64 w 1 ^^^ rotate64 w 8 ^^^ (w >>> 7)
  smallSigma1 w := rotate64 w 19 ^^^ rotate64 w 61 ^^^ (w >>> 6)
  roundConstants := roundConstants64

/-! ## Message schedule -/

/-- Extend a schedule by `n` words. The schedule is kept with its latest word first. -/
@[specialize] def extend {W : Type} [Word W] : Nat → List W → List W
  | 0, latest => latest
  | n + 1, latest =>
    let zero := Word.ofNat 0
    let word := Word.smallSigma1 (latest.getD 1 zero) + latest.getD 6 zero
      + Word.smallSigma0 (latest.getD 14 zero) + latest.getD 15 zero
    extend n (word :: latest)

/-- The words of all rounds, from the sixteen words of a block. -/
@[specialize] def schedule {W : Type} [Word W] (block : List W) : List W :=
  (extend ((Word.roundConstants (W := W)).length - 16) block.reverse).reverse

/-! ## Compression -/

/-- The eight registers that a message is folded into. -/
structure Registers (W : Type) where
  (a b c d e f g h : W)

namespace Registers

def ofList {W : Type} [Word W] (words : List W) : Registers W :=
  let zero := Word.ofNat 0
  { a := words.getD 0 zero, b := words.getD 1 zero, c := words.getD 2 zero, d := words.getD 3 zero
    e := words.getD 4 zero, f := words.getD 5 zero, g := words.getD 6 zero, h := words.getD 7 zero }

def toList {W : Type} (r : Registers W) : List W := [r.a, r.b, r.c, r.d, r.e, r.f, r.g, r.h]

@[specialize] def add {W : Type} [Word W] (r s : Registers W) : Registers W :=
  ⟨r.a + s.a, r.b + s.b, r.c + s.c, r.d + s.d, r.e + s.e, r.f + s.f, r.g + s.g, r.h + s.h⟩

/-- One round, with its constant and its word of the schedule. -/
@[specialize] def round {W : Type} [Word W] (r : Registers W) (step : W × W) : Registers W :=
  let choice := (r.e &&& r.f) ^^^ (~~~r.e &&& r.g)
  let majority := (r.a &&& r.b) ^^^ (r.a &&& r.c) ^^^ (r.b &&& r.c)
  let first := r.h + Word.bigSigma1 r.e + choice + step.1 + step.2
  let second := Word.bigSigma0 r.a + majority
  ⟨first + second, r.a, r.b, r.c, r.d + first, r.e, r.f, r.g⟩

/-- Fold the sixteen words of a block into the registers. -/
@[specialize] def compress {W : Type} [Word W] (r : Registers W) (block : List W) : Registers W :=
  r.add ((Word.roundConstants.zip (schedule block)).foldl round r)

end Registers

/-! ## Messages -/

/-- A message filled up to whole blocks of sixteen words: a one bit, zeros, and its length in
bits in the last two words. -/
def pad (width : Nat) (message : Bytes) : Bytes :=
  let block := 16 * width
  let used := (message.length + 1 + 2 * width) % block
  message ++ 0x80 :: List.replicate ((block - used) % block) 0
    ++ Bytes.fixed (2 * width) (8 * message.length)

/-- The registers after a whole message. -/
@[specialize] def fold {W : Type} [Word W] (start : Registers W) (message : Bytes) : Registers W :=
  let width := Word.width W
  let blocks := Bytes.chunks (16 * width) (pad width message)
  blocks.foldl
    (fun r block => r.compress ((Bytes.chunks width block).map fun w => Word.ofNat w.toNat)) start

def Registers.toBytes {W : Type} [Word W] (r : Registers W) : Bytes :=
  r.toList.flatMap fun w => Bytes.fixed (Word.width W) (Word.toNat w)

def start32 (roots : List Nat) : Registers UInt32 := .ofList (roots.map UInt32.ofNat)

def start64 (roots : List Nat) : Registers UInt64 := .ofList (roots.map UInt64.ofNat)

def fold32 (start : Registers UInt32) (message : Bytes) : Registers UInt32 := fold start message

def fold64 (start : Registers UInt64) (message : Bytes) : Registers UInt64 := fold start message

def digest (algorithm : Algorithm) (message : Bytes) : Bytes :=
  match algorithm with
  | .sha256 => (fold32 (start32 (lowSquareRoots.map (· >>> 32))) message).toBytes
  | .sha224 => (fold32 (start32 highSquareRoots) message).toBytes.take 28
  | .sha384 => (fold64 (start64 highSquareRoots) message).toBytes.take 48
  | .sha512 => (fold64 (start64 lowSquareRoots) message).toBytes

/-! ## Lengths -/

theorem Registers.length_toBytes {W : Type} [Word W] (r : Registers W) :
    r.toBytes.length = 8 * Word.width W := by
  simp [Registers.toBytes, Registers.toList]
  omega

theorem length_digest (algorithm : Algorithm) (message : Bytes) :
    (digest algorithm message).length = algorithm.digestLength := by
  cases algorithm <;>
    simp [digest, Algorithm.digestLength, Registers.length_toBytes, Word.width]

end MerkleTrie.Sha2
