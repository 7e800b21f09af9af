-- SUMMARY: Digests with the algorithm they belong to, their imprints, and the hasher that makes them.
import MerkleTrie.Bytes.Hex
import MerkleTrie.Error
import MerkleTrie.Hash.Sha2

/-! # Digests

A digest carries its algorithm, and its length is always the one that the
algorithm fixes. Its imprint is the number of the algorithm in two bytes and
then the digest. -/

namespace MerkleTrie

structure Digest where
  algorithm : Algorithm
  bytes : Bytes
  length_bytes : bytes.length = algorithm.digestLength
  deriving DecidableEq

namespace Digest

def hash (algorithm : Algorithm) (message : Bytes) : Digest :=
  ⟨algorithm, Sha2.digest algorithm message, Sha2.length_digest algorithm message⟩

/-- Take bytes as a digest of an algorithm. -/
def ofBytes (algorithm : Algorithm) (bytes : Bytes) : Except TrieError Digest :=
  if h : bytes.length = algorithm.digestLength then .ok ⟨algorithm, bytes, h⟩
  else .error (.invalidImprint .wrongLength)

/-- Take a word of 32 bytes as a digest of the standard algorithm. -/
def ofWord (word : Vector UInt8 32) : Digest :=
  ⟨.sha256, word.toList, by simp [Algorithm.digestLength]⟩

/-- The digest as a word of 32 bytes, if it is one of the standard algorithm. -/
def toWord? (d : Digest) : Option (Vector UInt8 32) :=
  if h : d.algorithm = .sha256 then
    some ⟨d.bytes.toArray, by simp [d.length_bytes, h, Algorithm.digestLength]⟩
  else none

/-! ## Imprints -/

/-- The number of the algorithm in two bytes, then the digest. -/
def imprint (d : Digest) : Bytes := Bytes.fixed 2 d.algorithm.id ++ d.bytes

def ofImprint : Bytes → Except TrieError Digest
  | high :: low :: bytes =>
    let id := Bytes.toNat [high, low]
    match Algorithm.ofId? id with
    | some algorithm => ofBytes algorithm bytes
    | none => .error (.unsupportedAlgorithm id)
  | _ => .error (.invalidImprint .tooShort)

/-! ## Text -/

def toHex (d : Digest) : String := Hex.encode d.imprint

/-- The form of a digest in diagnostics: the algorithm's name, then the digest. -/
def inspect (d : Digest) : String := "[" ++ d.algorithm.name ++ "]" ++ Hex.encode d.bytes

end Digest

/-! ## Hashers -/

/-- A message under way to its digest. -/
structure Hasher where
  algorithm : Algorithm := .standard
  message : Bytes := []
  deriving DecidableEq

namespace Hasher

def feed (h : Hasher) (bytes : Bytes) : Hasher := { h with message := h.message ++ bytes }

/-- The digest of all that was fed. -/
def digest (h : Hasher) : Digest := .hash h.algorithm h.message

/-- The form of a hasher in diagnostics, which shows its algorithm only. -/
def inspect (h : Hasher) : String := "DataHasher(" ++ h.algorithm.tag ++ ")"

end Hasher

end MerkleTrie
