-- SUMMARY: The digest algorithms a trie may be hashed with, their identifiers, names and digest lengths.

/-! # Algorithms

Four members of the SHA-2 family. Each has a number, carried in front of every
digest, a name for people and a tag for data formats. -/

namespace MerkleTrie

inductive Algorithm where
  | sha256
  | sha224
  | sha384
  | sha512
  deriving DecidableEq, Repr

namespace Algorithm

/-- The algorithm used where none is named. -/
def standard : Algorithm := .sha256

/-- The number reserved for RIPEMD-160, which no trie is hashed with. -/
def ripemd160Id : Nat := 4

/-- The number that names the algorithm. -/
def id : Algorithm → Nat
  | .sha256 => 0
  | .sha224 => 1
  | .sha384 => 2
  | .sha512 => 3

def ofId? : Nat → Option Algorithm
  | 0 => some .sha256
  | 1 => some .sha224
  | 2 => some .sha384
  | 3 => some .sha512
  | _ => none

def name : Algorithm → String
  | .sha256 => "SHA-256"
  | .sha224 => "SHA-224"
  | .sha384 => "SHA-384"
  | .sha512 => "SHA-512"

/-- The name in data formats and diagnostics. -/
def tag : Algorithm → String
  | .sha256 => "Sha256"
  | .sha224 => "Sha224"
  | .sha384 => "Sha384"
  | .sha512 => "Sha512"

def ofTag? : String → Option Algorithm
  | "Sha256" => some .sha256
  | "Sha224" => some .sha224
  | "Sha384" => some .sha384
  | "Sha512" => some .sha512
  | _ => none

/-- The number of bytes in a digest. -/
def digestLength : Algorithm → Nat
  | .sha224 => 28
  | .sha256 => 32
  | .sha384 => 48
  | .sha512 => 64

/-- The number of bytes in the longest digest. -/
def maxDigestLength : Nat := 64

/-- Only the four algorithms have numbers, each its own. -/
theorem ofId?_eq_some_iff {n : Nat} {a : Algorithm} : ofId? n = some a ↔ n = a.id := by
  constructor
  · intro h
    unfold ofId? at h
    split at h <;> cases h <;> rfl
  · rintro rfl
    cases a <;> rfl

theorem ofTag?_tag (a : Algorithm) : ofTag? a.tag = some a := by
  cases a <;> rfl

end Algorithm

end MerkleTrie
