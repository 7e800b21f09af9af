-- SUMMARY: The root of a hashed trie: its two branches, its commitment, and the constants of the empty trie.
import MerkleTrie.Branch.Basic

/-! # Roots

The root of a trie holds a branch for the keys that begin with a zero bit and
one for those that begin with a one bit, either of which may be absent. Unlike a
node it has no path of its own. -/

namespace MerkleTrie

/-- The root of a hashed trie. -/
structure Root (f : Flavour) where
  algorithm : Algorithm
  /-- The branch whose keys begin with a zero bit. -/
  left : Option (Branch f)
  /-- The branch whose keys begin with a one bit. -/
  right : Option (Branch f)
  commitment : Commitment f
  deriving DecidableEq

namespace Root

variable {f : Flavour}

/-- Hash a root over its branches. -/
def ofBranches (algorithm : Algorithm) (left right : Option (Branch f)) : Root f :=
  { algorithm, left, right
    commitment := .ofPair algorithm (left.map Branch.commitment) (right.map Branch.commitment) }

def hash (r : Root f) : Digest := r.commitment.hash

def aggregate (r : Root f) : f.Aggregate := r.commitment.aggregate

/-- The branch on a side. -/
def child (r : Root f) (isRight : Bool) : Option (Branch f) := if isRight then r.right else r.left

/-- The leaves of a slot that may be empty. -/
def slotLeaves : Option (Branch f) → List (List Bool × f.Value)
  | none => []
  | some branch => branch.leaves

/-- All leaves of the trie from left to right, with their key bits. -/
def leaves (r : Root f) : List (List Bool × f.Value) := slotLeaves r.left ++ slotLeaves r.right

/-- The sum of all counters in a sum trie. -/
def counter (r : Root .sum) : Nat := r.aggregate

def empty (algorithm : Algorithm) : Root f := ofBranches algorithm none none

end Root

/-- The root hash of an empty plain trie under the standard algorithm. -/
def emptyRootHash : Digest := (Root.empty (f := .plain) .standard).hash

end MerkleTrie
