-- SUMMARY: The hash and aggregate that commit to a branch, and how those of a leaf, a node and a pair of children are made.
import MerkleTrie.Flavour

/-! # Commitments

A parent knows each of its children by a digest and an aggregate only. This
module holds the hashing rules: of a leaf, of a pair of children, and of a node
over the hash of its children. -/

namespace MerkleTrie

/-- What commits to a branch: its hash and the aggregate of the leaves under it. -/
structure Commitment (f : Flavour) where
  hash : Digest
  aggregate : f.Aggregate
  deriving DecidableEq

variable {f : Flavour}

def leafHash (algorithm : Algorithm) (path : Path) (value : f.Value) : Digest :=
  .hash algorithm (Flavour.leafPreimage path value)

/-- What is hashed for a node: the bytes of its path and the hash of its children. -/
def nodePreimage (path : Path) (childrenHash : Digest) : Bytes :=
  path.toBytes ++ childrenHash.bytes

def nodeHash (algorithm : Algorithm) (path : Path) (childrenHash : Digest) : Digest :=
  .hash algorithm (nodePreimage path childrenHash)

namespace Commitment

/-- A child as it enters the hash of a pair: an absent one has a marker for its digest and adds
nothing. Of a digest only the bytes enter, not the algorithm. -/
def part : Option (Commitment f) → Bytes × f.Aggregate
  | none => (Flavour.emptyBranch, f.zero)
  | some c => (c.hash.bytes, c.aggregate)

/-- What is hashed for a pair of children. -/
def pairPreimage (left right : Option (Commitment f)) : Bytes :=
  Flavour.childrenPreimage (part left) (part right)

/-- The hash and the aggregate of a pair of children, of which any may be absent. -/
def ofPair (algorithm : Algorithm) (left right : Option (Commitment f)) : Commitment f :=
  { hash := .hash algorithm (pairPreimage left right)
    aggregate := Flavour.combine (part left).2 (part right).2 }

def ofLeaf (algorithm : Algorithm) (path : Path) (value : f.Value) : Commitment f :=
  { hash := leafHash algorithm path value, aggregate := value.aggregate }

/-- The commitment to a node, from that to the pair of its children. -/
def ofNode (algorithm : Algorithm) (path : Path) (children : Commitment f) : Commitment f :=
  { hash := nodeHash algorithm path children.hash, aggregate := children.aggregate }

end Commitment

end MerkleTrie
