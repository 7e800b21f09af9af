-- SUMMARY: Hashed branches of a trie, leaves and nodes, with the keys and values under them.
import MerkleTrie.Branch.Commitment

/-! # Branches

A branch is a leaf with a value or a node with two children, and each carries
the path that leads to it from its parent. A branch of this module is hashed
once, when it is made, and never changes. -/

namespace MerkleTrie

inductive Branch (f : Flavour) where
  /-- A leaf, with its path from the parent, its value and its hash. -/
  | leaf (path : Path) (value : f.Value) (hash : Digest)
  /-- A node, with its path from the parent, the commitment to its children and its hash. -/
  | node (path : Path) (left right : Branch f) (children : Commitment f) (hash : Digest)
  deriving DecidableEq

namespace Branch

variable {f : Flavour}

def path : Branch f → Path
  | .leaf path _ _ => path
  | .node path _ _ _ _ => path

def hash : Branch f → Digest
  | .leaf _ _ hash => hash
  | .node _ _ _ _ hash => hash

/-- The aggregate of the leaves under the branch. -/
def aggregate : Branch f → f.Aggregate
  | .leaf _ value _ => value.aggregate
  | .node _ _ _ children _ => children.aggregate

def isLeaf : Branch f → Bool
  | .leaf .. => true
  | .node .. => false

def commitment (b : Branch f) : Commitment f := ⟨b.hash, b.aggregate⟩

def ofLeaf (algorithm : Algorithm) (path : Path) (value : f.Value) : Branch f :=
  .leaf path value (leafHash algorithm path value)

/-- Hash a node over two branches. -/
def ofNode (algorithm : Algorithm) (path : Path) (left right : Branch f) : Branch f :=
  let children := Commitment.ofPair algorithm (some left.commitment) (some right.commitment)
  .node path left right children (nodeHash algorithm path children.hash)

/-- The leaves under a branch from left to right: their key bits from the branch's parent on, and
their values. -/
def leaves : Branch f → List (List Bool × f.Value)
  | .leaf path value _ => [(path.bits, value)]
  | .node path left right _ _ =>
    (left.leaves ++ right.leaves).map fun entry => (path.bits ++ entry.1, entry.2)

end Branch

end MerkleTrie
