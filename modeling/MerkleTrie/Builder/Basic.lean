-- SUMMARY: The builder of a trie: a table of slots with pending branches, the links between them, and cached hashes.
import MerkleTrie.Root.Basic

/-! # Builders

A builder keeps the branches of a growing trie in numbered slots that are never
given up, so a number stays good for as long as the builder lives. A slot also
keeps the hashed form of its branch from the last calculation of the root, until
something changes at the branch or under it. -/

namespace MerkleTrie

/-- A branch of a growing trie. A node names its children by their slots. -/
inductive Pending (f : Flavour) where
  | leaf (path : Path) (value : f.Value)
  | node (path : Path) (left right : Nat)
  deriving DecidableEq

/-- A slot of a builder. -/
structure Slot (f : Flavour) where
  branch : Pending f
  /-- The hashed branch, if nothing has changed since it was hashed. -/
  finalized : Option (Branch f) := none
  deriving DecidableEq

/-- Where a branch hangs. -/
inductive Link where
  /-- At one side of the root. -/
  | root (isRight : Bool)
  /-- At one side of the node in a slot. -/
  | child (parent : Nat) (isRight : Bool)
  deriving DecidableEq, Repr

/-- The builder of a trie. -/
structure Builder (f : Flavour) where
  algorithm : Algorithm := .standard
  /-- The slots, in the order in which they were filled. -/
  slots : Array (Slot f) := #[]
  /-- The slot of the branch whose keys begin with a zero bit. -/
  left : Option Nat := none
  /-- The slot of the branch whose keys begin with a one bit. -/
  right : Option Nat := none
  size : Nat := 0
  deriving DecidableEq

variable {f : Flavour}

namespace Pending

def path : Pending f → Path
  | .leaf path _ => path
  | .node path _ _ => path

def withPath (path : Path) : Pending f → Pending f
  | .leaf _ value => .leaf path value
  | .node _ left right => .node path left right

/-- The branch with one child replaced. A leaf has none. -/
def withChild (isRight : Bool) (index : Nat) : Pending f → Pending f
  | .leaf path value => .leaf path value
  | .node path left right => if isRight then .node path left index else .node path index right

end Pending

namespace Slot

def stale (s : Slot f) : Slot f := { s with finalized := none }

/-- The slot with the first `n` bits of its branch's path taken off, which makes it stale. -/
def shorten (n : Nat) (s : Slot f) : Slot f :=
  { branch := s.branch.withPath (s.branch.path.skip n) }

/-- The slot with one child of its node replaced. -/
def relink (isRight : Bool) (index : Nat) (s : Slot f) : Slot f :=
  { s with branch := s.branch.withChild isRight index }

end Slot

namespace Builder

def isEmpty (b : Builder f) : Bool := b.size == 0

/-- The slot of the branch on a side of the root. -/
def rootSlot (b : Builder f) (isRight : Bool) : Option Nat := if isRight then b.right else b.left

def push (b : Builder f) (branch : Pending f) : Builder f :=
  { b with slots := b.slots.push { branch } }

def modify (b : Builder f) (index : Nat) (change : Slot f → Slot f) : Builder f :=
  { b with slots := b.slots.modify index change }

/-- Hang the branch in a slot at a link. -/
def relink (b : Builder f) (link : Link) (index : Nat) : Builder f :=
  match link with
  | .root false => { b with left := some index }
  | .root true => { b with right := some index }
  | .child parent isRight => b.modify parent (·.relink isRight index)

end Builder

end MerkleTrie
