-- SUMMARY: Calculating the root of a builder, hashing only the branches that changed since the last time.
import MerkleTrie.Builder.Basic

/-! # Calculating the root

A branch is hashed after its children, the left one first, and the hashed form
stays in its slot. A slot that still has one from before is not visited again,
nor is anything under it. -/

namespace MerkleTrie

variable {f : Flavour}

/-- The slots in the course of a calculation, and the branches hashed so far, the latest first. -/
structure Sweep (f : Flavour) where
  slots : Array (Slot f)
  hashed : List (Branch f) := []

namespace Sweep

/-- Note the hashed form of the branch in a slot. -/
def record (s : Sweep f) (index : Nat) (branch : Branch f) : Branch f × Sweep f :=
  (branch,
    { slots := s.slots.modify index fun slot => { slot with finalized := some branch }
      hashed := branch :: s.hashed })

/-- Hash the branch in a slot and all that is stale under it. A way down that is longer than
`fuel` must go round in a circle. -/
def finalize (algorithm : Algorithm) :
    Nat → Nat → Sweep f → Except TrieError (Branch f × Sweep f)
  | 0, index, _ => .error (.brokenLink index)
  | fuel + 1, index, s =>
    match s.slots[index]? with
    | none => .error (.brokenLink index)
    | some slot =>
      match slot.finalized with
      | some branch => .ok (branch, s)
      | none =>
        match slot.branch with
        | .leaf path value => .ok (s.record index (.ofLeaf algorithm path value))
        | .node path left right => do
          let (left, s) ← finalize algorithm fuel left s
          let (right, s) ← finalize algorithm fuel right s
          return s.record index (.ofNode algorithm path left right)

/-- Hash the branch in a slot of the root, if there is one. -/
def finalizeRootSlot (algorithm : Algorithm) (s : Sweep f) :
    Option Nat → Except TrieError (Option (Branch f) × Sweep f)
  | none => .ok (none, s)
  | some index => do
    let (branch, s) ← finalize algorithm s.slots.size index s
    return (some branch, s)

end Sweep

/-- What came of calculating a root. -/
structure Calculation (f : Flavour) where
  root : Root f
  /-- The builder with all its branches hashed. -/
  builder : Builder f
  /-- The branches that had to be hashed, in the order in which that was done. -/
  rehashed : List (Branch f)

namespace Builder

def calculateRoot (b : Builder f) : Except TrieError (Calculation f) := do
  let (left, s) ← Sweep.finalizeRootSlot b.algorithm { slots := b.slots } b.left
  let (right, s) ← Sweep.finalizeRootSlot b.algorithm s b.right
  return {
    root := .ofBranches b.algorithm left right
    builder := { b with slots := s.slots }
    rehashed := s.hashed.reverse }

end Builder

end MerkleTrie
