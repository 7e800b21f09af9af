-- SUMMARY: Adding a leaf to a builder: the descent to the place where it belongs, and the change made there.
import MerkleTrie.Builder.Basic
import MerkleTrie.Path.CommonPrefix

/-! # Insertion

The descent of a new leaf passes every node whose path the new path has wholly.
It arrives in an empty slot of the root, inside the path of a branch, or where
the new path and a leaf in the trie get in each other's way. Only the first two
change the builder: the new leaf is hung in the empty slot, or the branch is
split and a new node takes the common prefix. -/

namespace MerkleTrie

/-- A node that the descent passes, and the side on which it goes on. -/
structure Passage where
  index : Nat
  path : Path
  isRight : Bool
  deriving DecidableEq, Repr

/-- Where the descent of a new leaf arrives. -/
inductive Arrival where
  /-- In an empty slot of the root. -/
  | vacancy (isRight : Bool)
  /-- At a branch that the new path does not get past. -/
  | obstructed
  /-- At a leaf that the new path runs through. -/
  | throughLeaf (leafPath : Path)
  /-- Inside the path of the branch in a slot, which hangs at a link. -/
  | fork (index : Nat) (link : Link) (common : CommonPrefix) (rest : Path)
  deriving DecidableEq, Repr

/-- The way of a new leaf into the trie. -/
structure Descent where
  passed : List Passage
  arrival : Arrival
  deriving DecidableEq, Repr

/-- The descent with a node passed before it. -/
def Descent.after (passage : Passage) (d : Descent) : Descent :=
  { d with passed := passage :: d.passed }

namespace Builder

variable {f : Flavour}

/-! ## Descent -/

/-- Descend from a slot, which hangs at a link, with what remains of a path. Each node passed
takes bits off the path; a node that took none would be a broken link. -/
def descendFrom (b : Builder f) (link : Link) (index : Nat) (remaining : Path) :
    Except TrieError Descent :=
  match b.slots[index]? with
  | none => .error (.brokenLink index)
  | some slot =>
    let common := CommonPrefix.of remaining slot.branch.path
    let rest := remaining.skip common.length
    let fork := Descent.mk [] (.fork index link common rest)
    if common.path = remaining then .ok ⟨[], .obstructed⟩
    else
      match slot.branch with
      | .leaf path _ => if common.path = path then .ok ⟨[], .throughLeaf path⟩ else .ok fork
      | .node path left right =>
        if common.path = path then
          if rest.code < remaining.code then
            let next := if rest.isRight then right else left
            (b.descendFrom (.child index rest.isRight) next rest).map
              (·.after ⟨index, path, rest.isRight⟩)
          else .error (.brokenLink index)
        else .ok fork
termination_by remaining.code

/-- The descent of a path from the root. -/
def descend (b : Builder f) (path : Path) : Except TrieError Descent :=
  match b.rootSlot path.isRight with
  | none => .ok ⟨[], .vacancy path.isRight⟩
  | some index => b.descendFrom (.root path.isRight) index path

/-! ## Change -/

/-- Hang a new leaf in an empty slot of the root. -/
def occupy (b : Builder f) (isRight : Bool) (path : Path) (value : f.Value) : Builder f :=
  let leaf := b.slots.size
  let b := (b.push (.leaf path value)).relink (.root isRight) leaf
  { b with size := b.size + 1 }

/-- Split the branch in a slot: it keeps its slot and loses the common prefix, and a new node with
the common prefix takes its place over it and over the new leaf. -/
def split (b : Builder f) (index : Nat) (link : Link) (common : CommonPrefix) (rest : Path)
    (value : f.Value) : Builder f :=
  let leaf := b.slots.size
  let node := leaf + 1
  let branch : Pending f :=
    if rest.isRight then .node common.path index leaf else .node common.path leaf index
  let b := b.modify index (·.shorten common.length)
  let b := ((b.push (.leaf rest value)).push branch).relink link node
  { b with size := b.size + 1 }

/-- Give up the hashed forms of the nodes passed. -/
def invalidate (b : Builder f) (passed : List Passage) : Builder f :=
  passed.foldl (fun b passage => b.modify passage.index Slot.stale) b

/-- Add a leaf in place. The builder comes back beside the outcome, a refusal included. -/
def add (path : Path) (value : f.Value) : EStateM TrieError (Builder f) Unit := do
  if path.isEmpty then throw (.invalidPath path)
  let b ← get
  let descent ← ofExcept (b.descend path)
  match descent.arrival with
  | .vacancy isRight => set (b.occupy isRight path value)
  | .obstructed => throw (.branchExists path)
  | .throughLeaf _ => throw (.leafOutOfBounds path)
  | .fork index link common rest =>
    set ((b.split index link common rest value).invalidate descent.passed)

/-- The builder with a leaf added, or the reason for which the leaf is refused. -/
def insert (b : Builder f) (path : Path) (value : f.Value) : Except TrieError (Builder f) :=
  match (add path value).run b with
  | .ok () b' => .ok b'
  | .error e _ => .error e

end Builder

end MerkleTrie
