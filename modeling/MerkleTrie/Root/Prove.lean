-- SUMMARY: Making the proof for a query from a root.
import MerkleTrie.Path.CommonPrefix
import MerkleTrie.Proof.Basic
import MerkleTrie.Root.Basic

/-! # Making proofs

The proof for a query follows the query's bits down the trie. It passes every
node whose path the query has wholly and goes on behind, and ends in a leaf, in a
node that the query leaves or stops at, or in an empty slot of the root. -/

namespace MerkleTrie

variable {f : Flavour}

namespace Branch

/-- The steps for what remains of a query, from this branch inwards. -/
def descend (remaining : Path) (sibling : Option (Commitment f)) : Branch f → List (Step f)
  | .leaf path value _ => [{ path, sibling, terminal := some (.leaf value) }]
  | .node path left right children _ =>
    let common := CommonPrefix.of remaining path
    let rest := remaining.skip common.length
    if common.path ≠ path ∨ rest.isRoot then
      [{ path, sibling, terminal := some (.node children) }]
    else
      { path, sibling, terminal := none } ::
        if rest.isRight then right.descend rest (some left.commitment)
        else left.descend rest (some right.commitment)

end Branch

namespace Root

/-- The path that names an empty slot: the query, or the left side for a query without a
sentinel, which descends to the left. -/
def vacantPath (query : Path) : Path := if query.isZero then .ofBits [false] else query

/-- The steps for a query from the root inwards. -/
def descend (r : Root f) (query : Path) : List (Step f) :=
  let sibling := (r.child (!query.isRight)).map Branch.commitment
  match r.child query.isRight with
  | none => [{ path := vacantPath query, sibling, terminal := none }]
  | some branch => branch.descend query sibling

def prove (r : Root f) (query : Path) : Proof f :=
  { root := r.commitment, steps := (r.descend query).reverse }

end Root

end MerkleTrie
