-- SUMMARY: Checking a proof against a query: folding its steps up to a root and putting its key together.
import MerkleTrie.Proof.Basic

/-! # Verification

The steps of a proof are folded from the innermost outwards. A step joins the
branch it stands for with its sibling, on the side that its path begins with;
the result is the commitment to the pair of children under the next step. The
proof is valid if the fold ends in the root it claims, under the algorithm of
that root. Its key is the concatenation of its paths from the outermost inwards,
and the query is included if the proof ends in a leaf with that key. -/

namespace MerkleTrie

variable {f : Flavour}

/-- The commitment to the branch that a proof ends in. -/
def Terminal.commitment (algorithm : Algorithm) (path : Path) : Terminal f → Commitment f
  | .leaf value => .ofLeaf algorithm path value
  | .node children => .ofNode algorithm path children

namespace Step

/-- The commitment to the branch a step stands for: over the pair of children below it, or as
disclosed on the innermost step, where there is no pair below. -/
def own (algorithm : Algorithm) (step : Step f) : Option (Commitment f) → Option (Commitment f)
  | some below => some (.ofNode algorithm step.path below)
  | none => step.terminal.map (·.commitment algorithm step.path)

/-- The commitment to the pair that a step's branch and its sibling form. -/
def lift (algorithm : Algorithm) (step : Step f) (below : Option (Commitment f)) : Commitment f :=
  let own := step.own algorithm below
  if step.path.isRight then .ofPair algorithm step.sibling own
  else .ofPair algorithm own step.sibling

end Step

namespace Proof

def algorithm (p : Proof f) : Algorithm := p.root.hash.algorithm

/-- Whether some step has a path without a sentinel. -/
def hasZeroStep (p : Proof f) : Bool := p.steps.any (·.path.isZero)

/-- The commitments to all pairs on the way up, each with the step it belongs to. -/
def climb (algorithm : Algorithm) (below : Option (Commitment f)) :
    List (Step f) → List (Step f × Commitment f)
  | [] => []
  | step :: outer =>
    let pair := step.lift algorithm below
    (step, pair) :: climb algorithm (some pair) outer

/-- The commitment that the steps fold up to. -/
def reached (p : Proof f) : Option (Commitment f) :=
  p.steps.foldl (fun below step => some (step.lift p.algorithm below)) none

/-- The key that the paths of the steps spell from the outermost inwards. -/
def key (p : Proof f) : Path :=
  p.steps.foldl (fun key step => step.path.append key) .root

/-- Whether the proof discloses a leaf. -/
def endsInLeaf (p : Proof f) : Bool :=
  match p.steps.head? with
  | some { terminal := some (.leaf _), .. } => true
  | _ => false

/-- Check a proof against a query. A proof without steps, or with a path that lacks its sentinel,
is neither valid nor included. -/
def verify (p : Proof f) (query : Path) : Verdict :=
  if p.steps.isEmpty || p.hasZeroStep then .invalid
  else
    { valid := p.reached = some p.root
      included := p.endsInLeaf && p.key == query }

end Proof

end MerkleTrie
