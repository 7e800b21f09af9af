-- SUMMARY: Proofs of what a trie holds at a path: their steps, and the verdict of checking one.
import MerkleTrie.Branch.Commitment

/-! # Proofs

A proof leads from the place where a query ends up to the root. Each step stands
for one branch on the way, the innermost first, and carries the branch's path
and the commitment to its sibling. Only the innermost step discloses the branch
itself. -/

namespace MerkleTrie

/-- The branch in which a query ends. -/
inductive Terminal (f : Flavour) where
  | leaf (value : f.Value)
  | node (children : Commitment f)
  deriving DecidableEq

/-- One level of a proof. -/
structure Step (f : Flavour) where
  /-- The path of the branch at this level, or what is left of the query in an empty root slot. -/
  path : Path
  /-- The commitment to the other branch under the same parent. -/
  sibling : Option (Commitment f)
  /-- The branch in which the query ends, on the innermost step of a slot that is not empty. -/
  terminal : Option (Terminal f)
  deriving DecidableEq

/-- A proof, with its steps from the innermost outwards. -/
structure Proof (f : Flavour) where
  /-- The commitment to the root that the proof claims to lead to. -/
  root : Commitment f
  steps : List (Step f)
  deriving DecidableEq

/-- What came of checking a proof. -/
structure Verdict where
  /-- The proof hashes up to the root it claims. -/
  valid : Bool
  /-- The proof ends in a leaf at the query. -/
  included : Bool
  deriving DecidableEq, Repr

namespace Verdict

/-- The verdict on a malformed proof. -/
def invalid : Verdict := ⟨false, false⟩

/-- Whether the proof shows a leaf at the query. -/
def successful (v : Verdict) : Bool := v.valid && v.included

def flagText (b : Bool) : String := if b then "true" else "false"

def message (v : Verdict) : String :=
  "valid: " ++ flagText v.valid ++ ", included: " ++ flagText v.included

/-- The form of a verdict in diagnostics. -/
def inspect (v : Verdict) : String :=
  "VerificationResult \x7b path_valid: " ++ flagText v.valid ++ ", path_included: "
    ++ flagText v.included ++ " \x7d"

end Verdict

end MerkleTrie
