-- SUMMARY: The events of each operation, in order, read off what the operation found.
import MerkleTrie.Builder.Calculate
import MerkleTrie.Builder.Insert
import MerkleTrie.Event.Basic
import MerkleTrie.Proof.Verify
import MerkleTrie.Root.Prove

/-! # Histories

Nothing is logged while an operation runs. Its events are read off what it
found on its way: the descent of a new leaf, the branches hashed for a root, the
steps of a proof, the pairs that a check folded. -/

namespace MerkleTrie

variable {f : Flavour}

/-! ## Builders -/

/-- The event with which the descent of a path ends. -/
def Arrival.event (path : Path) : Arrival → Event
  | .vacancy isRight => .slotFound path isRight
  | .obstructed => .branchExists path
  | .throughLeaf leafPath => .leafOutOfBounds path leafPath
  | .fork _ _ common _ => .splitting path common

def Descent.events (path : Path) (d : Descent) : List Event :=
  d.passed.map (fun passage => .descending passage.path passage.isRight) ++ [d.arrival.event path]

/-- The events of adding a leaf. A path without key bits is refused before anything happens. -/
def Builder.insertEvents (b : Builder f) (path : Path) : List Event :=
  if path.isEmpty then []
  else
    match b.descend path with
    | .ok descent => descent.events path
    | .error _ => []

/-- The events of calculating a root. -/
def Calculation.events (c : Calculation f) : List Event :=
  c.rehashed.map (fun branch => .branchHashed branch.path branch.hash) ++
    [.rootCalculated c.builder.size c.builder.slots.size c.rehashed.length c.root.hash]

/-! ## Proofs -/

/-- The events of following a query through the steps of its proof, from the root inwards. -/
def Step.events (query : Path) : List (Step f) → List Event
  | [] => []
  | [step] =>
    match step.terminal with
    | none => [.endsInEmptySlot query]
    | some (.leaf _) => [.endsInLeaf step.path]
    | some (.node _) => [.endsInNode step.path]
  | step :: inner => .passesNode step.path :: Step.events query inner

/-- The events of making the proof for a query. -/
def Root.proveEvents (r : Root f) (query : Path) : List Event :=
  let steps := r.descend query
  Step.events query steps ++ [.proofBuilt query steps.length]

/-- The events of checking a proof against a query. -/
def Proof.verifyEvents (p : Proof f) (query : Path) : List Event :=
  if p.steps.isEmpty then [.noSteps]
  else if p.hasZeroStep then [.zeroStep]
  else
    (Proof.climb p.algorithm none p.steps).map (fun pair => .stepFolded pair.1.path pair.2.hash) ++
      [.proofVerified query (p.verify query)]

end MerkleTrie
