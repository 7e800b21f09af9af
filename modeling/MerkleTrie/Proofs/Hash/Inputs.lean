-- SUMMARY: What is hashed when a root is made and when a proof is checked, and the two ways in which a digest can mislead.
import MerkleTrie.Proof.Verify
import MerkleTrie.Proofs.Proof.Verify
import MerkleTrie.Root.Basic

/-! # Hashed inputs

A digest says what it commits to only as far as the hashed byte string does. Two
different byte strings may have one digest, which is a collision; or one byte
string may be put together in two ways, as its parts are not always told apart.
If neither happens between a root and a proof, equal digests come from equal
inputs (`HashInput.faithful_or`). -/

namespace MerkleTrie

variable {f : Flavour}

/-- Pairs of children with one hash are the same if nodes over them have one commitment, as a node
adds up to what its pair does. -/
theorem Commitment.eq_of_ofNode {algorithm : Algorithm} {path path' : Path} {c c' : Commitment f}
    (hhash : c.hash = c'.hash) (h : ofNode algorithm path c = ofNode algorithm path' c') :
    c = c' := by
  have haggregate : c.aggregate = c'.aggregate := (mk.inj h).2
  cases c
  cases c'
  exact congr (congrArg mk hhash) haggregate

/-- A byte string that is hashed, by what it is put together from. -/
inductive HashInput (f : Flavour) where
  /-- A leaf. -/
  | leaf (path : Path) (value : f.Value)
  /-- A node over the hash of its children. -/
  | node (path : Path) (childrenHash : Digest)
  /-- A pair of children, of which any may be absent. -/
  | pair (left right : Option (Commitment f))
  deriving DecidableEq

namespace HashInput

/-- The byte string itself. -/
def preimage : HashInput f → Bytes
  | .leaf path value => Flavour.leafPreimage path value
  | .node path childrenHash => nodePreimage path childrenHash
  | .pair left right => Commitment.pairPreimage left right

/-- The digest of the byte string. -/
def digest (algorithm : Algorithm) (x : HashInput f) : Digest := .hash algorithm x.preimage

/-- The pair of two branches, of which the first is on the given side. -/
def beside (isRight : Bool) (own sibling : Option (Commitment f)) : HashInput f :=
  if isRight then .pair sibling own else .pair own sibling

/-- Two different byte strings have the same digest. -/
def Collides (algorithm : Algorithm) (inputs : List (HashInput f)) : Prop :=
  ∃ x ∈ inputs, ∃ y ∈ inputs, x.preimage ≠ y.preimage ∧ x.digest algorithm = y.digest algorithm

instance (algorithm : Algorithm) (inputs : List (HashInput f)) :
    Decidable (Collides algorithm inputs) :=
  inferInstanceAs (Decidable (∃ x ∈ inputs, ∃ y ∈ inputs, _))

/-- One byte string is put together in two ways. -/
def Ambiguous (inputs inputs' : List (HashInput f)) : Prop :=
  ∃ x ∈ inputs, ∃ y ∈ inputs', x ≠ y ∧ x.preimage = y.preimage

instance (inputs inputs' : List (HashInput f)) : Decidable (Ambiguous inputs inputs') :=
  inferInstanceAs (Decidable (∃ x ∈ inputs, ∃ y ∈ inputs', _))

/-- Whether the input is a pair of children. The digests of pairs are never compared with those of
leaves and nodes. -/
def isPair : HashInput f → Bool
  | .pair .. => true
  | _ => false

/-- Inputs on the two sides that have the same digest are the same. -/
def Faithful (algorithm : Algorithm) (inputs inputs' : List (HashInput f)) : Prop :=
  ∀ x ∈ inputs, ∀ y ∈ inputs', x.isPair = y.isPair → x.digest algorithm = y.digest algorithm → x = y

theorem Faithful.of_subset {algorithm : Algorithm} {xs xs' ys ys' : List (HashInput f)}
    (h : Faithful algorithm xs ys) (hx : xs' ⊆ xs) (hy : ys' ⊆ ys) : Faithful algorithm xs' ys' :=
  fun x hx' y hy' => h x (hx hx') y (hy hy')

/-- Inputs on the two sides that have the same digest have the same bytes. -/
def Separated (algorithm : Algorithm) (inputs inputs' : List (HashInput f)) : Prop :=
  ∀ x ∈ inputs, ∀ y ∈ inputs', x.digest algorithm = y.digest algorithm → x.preimage = y.preimage

theorem Separated.of_subset {algorithm : Algorithm} {xs xs' ys ys' : List (HashInput f)}
    (h : Separated algorithm xs ys) (hx : xs' ⊆ xs) (hy : ys' ⊆ ys) :
    Separated algorithm xs' ys' :=
  fun x hx' y hy' => h x (hx hx') y (hy hy')

theorem collides_or_separated (algorithm : Algorithm) (inputs inputs' : List (HashInput f)) :
    Collides algorithm (inputs ++ inputs') ∨ Separated algorithm inputs inputs' := by
  by_cases hc : Collides algorithm (inputs ++ inputs')
  · exact .inl hc
  · refine .inr fun x hx y hy hd => Decidable.byContradiction fun hne => hc ?_
    exact ⟨x, List.mem_append_left _ hx, y, List.mem_append_right _ hy, hne, hd⟩

/-- Digests mislead only by a collision or by an ambiguity. -/
theorem faithful_or (algorithm : Algorithm) (inputs inputs' : List (HashInput f)) :
    Collides algorithm (inputs ++ inputs') ∨ Ambiguous inputs inputs' ∨
      Faithful algorithm inputs inputs' := by
  rcases collides_or_separated algorithm inputs inputs' with hc | hseparated
  · exact .inl hc
  by_cases ha : Ambiguous inputs inputs'
  · exact .inr (.inl ha)
  refine .inr (.inr ?_)
  intro x hx y hy _ hd
  -- No collision makes the byte strings equal, and no ambiguity the inputs.
  have hpreimage := hseparated x hx y hy hd
  exact Decidable.byContradiction fun hne => ha ⟨x, hx, y, hy, hne, hpreimage⟩

theorem beside_inj {isRight : Bool} {own own' sibling sibling' : Option (Commitment f)} :
    beside isRight own sibling = beside isRight own' sibling' ↔
      own = own' ∧ sibling = sibling' := by
  cases isRight <;> simp [beside, and_comm]

@[simp] theorem isPair_beside (isRight : Bool) (own sibling : Option (Commitment f)) :
    (beside isRight own sibling).isPair = true := by
  cases isRight <;> rfl

end HashInput

/-! ## What a root hashes -/

/-- What is hashed for a branch and all branches under it. -/
def Branch.inputs : Branch f → List (HashInput f)
  | .leaf path value _ => [.leaf path value]
  | .node path left right children _ =>
    .node path children.hash :: .pair (some left.commitment) (some right.commitment) ::
      (left.inputs ++ right.inputs)

/-- What is hashed for a root and all branches under it. -/
def Root.inputs (r : Root f) : List (HashInput f) :=
  .pair (r.left.map Branch.commitment) (r.right.map Branch.commitment) ::
    (r.left.elim [] Branch.inputs ++ r.right.elim [] Branch.inputs)

/-! ## What a check hashes -/

namespace Step

/-- What is hashed for the branch that a step stands for. -/
def ownInput (step : Step f) : Option (Commitment f) → Option (HashInput f)
  | some below => some (.node step.path below.hash)
  | none => step.terminal.map fun
    | .leaf value => .leaf step.path value
    | .node children => .node step.path children.hash

/-- What is hashed for steps, the outermost step first. -/
def inputs (algorithm : Algorithm) : List (Step f) → List (HashInput f)
  | [] => []
  | step :: inner =>
    let below := ascend algorithm inner
    .beside step.path.isRight (step.own algorithm below) step.sibling ::
      ((step.ownInput below).toList ++ inputs algorithm inner)

theorem inputs_subset_cons (algorithm : Algorithm) (step : Step f) (inner : List (Step f)) :
    inputs algorithm inner ⊆ inputs algorithm (step :: inner) :=
  fun _ hy => List.mem_cons_of_mem _ (List.mem_append_right _ hy)

/-- What is hashed for the branch of the outermost step is hashed for all steps. -/
theorem mem_inputs_of_ownInput {algorithm : Algorithm} {step : Step f} {inner : List (Step f)}
    {y : HashInput f} (h : step.ownInput (ascend algorithm inner) = some y) :
    y ∈ inputs algorithm (step :: inner) := by
  refine List.mem_cons_of_mem _ (List.mem_append_left _ ?_)
  rw [h]
  exact List.mem_singleton.2 rfl

theorem hash_lift (algorithm : Algorithm) (step : Step f) (below : Option (Commitment f)) :
    (step.lift algorithm below).hash =
      (HashInput.beside step.path.isRight (step.own algorithm below) step.sibling).digest
        algorithm := by
  cases hs : step.path.isRight <;> simp only [lift, hs] <;> rfl

end Step

/-- What is hashed in the check of a proof. -/
def Proof.inputs (p : Proof f) : List (HashInput f) := Step.inputs p.algorithm p.outer

end MerkleTrie
