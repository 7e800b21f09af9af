-- SUMMARY: What the steps of a proof stand for in the forest that they lead up to, as long as digests do not mislead.
import MerkleTrie.Proofs.Hash.Inputs
import MerkleTrie.Proofs.Root.Prove

/-! # Steps that lead up to a forest

Steps that lead up to the hash of a forest hash the same pair of children at the
top as the forest does, if digests do not mislead. So the outermost step stands
for the branch on its side (`Forest.ownInput_of_own`). If it has steps within, this
branch is a node with the path of the step, and the steps within lead up to the
forest of the node's children (`Forest.node_of_ascend`). -/

namespace MerkleTrie

variable {f : Flavour}

/-! ## What the trie hashes for a branch -/

/-- The forest of the two children of a node. -/
def Forest.ofChildren (children : Bool → Layout f) : Forest f := fun s => some (children s)

namespace Layout

variable {algorithm : Algorithm} {index : Nat} {segment : List Bool} {children : Bool → Layout f}

theorem mem_entries_ofChildren {e : Entry f} :
    e ∈ (Forest.ofChildren children).entries ↔ ∃ s, e ∈ (children s).entries := by
  simp [Forest.mem_entries, Forest.ofChildren]

theorem Formed.ofChildren {side : Bool} (hf : (node index segment children).Formed side) :
    (Forest.ofChildren children).Formed := by
  intro s L hL
  obtain rfl := Option.some.inj hL
  exact hf.2 s

/-- What is hashed last for the branch itself. -/
def input (algorithm : Algorithm) : Layout f → HashInput f
  | .leaf _ segment value => .leaf (.ofBits segment) value
  | .node _ segment children => .node (.ofBits segment) (pair algorithm children).hash

theorem input_mem (algorithm : Algorithm) (L : Layout f) :
    L.input algorithm ∈ (L.branch algorithm).inputs := by
  cases L <;> exact List.mem_cons_self

theorem digest_input (algorithm : Algorithm) (L : Layout f) :
    (L.input algorithm).digest algorithm = (L.branch algorithm).hash := by
  cases L <;> rfl

theorem isPair_input (algorithm : Algorithm) (L : Layout f) :
    (L.input algorithm).isPair = false := by
  cases L <;> rfl

end Layout

/-- What is hashed for the branch of a step yields the hash that the step takes it for. -/
theorem Step.ownInput_of_own {algorithm : Algorithm} {step : Step f} {below : Option (Commitment f)}
    {own : Commitment f} (h : step.own algorithm below = some own) :
    ∃ y, step.ownInput below = some y ∧ y.digest algorithm = own.hash ∧ y.isPair = false := by
  rcases step with ⟨path, sibling, _ | (value | children)⟩ <;> cases below <;> cases h <;>
    exact ⟨_, rfl, rfl, rfl⟩

namespace Forest

variable {algorithm : Algorithm} {r : Forest f}

/-- What is hashed for a forest is the pair of its two sides and what is hashed on each. -/
theorem mem_inputs {x : HashInput f} :
    x ∈ (r.root algorithm).inputs ↔
      x = .pair ((r.root algorithm).left.map Branch.commitment)
          ((r.root algorithm).right.map Branch.commitment) ∨
        ∃ s L, r s = some L ∧ x ∈ (L.branch algorithm).inputs := by
  have hside : ∀ s, x ∈ ((r s).map (Layout.branch algorithm)).elim [] Branch.inputs ↔
      ∃ L, r s = some L ∧ x ∈ (L.branch algorithm).inputs := by
    intro s
    cases r s <;> simp
  unfold Root.inputs
  rw [List.mem_cons, List.mem_append, Bool.exists_bool]
  exact or_congr Iff.rfl (or_congr (hside false) (hside true))

theorem inputs_subset {s : Bool} {L : Layout f} (hL : r s = some L) :
    (L.branch algorithm).inputs ⊆ (r.root algorithm).inputs :=
  fun _ hx => mem_inputs.2 (.inr ⟨s, L, hL, hx⟩)

/-- The pair of the two sides, seen from one of them, is what is hashed last for a forest. -/
theorem beside_mem_inputs (r : Forest f) (algorithm : Algorithm) (s : Bool) :
    .beside s (((r.root algorithm).child s).map Branch.commitment)
      (((r.root algorithm).child (!s)).map Branch.commitment) ∈ (r.root algorithm).inputs := by
  cases s <;> exact List.mem_cons_self

theorem digest_beside (r : Forest f) (algorithm : Algorithm) (s : Bool) :
    (HashInput.beside s (((r.root algorithm).child s).map Branch.commitment)
      (((r.root algorithm).child (!s)).map Branch.commitment)).digest algorithm =
        (r.root algorithm).hash := by
  cases s <;> rfl

/-! ## The outermost step -/

section Ascent

variable {step : Step f} {inner : List (Step f)}

/-- The outermost step takes its branch for the one that the forest has on its side. -/
theorem own_of_hash
    (hfaithful : HashInput.Faithful algorithm (r.root algorithm).inputs
      (Step.inputs algorithm (step :: inner)))
    (hhash : (step.lift algorithm (Step.ascend algorithm inner)).hash = (r.root algorithm).hash) :
    step.own algorithm (Step.ascend algorithm inner) =
      (r step.path.isRight).map fun L => (L.branch algorithm).commitment := by
  rw [Step.hash_lift, ← r.digest_beside algorithm step.path.isRight] at hhash
  have hsame := hfaithful _ (r.beside_mem_inputs algorithm step.path.isRight) _
    List.mem_cons_self (by simp) hhash.symm
  rw [← (HashInput.beside_inj.1 hsame).1, child_root, Option.map_map]
  rfl

/-- The outermost step hashes what the forest hashes for the branch on its side. -/
theorem ownInput_of_own
    (hfaithful : HashInput.Faithful algorithm (r.root algorithm).inputs
      (Step.inputs algorithm (step :: inner))) {s : Bool} {L : Layout f} (hL : r s = some L)
    (hown : step.own algorithm (Step.ascend algorithm inner) =
      some (L.branch algorithm).commitment) :
    step.ownInput (Step.ascend algorithm inner) = some (L.input algorithm) := by
  obtain ⟨y, hy, hdigest, hpair⟩ := Step.ownInput_of_own hown
  have hmem : y ∈ Step.inputs algorithm (step :: inner) := Step.mem_inputs_of_ownInput hy
  have hinput : L.input algorithm ∈ (r.root algorithm).inputs :=
    inputs_subset hL (L.input_mem algorithm)
  rw [hy, hfaithful _ hinput y hmem ((L.isPair_input algorithm).trans hpair.symm)
    ((L.digest_input algorithm).trans hdigest.symm)]

/-- A step with others within stands for a node, and these lead up to the node's children. -/
theorem node_of_ascend (hinner : inner ≠ [])
    (hfaithful : HashInput.Faithful algorithm (r.root algorithm).inputs
      (Step.inputs algorithm (step :: inner)))
    (hhash : (step.lift algorithm (Step.ascend algorithm inner)).hash = (r.root algorithm).hash) :
    ∃ index segment children, r step.path.isRight = some (.node index segment children) ∧
      step.path = .ofBits segment ∧
      Step.ascend algorithm inner = some ((ofChildren children).root algorithm).commitment := by
  obtain ⟨next, hnext⟩ := Step.exists_ascend algorithm hinner
  have hown := own_of_hash hfaithful hhash
  -- A step over a commitment hashes a node, so the branch it stands for is there and is no leaf.
  cases hM : r step.path.isRight with
  | none =>
    rw [hM, hnext] at hown
    cases hown
  | some M =>
    rw [hM] at hown
    have hinput := ownInput_of_own hfaithful hM hown
    rw [hnext] at hown hinput
    cases M with
    | leaf => cases hinput
    | node index segment children =>
      injection hinput with hinput
      injection hinput with hpath hhash
      have hpair : next = Layout.pair algorithm children :=
        Commitment.eq_of_ofNode hhash (Option.some.inj hown)
      exact ⟨index, segment, children, rfl, hpath, hnext.trans (congrArg some hpair)⟩

/-- Digests that do not mislead do not mislead further down either. -/
theorem faithful_ofChildren
    (hfaithful : HashInput.Faithful algorithm (r.root algorithm).inputs
      (Step.inputs algorithm (step :: inner))) {s : Bool} {index : Nat} {segment : List Bool}
    {children : Bool → Layout f} (hL : r s = some (.node index segment children)) :
    HashInput.Faithful algorithm ((ofChildren children).root algorithm).inputs
      (Step.inputs algorithm inner) := by
  apply hfaithful.of_subset
  · exact List.Subset.trans (List.subset_cons_self _ _) (inputs_subset hL)
  · exact Step.inputs_subset_cons algorithm step inner

end Ascent

end Forest

end MerkleTrie
