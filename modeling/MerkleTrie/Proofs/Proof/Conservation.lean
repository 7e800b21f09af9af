-- SUMMARY: The counters that a valid proof of a sum trie discloses add up to the sum of all counters in the trie.
import MerkleTrie.Proofs.Hash.Preimages
import MerkleTrie.Proofs.Proof.Ascent

/-! # Conservation of counters

A step of a sum trie adds the counter of its sibling to what lies below it, so the
steps of a proof add up to the counter that they lead up to
(`Step.counter_ascend`). Both counters of a pair are hashed, each on its own; so a
proof with the hash of a root leads up to the counter of that root, which is the
sum of the counters of all leaves (`Forest.counter_root`). -/

namespace MerkleTrie

variable {algorithm : Algorithm}

/-! ## Counters -/

/-- The counter of a branch; one that is absent counts nothing. -/
def Commitment.counter (c : Option (Commitment .sum)) : Nat := (part c).2

/-- The sum of the counters of leaves, whatever their keys are. -/
def totalCounter {Key : Type} (leaves : List (Key × Flavour.sum.Value)) : Nat :=
  (leaves.map fun leaf => CountedValue.counter leaf.2).sum

theorem totalCounter_append {Key : Type} (leaves leaves' : List (Key × Flavour.sum.Value)) :
    totalCounter (leaves ++ leaves') = totalCounter leaves + totalCounter leaves' := by
  rw [totalCounter, List.map_append, List.sum_append, totalCounter, totalCounter]

theorem totalCounter_perm {Key : Type} {leaves leaves' : List (Key × Flavour.sum.Value)}
    (h : leaves.Perm leaves') : totalCounter leaves = totalCounter leaves' :=
  (h.map _).sum_nat

theorem totalCounter_map_under (segment : List Bool) (m : Ledger .sum) :
    totalCounter (m.map (Entry.under segment)) = totalCounter m := by
  rw [totalCounter, List.map_map]
  rfl

theorem totalCounter_map_leaf (m : Ledger .sum) :
    totalCounter (m.map Entry.leaf) = totalCounter m := by
  rw [totalCounter, List.map_map]
  rfl

/-! ## The sum of a trie -/

theorem Commitment.counter_beside (s : Bool) (own sibling : Option (Commitment .sum)) :
    counter (some (beside algorithm s own sibling)) = counter own + counter sibling := by
  cases s with
  | false => rfl
  | true => exact Nat.add_comm ..

/-- The counter of a branch is the sum over its leaves. -/
theorem Layout.counter_branch (L : Layout .sum) (algorithm : Algorithm) :
    Commitment.counter (some (L.branch algorithm).commitment) = totalCounter L.entries := by
  induction L with
  | leaf index segment value => exact (Nat.add_zero _).symm
  | node index segment children ih =>
    rw [entries, totalCounter_map_under, totalCounter_append, ← ih false, ← ih true]
    rfl

/-- The counter of a root is the sum over all leaves. -/
theorem Forest.counter_root (r : Forest .sum) (algorithm : Algorithm) :
    (r.root algorithm).counter = totalCounter r.entries := by
  have hside : ∀ s, Commitment.counter (((r.root algorithm).child s).map Branch.commitment) =
      totalCounter (r.entriesOn s) := by
    intro s
    rw [child_root]
    unfold entriesOn
    cases r s with
    | none => rfl
    | some L => exact L.counter_branch algorithm
  rw [entries, totalCounter_append, ← hside false, ← hside true]
  rfl

/-! ## The sum of a proof -/

/-- The counter of the branch that a proof ends in. -/
def Terminal.counter : Terminal .sum → Nat
  | .leaf value => CountedValue.counter value
  | .node children => Commitment.counter (some children)

namespace Step

def siblingCounter (step : Step .sum) : Nat := Commitment.counter step.sibling

theorem counter_own_none (step : Step .sum) :
    Commitment.counter (step.own algorithm none) = step.terminal.elim 0 Terminal.counter := by
  rcases step with ⟨path, sibling, _ | (value | children)⟩ <;> rfl

/-- A step adds the counter of its sibling. -/
theorem counter_lift (step : Step .sum) (below : Option (Commitment .sum)) :
    Commitment.counter (some (step.lift algorithm below)) =
      Commitment.counter (step.own algorithm below) + step.siblingCounter := by
  rw [lift_eq, Commitment.counter_beside, siblingCounter]

/-- Steps add up to the counter that they lead up to. -/
theorem counter_ascend (algorithm : Algorithm) (steps : List (Step .sum)) :
    Commitment.counter (ascend algorithm steps) =
      (disclosed steps).elim 0 Terminal.counter + (steps.map siblingCounter).sum := by
  induction steps with
  | nil => rfl
  | cons step inner ih =>
    rw [ascend, counter_lift, List.map_cons, List.sum_cons]
    rcases eq_or_ne inner [] with rfl | hinner
    · rw [ascend, counter_own_none]
      rfl
    · obtain ⟨below, hbelow⟩ := exists_ascend algorithm hinner
      rw [disclosed_cons step hinner]
      rw [hbelow] at ih ⊢
      have hown : Commitment.counter (step.own algorithm (some below)) =
          Commitment.counter (some below) := rfl
      rw [hown, ih]
      omega

end Step

namespace Proof

/-- The counter that a proof claims for the root. -/
def rootCounter (p : Proof .sum) : Nat := p.root.aggregate

/-- The counter of the branch in the first step, zero for an empty slot. -/
def terminalCounter (p : Proof .sum) : Nat := p.terminal.elim 0 Terminal.counter

/-- The counters of all siblings, the innermost first. -/
def siblingCounters (p : Proof .sum) : List Nat := p.steps.map Step.siblingCounter

/-- A valid proof discloses counters that add up to the one that it claims for the root. -/
theorem counters_of_valid {p : Proof .sum} {query : Path} (h : (p.verify query).valid = true) :
    p.terminalCounter + p.siblingCounters.sum = p.rootCounter := by
  obtain ⟨-, hascend⟩ := valid_iff.1 h
  have hsum := Step.counter_ascend p.algorithm p.outer
  rw [hascend, disclosed_outer, outer, List.map_reverse, List.sum_reverse] at hsum
  exact hsum.symm

/-- No disclosed counter exceeds the one that a valid proof claims for the root. -/
theorem counter_le_of_valid {p : Proof .sum} {query : Path} (h : (p.verify query).valid = true)
    {n : Nat} (hn : n ∈ p.terminalCounter :: p.siblingCounters) : n ≤ p.rootCounter := by
  rw [← counters_of_valid h, ← List.sum_cons]
  obtain ⟨before, after, hcounters⟩ := List.append_of_mem hn
  rw [hcounters, List.sum_append, List.sum_cons]
  omega

end Proof

/-- A valid proof with the hash of a root claims the counter of that root too, unless digests
collide. -/
theorem Forest.root_eq_of_valid (r : Forest .sum) {p : Proof .sum} {query : Path}
    (hhash : p.root.hash = (r.root algorithm).hash)
    (hshort : ∀ y ∈ p.inputs, y.Short) (h : (p.verify query).valid = true) :
    HashInput.Collides algorithm ((r.root algorithm).inputs ++ p.inputs) ∨
      p.root = (r.root algorithm).commitment := by
  obtain ⟨hwf, hascend⟩ := Proof.valid_iff.1 h
  have halgorithm : p.algorithm = algorithm := congrArg Digest.algorithm hhash
  unfold Proof.inputs at hshort ⊢
  rw [halgorithm] at hascend hshort ⊢
  obtain ⟨step, inner, houter⟩ := List.exists_cons_of_ne_nil hwf.ne_nil
  rw [houter] at hascend hshort ⊢
  rcases HashInput.collides_or_separated algorithm (r.root algorithm).inputs
    (Step.inputs algorithm (step :: inner)) with hcollides | hseparated
  · exact .inl hcollides
  right
  have hlift := Option.some.inj hascend
  -- Only the outermost pair matters: the two counters in it are those of the two sides of the root.
  have hbytes := hseparated _ (r.beside_mem_inputs algorithm step.path.isRight) _
    List.mem_cons_self (by rw [r.digest_beside, ← Step.hash_lift, hlift, hhash])
  obtain ⟨hown, hsibling⟩ :=
    HashInput.beside_preimage_sum_inj (hshort _ List.mem_cons_self rfl) hbytes.symm
  rw [← hlift, Step.lift_eq, hown, hsibling, ← r.commitment_root]

/-! ## Runs -/

namespace Builder

/-- The counters that a valid proof discloses add up to the one that it claims for the root. After
any run, the counters in a proof that the root makes add up to the sum of those of all accepted
leaves. A valid proof with the hash of the root claims that sum too, unless digests collide, so it
discloses no counter above it. Byte strings must be short enough for the header of a list. -/
theorem counters_conserved :
    (∀ (p : Proof .sum) query, (p.verify query).valid = true →
      p.terminalCounter + p.siblingCounters.sum = p.rootCounter) ∧
    ∀ algorithm (operations : List (Operation .sum)), let start : Builder .sum := { algorithm }
      ∃ c, (start.run operations).calculateRoot = .ok c ∧
        c.root.counter = totalCounter (start.accepted operations) ∧
        (∀ query, let p := c.root.prove query
          (∀ query', (p.verify query').valid = true) ∧
            p.terminalCounter + p.siblingCounters.sum = totalCounter (start.accepted operations)) ∧
        ∀ p : Proof .sum, (∀ y ∈ p.inputs, y.Short) →
          p.root.hash = c.root.hash → ∀ query, (p.verify query).valid = true →
            HashInput.Collides algorithm (c.root.inputs ++ p.inputs) ∨
              (p.rootCounter = totalCounter (start.accepted operations) ∧
                ∀ n ∈ p.terminalCounter :: p.siblingCounters,
                  n ≤ totalCounter (start.accepted operations)) := by
  refine ⟨fun p query => Proof.counters_of_valid, ?_⟩
  intro algorithm operations start
  obtain ⟨r, c, hc, hroot, hf, hp⟩ := calculateRoot_run algorithm operations
  have htotal : (r.root algorithm).counter = totalCounter (start.accepted operations) := by
    rw [r.counter_root, ← totalCounter_map_leaf, totalCounter_perm hp]
  refine ⟨c, hc, ?_⟩
  rw [hroot, ← htotal]
  refine ⟨rfl, ?_, ?_⟩
  · intro query p
    have hvalid : ∀ query', (p.verify query').valid = true := hf.prove_valid algorithm query
    exact ⟨hvalid, Proof.counters_of_valid (hvalid query)⟩
  · intro p hshort hhash query hvalid
    rcases r.root_eq_of_valid hhash hshort hvalid with hcollides | heq
    · exact .inl hcollides
    · have hclaimed : p.rootCounter = (r.root algorithm).counter :=
        congrArg Commitment.aggregate heq
      rw [← hclaimed]
      exact .inr ⟨rfl, fun n => Proof.counter_le_of_valid hvalid⟩

end Builder

end MerkleTrie
