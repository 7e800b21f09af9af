-- SUMMARY: The counter of every branch of a sum trie is the sum over the accepted leaves whose keys go through the branch.
import MerkleTrie.Proofs.Proof.Conservation
import MerkleTrie.Proofs.Root.Sites

/-! # Counters of branches

The counter of a branch is kept with its hash, while later insertions split the
branch and hang it elsewhere. In a calculated root it is right at every site: it
is the sum over the leaves below, and so the sum over the accepted leaves whose
keys begin with the key of the site (`Forest.Formed.counter_site`). At the root,
which has no bits, that is every accepted leaf. -/

namespace MerkleTrie

variable {algorithm : Algorithm}

/-- The counter that is kept with a branch. -/
def Branch.counter (b : Branch .sum) : Nat := b.aggregate

namespace Forest

variable {r : Forest .sum} {p : Site .sum}

/-- The counter of a branch is the sum over the leaves below it. -/
theorem counter_eq_leaves (hp : p ∈ (r.root algorithm).sites) :
    p.branch.counter = totalCounter p.branch.leaves := by
  obtain ⟨M, hM⟩ := exists_branch_eq hp
  rw [hM, M.leaves_branch]
  exact M.counter_branch algorithm

/-- The counter of a branch is the sum over the keys that begin with the key of its site. -/
theorem Formed.counter_site (hf : r.Formed) (hp : p ∈ (r.root algorithm).sites) :
    p.branch.counter = totalCounter (r.entries.filter fun e => p.key <+: e.1) := by
  rw [hf.entries_at hp, totalCounter_map_under]
  exact counter_eq_leaves hp

/-- The sum over some keys of a forest can be taken over its leaves, in whatever order. -/
theorem totalCounter_filter {leaves : List (Path × Flavour.sum.Value)}
    (hp : (r.entries.map Entry.leaf).Perm leaves) (keep : List Bool → Bool) :
    totalCounter (leaves.filter fun leaf => keep leaf.1.bits) =
      totalCounter (r.entries.filter fun e => keep e.1) := by
  have hkeep : ((fun leaf => keep leaf.1.bits) ∘ Entry.leaf : Entry .sum → Bool) =
      fun e => keep e.1 :=
    funext fun e => congrArg keep (Path.bits_ofBits e.1)
  rw [← totalCounter_perm (hp.filter _), List.filter_map, hkeep, totalCounter_map_leaf]

end Forest

/-! ## Runs -/

namespace Builder

/-- After any run, the counter of every branch in the root is the sum over the leaves below it, and
these are the accepted leaves whose keys begin with the key of the branch. The counter of the root,
and that of every proof that the root makes, is the sum over all accepted leaves. -/
theorem counters_summed (algorithm : Algorithm) (operations : List (Operation .sum)) :
    let start : Builder .sum := { algorithm }
    let accepted := start.accepted operations
    ∃ c, (start.run operations).calculateRoot = .ok c ∧
      (∀ p ∈ c.root.sites, p.branch.counter = totalCounter p.branch.leaves ∧
        p.branch.counter = totalCounter (accepted.filter fun leaf => p.key <+: leaf.1.bits)) ∧
      c.root.counter = totalCounter c.root.leaves ∧ c.root.counter = totalCounter accepted ∧
      ∀ query, (c.root.prove query).rootCounter = totalCounter accepted := by
  intro start accepted
  obtain ⟨r, c, hc, hroot, hf, hp⟩ := calculateRoot_run algorithm operations
  have hleaves : totalCounter accepted = totalCounter r.entries := by
    rw [← totalCounter_perm hp, totalCounter_map_leaf]
  have hcounter : (r.root algorithm).counter = totalCounter accepted := by
    rw [r.counter_root, hleaves]
  refine ⟨c, hc, ?_⟩
  rw [hroot]
  refine ⟨fun p hsite => ⟨Forest.counter_eq_leaves hsite, ?_⟩, ?_, hcounter, fun _ => hcounter⟩
  · rw [hf.counter_site hsite]
    exact (Forest.totalCounter_filter hp fun bits => p.key <+: bits).symm
  · rw [r.leaves_root, r.counter_root]

end Builder

end MerkleTrie
