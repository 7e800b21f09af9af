-- SUMMARY: The map from keys to values that a builder holds in its slots, and that adding a leaf is insertion into that map.
import MerkleTrie.Proofs.Builder.Run

/-! # Insertion into the map of leaves

The leaves of a builder are read straight off its slots: from each root slot
down, with the bits on the way put together. What a builder does to a new leaf
is what `Ledger.insert` does to that map. -/

namespace MerkleTrie

variable {f : Flavour}

namespace Builder

/-! ## The map of leaves -/

/-- The leaves at and under a slot, on ways down of at most `fuel` branches. -/
def leavesBelow (b : Builder f) : Nat → Nat → Ledger f
  | 0, _ => []
  | fuel + 1, index =>
    match b.slots[index]? with
    | none => []
    | some slot =>
      match slot.branch with
      | .leaf path value => [(path.bits, value)]
      | .node path left right =>
        (b.leavesBelow fuel left ++ b.leavesBelow fuel right).map (Entry.under path.bits)

/-- All leaves, each with its whole key. No way down is longer than there are slots. -/
def leaves (b : Builder f) : Ledger f :=
  (b.rootSlot false).elim [] (b.leavesBelow b.slots.size) ++
    (b.rootSlot true).elim [] (b.leavesBelow b.slots.size)

theorem leavesBelow_of_stored {b : Builder f} {algorithm : Algorithm} {L : Layout f}
    (h : L.Stored algorithm b.slots) {fuel : Nat} (hfuel : L.depth ≤ fuel) :
    b.leavesBelow fuel L.index = L.entries := by
  induction L generalizing fuel with
  | leaf index segment value =>
    obtain ⟨fuel, rfl⟩ := Nat.exists_eq_add_one.2 (Nat.lt_of_lt_of_le (Layout.depth_pos _) hfuel)
    obtain ⟨cache, hslot⟩ := h.slot
    rw [leavesBelow, hslot]
    simp only [Layout.pending, Path.bits_ofBits, Layout.entries]
  | node index segment children ih =>
    obtain ⟨fuel, rfl⟩ := Nat.exists_eq_add_one.2 (Nat.lt_of_lt_of_le (Layout.depth_pos _) hfuel)
    have hl := ih false (h.child false) (Layout.depth_child_le hfuel false)
    have hr := ih true (h.child true) (Layout.depth_child_le hfuel true)
    obtain ⟨cache, hslot⟩ := h.slot
    rw [leavesBelow, hslot]
    simp only [Layout.pending, Path.bits_ofBits, Layout.entries, hl, hr]

/-- The leaves of a builder are the keys of the forest it represents. -/
theorem Represents.leaves_eq {b : Builder f} {r : Forest f} (h : b.Represents r) :
    b.leaves = r.entries := by
  have hside : ∀ s, (b.rootSlot s).elim [] (b.leavesBelow b.slots.size) = r.entriesOn s := by
    intro s
    rw [h.rootSlot]
    cases hL : r s with
    | none =>
      unfold Forest.entriesOn
      rw [hL]
      rfl
    | some L =>
      rw [Forest.entriesOn_of_some hL]
      apply leavesBelow_of_stored (h.stored s L hL)
      apply Nat.le_trans L.depth_le_length_indices
      rw [← Forest.indicesOn_of_some hL]
      exact h.length_indicesOn_le s
  unfold leaves
  rw [hside, hside]
  rfl

/-! ## Refinement -/

/-- At every point of every run, no key of the builder is a prefix of another, the builder counts
its leaves, and it refuses or adds a new leaf as the map of its leaves does. The builder that comes
back with a refusal is the one before it, with its slots, their hashed forms, its root slots and its
count; that which comes back with an added leaf has all other leaves as they were. -/
theorem insert_refines (algorithm : Algorithm) (operations : List (Operation f)) :
    let b := ({ algorithm } : Builder f).run operations
    b.leaves.PrefixFree ∧ b.size = b.leaves.length ∧ ∀ path value,
      match b.leaves.insert path value with
      | .error e => (add path value).run b = .error e b
      | .ok m => ∃ b', (add path value).run b = .ok () b' ∧ b'.leaves.Perm m := by
  intro b
  obtain ⟨r, h, -, -⟩ := run_represents (f := f) algorithm operations
  have hleaves : b.leaves = r.entries := h.leaves_eq
  rw [hleaves]
  refine ⟨h.formed.prefixFree, h.size, ?_⟩
  intro path value
  have hstep := h.insert path value
  cases hm : r.entries.insert path value with
  | error e =>
    rw [hm] at hstep
    rw [run_add, hstep]
  | ok m =>
    rw [hm] at hstep
    obtain ⟨b', r', hb, hr', hp, -⟩ := hstep
    refine ⟨b', ?_, hr'.leaves_eq ▸ hp⟩
    rw [run_add, hb]

end Builder

end MerkleTrie
