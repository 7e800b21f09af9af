-- SUMMARY: The branches of a layout, each with the link it hangs at, and the facts that hold of all of them.
import MerkleTrie.Proofs.Builder.Layout

/-! # Places

A place is a branch of a layout together with the link that leads to it. The list
of all places turns a layout back into a graph: its slots, its links, and how
many there are of each kind can be counted off the list. -/

namespace MerkleTrie

variable {f : Flavour}

/-- The side on which a branch hangs. -/
def Link.side : Link → Bool
  | .root s => s
  | .child _ s => s

/-- A branch of a layout and the link it hangs at. -/
structure Place (f : Flavour) where
  link : Link
  layout : Layout f

/-- The slot of the branch. -/
def Place.index (p : Place f) : Nat := p.layout.index

def Pending.isLeaf : Pending f → Bool
  | .leaf .. => true
  | .node .. => false

def Place.isLeaf (p : Place f) : Bool := p.layout.pending.isLeaf

namespace Layout

/-- All branches, each with its link and before those under it. The topmost one hangs at the given
link. -/
def places (link : Link) : Layout f → List (Place f)
  | L@(.leaf ..) => [⟨link, L⟩]
  | L@(.node index _ children) =>
    ⟨link, L⟩ :: ((children false).places (.child index false) ++
      (children true).places (.child index true))

section Members

variable {link : Link} {p : Place f} {index : Nat} {segment : List Bool}
  {children : Bool → Layout f}

theorem mem_places_node :
    p ∈ (node index segment children).places link ↔
      p = ⟨link, node index segment children⟩ ∨ ∃ s, p ∈ (children s).places (.child index s) := by
  simp [places, Bool.exists_bool]

theorem top_mem_places (L : Layout f) (link : Link) : ⟨link, L⟩ ∈ L.places link := by
  cases L <;> simp [places]

/-- With a node, both its children are among the places. -/
theorem child_mem_places {L : Layout f} {place : Link}
    (h : ⟨place, node index segment children⟩ ∈ L.places link) (s : Bool) :
    ⟨.child index s, children s⟩ ∈ L.places link := by
  induction L generalizing link with
  | leaf =>
    simp only [places, List.mem_singleton] at h
    cases h
  | node i seg below ih =>
    rw [mem_places_node] at h ⊢
    rcases h with h | ⟨t, ht⟩
    · injection h with _ hnode
      injection hnode with hindex _ hchildren
      subst hindex hchildren
      exact .inr ⟨s, top_mem_places _ _⟩
    · exact .inr ⟨t, ih t ht⟩

end Members

/-- The slots of the places are those of the layout. -/
theorem map_index_places (L : Layout f) (link : Link) :
    (L.places link).map Place.index = L.indices := by
  induction L generalizing link with
  | leaf => rfl
  | node index segment children ih =>
    simp only [places, List.map_cons, List.map_append, ih, indices]
    rfl

/-- Every branch begins with the bit of the side on which it hangs. -/
theorem Formed.of_mem_places {L : Layout f} (link : Link) (h : L.Formed link.side) {p : Place f}
    (hp : p ∈ L.places link) : p.layout.Formed p.link.side := by
  induction L generalizing link with
  | leaf =>
    rw [List.mem_singleton.1 hp]
    exact h
  | node index segment children ih =>
    rcases mem_places_node.1 hp with rfl | ⟨s, hs⟩
    · exact h
    · exact ih s (.child index s) (h.2 s) hs

/-! ## Counting -/

/-- Every node has two children, so there is one leaf more than there are nodes. -/
theorem length_indices_succ (L : Layout f) : L.indices.length + 1 = 2 * L.entries.length := by
  induction L with
  | leaf => rfl
  | node index segment children ih =>
    have hl := ih false
    have hr := ih true
    simp only [indices, entries, List.length_cons, List.length_append, List.length_map]
    omega

/-- Every leaf among the places has its entry. -/
theorem countP_isLeaf_places (L : Layout f) (link : Link) :
    (L.places link).countP Place.isLeaf = L.entries.length := by
  induction L generalizing link with
  | leaf => rfl
  | node index segment children ih =>
    have hnode : ¬ Place.isLeaf ⟨link, node index segment children⟩ = true := Bool.false_ne_true
    rw [places, List.countP_cons_of_neg hnode, List.countP_append, ih, ih, entries,
      List.length_map, List.length_append]

end Layout

end MerkleTrie
