-- SUMMARY: Tries laid out over the slots of a builder: their entries, shape and hashed form, and when a builder stores one.
import MerkleTrie.Builder.Basic
import MerkleTrie.Proofs.Ledger

/-! # Layouts

A layout is a trie in which every branch is labelled with the slot that holds
it. The slots of a builder are a graph; a layout is the tree that can be read off
from one of them. Whether a builder stores a layout depends on the slots of the
layout only (`Stored.congr`), so a change elsewhere does not touch it. -/

namespace MerkleTrie

variable {f : Flavour}

/-- A trie whose branches are labelled with slots. -/
inductive Layout (f : Flavour) where
  /-- A leaf, with its slot, the bits from its parent, and its value. -/
  | leaf (index : Nat) (segment : List Bool) (value : f.Value)
  /-- A node, with its slot, the bits from its parent, and its child on each side. -/
  | node (index : Nat) (segment : List Bool) (children : Bool → Layout f)

namespace Layout

/-! ## Views -/

/-- The slot of the topmost branch. -/
def index : Layout f → Nat
  | .leaf index _ _ => index
  | .node index _ _ => index

@[simp] theorem index_leaf (index : Nat) (segment : List Bool) (value : f.Value) :
    (leaf index segment value).index = index := rfl

@[simp] theorem index_node (index : Nat) (segment : List Bool) (children : Bool → Layout f) :
    (node index segment children).index = index := rfl

/-- The slot of the child on a side, picked from the slots of both. -/
theorem index_ite (children : Bool → Layout f) (s : Bool) :
    (if s then (children true).index else (children false).index) = (children s).index := by
  cases s <;> rfl

/-- The bits from the parent to the topmost branch. -/
def segment : Layout f → List Bool
  | .leaf _ segment _ => segment
  | .node _ segment _ => segment

/-- The layout with the bits of its topmost branch replaced. -/
def withSegment (segment : List Bool) : Layout f → Layout f
  | .leaf index _ value => .leaf index segment value
  | .node index _ children => .node index segment children

/-- The slots of all branches, each branch before its children. -/
def indices : Layout f → List Nat
  | .leaf index _ _ => [index]
  | .node index _ children => index :: ((children false).indices ++ (children true).indices)

/-- The keys under the layout, from its parent on, with their values. -/
def entries : Layout f → Ledger f
  | .leaf _ segment value => [(segment, value)]
  | .node _ segment children =>
    ((children false).entries ++ (children true).entries).map (Entry.under segment)

/-- What the slot of the topmost branch holds. -/
def pending : Layout f → Pending f
  | .leaf _ segment value => .leaf (.ofBits segment) value
  | .node _ segment children =>
    .node (.ofBits segment) (children false).index (children true).index

@[simp] theorem path_pending (L : Layout f) : L.pending.path = .ofBits L.segment := by
  cases L <;> rfl

/-- The hashed form of the layout. -/
def branch (algorithm : Algorithm) : Layout f → Branch f
  | .leaf _ segment value => .ofLeaf algorithm (.ofBits segment) value
  | .node _ segment children =>
    .ofNode algorithm (.ofBits segment) ((children false).branch algorithm)
      ((children true).branch algorithm)

/-- The number of branches on the longest way down. -/
def depth : Layout f → Nat
  | .leaf .. => 1
  | .node _ _ children => max (children false).depth (children true).depth + 1

theorem depth_pos (L : Layout f) : 0 < L.depth := by
  cases L with
  | leaf => exact Nat.one_pos
  | node => exact Nat.succ_pos _

theorem depth_child_le {index fuel : Nat} {segment : List Bool} {children : Bool → Layout f}
    (h : (node index segment children).depth ≤ fuel + 1) (s : Bool) :
    (children s).depth ≤ fuel := by
  have hmax := Nat.le_of_succ_le_succ h
  cases s with
  | false => exact Nat.le_trans (Nat.le_max_left ..) hmax
  | true => exact Nat.le_trans (Nat.le_max_right ..) hmax

/-! ## Shape -/

/-- The bits of every branch begin with the side on which it hangs. -/
def Formed : Bool → Layout f → Prop
  | side, .leaf _ segment _ => segment.head? = some side
  | side, .node _ segment children =>
    segment.head? = some side ∧ ∀ s, (children s).Formed s

theorem Formed.head_segment {side : Bool} {L : Layout f} (h : L.Formed side) :
    L.segment.head? = some side := by
  cases L with
  | leaf => exact h
  | node => exact h.1

theorem Formed.segment_ne_nil {side : Bool} {L : Layout f} (h : L.Formed side) :
    L.segment ≠ [] := by
  obtain ⟨tail, htail⟩ := List.head?_eq_some_iff.1 h.head_segment
  rw [htail]
  exact List.cons_ne_nil side tail

theorem Formed.withSegment {side s : Bool} {L : Layout f} (h : L.Formed side)
    (tail : List Bool) : (L.withSegment (s :: tail)).Formed s := by
  cases L with
  | leaf => rfl
  | node => exact ⟨rfl, h.2⟩

@[simp] theorem index_withSegment (segment : List Bool) (L : Layout f) :
    (L.withSegment segment).index = L.index := by
  cases L <;> rfl

@[simp] theorem indices_withSegment (segment : List Bool) (L : Layout f) :
    (L.withSegment segment).indices = L.indices := by
  cases L <;> rfl

theorem index_mem_indices (L : Layout f) : L.index ∈ L.indices := by
  cases L <;> simp [indices]

/-! ## Slots -/

theorem mem_indices_node {index j : Nat} {segment : List Bool} {children : Bool → Layout f} :
    j ∈ (node index segment children).indices ↔ j = index ∨ ∃ s, j ∈ (children s).indices := by
  simp [indices, Bool.exists_bool]

/-- The slots of a node, with those under one side put first. -/
theorem indices_node_perm (index : Nat) (segment : List Bool) (children : Bool → Layout f)
    (s : Bool) :
    (node index segment children).indices.Perm
      (index :: ((children s).indices ++ (children (!s)).indices)) := by
  cases s with
  | false => exact List.Perm.refl _
  | true => exact List.Perm.cons index List.perm_append_comm

theorem nodup_child {index : Nat} {segment : List Bool} {children : Bool → Layout f}
    (h : (node index segment children).indices.Nodup) (s : Bool) :
    (children s).indices.Nodup ∧ index ∉ (children s).indices ∧
      ∀ j ∈ (children s).indices, j ∉ (children (!s)).indices := by
  have hp := (indices_node_perm index segment children s).nodup_iff.1 h
  obtain ⟨hi, hn⟩ := List.nodup_cons.1 hp
  obtain ⟨hs, -, hd⟩ := List.nodup_append.1 hn
  refine ⟨hs, fun hm => hi (List.mem_append_left _ hm), ?_⟩
  intro j hj hj'
  exact hd j hj j hj' rfl

theorem depth_le_length_indices (L : Layout f) : L.depth ≤ L.indices.length := by
  induction L with
  | leaf => exact Nat.le_refl 1
  | node index segment children ih =>
    have hl := ih false
    have hr := ih true
    simp only [depth, indices, List.length_cons, List.length_append]
    omega

/-! ## Entries -/

theorem mem_entries_node {index : Nat} {segment : List Bool} {children : Bool → Layout f}
    {e : Entry f} :
    e ∈ (node index segment children).entries ↔
      ∃ s, ∃ e' ∈ (children s).entries, e'.under segment = e := by
  simp [entries, Bool.exists_bool]

/-- The entries of a node, with those under one side put first. -/
theorem entries_node_perm (index : Nat) (segment : List Bool) (children : Bool → Layout f)
    (s : Bool) :
    (node index segment children).entries.Perm
      (((children s).entries ++ (children (!s)).entries).map (Entry.under segment)) := by
  cases s with
  | false => exact List.Perm.refl _
  | true => exact List.Perm.map _ List.perm_append_comm

theorem entries_ne_nil (L : Layout f) : L.entries ≠ [] := by
  induction L with
  | leaf => simp [entries]
  | node index segment children ih => simp [entries, ih]

theorem segment_prefix_key {L : Layout f} {e : Entry f} (h : e ∈ L.entries) :
    L.segment <+: e.1 := by
  cases L with
  | leaf index segment value =>
    simp only [entries, List.mem_singleton] at h
    subst h
    exact List.prefix_refl segment
  | node index segment children =>
    obtain ⟨s, e', -, rfl⟩ := mem_entries_node.1 h
    exact List.prefix_append segment e'.1

theorem Formed.head_key {side : Bool} {L : Layout f} (hf : L.Formed side) {e : Entry f}
    (h : e ∈ L.entries) : e.1.head? = some side := by
  obtain ⟨tail, htail⟩ := segment_prefix_key h
  have hseg := hf.head_segment
  rw [← htail, List.head?_append, hseg]
  rfl

theorem entries_withSegment {L : Layout f} {common segment : List Bool}
    (h : L.segment = common ++ segment) :
    (L.withSegment segment).entries.map (Entry.under common) = L.entries := by
  cases L with
  | leaf index seg value =>
    simp only [Layout.segment] at h
    subst h
    rfl
  | node index seg children =>
    simp only [Layout.segment] at h
    subst h
    simp only [withSegment, entries, List.map_map]
    congr 1
    funext e
    simp [Entry.under_append]

theorem Formed.prefixFree {side : Bool} {L : Layout f} (h : L.Formed side) :
    L.entries.PrefixFree := by
  induction L generalizing side with
  | leaf index segment value => exact List.pairwise_singleton _ _
  | node index segment children ih =>
    apply Ledger.PrefixFree.map_under
    apply (ih false (h.2 false)).append (ih true (h.2 true))
    intro e he e' he'
    exact Apart.of_head_ne ((h.2 false).head_key he) ((h.2 true).head_key he') (by decide)

/-! ## Storage -/

/-- The slots hold the layout, and each caches the hashed form of its branch. -/
def Finalized (algorithm : Algorithm) (slots : Array (Slot f)) : Layout f → Prop
  | L@(.leaf index _ _) => slots[index]? = some ⟨L.pending, some (L.branch algorithm)⟩
  | L@(.node index _ children) =>
    slots[index]? = some ⟨L.pending, some (L.branch algorithm)⟩ ∧
      ∀ s, (children s).Finalized algorithm slots

/-- The slots hold the layout. A slot that caches a hashed form has the right one, and so has
every slot under it. -/
def Stored (algorithm : Algorithm) (slots : Array (Slot f)) : Layout f → Prop
  | L@(.leaf index _ _) =>
    L.Finalized algorithm slots ∨ slots[index]? = some ⟨L.pending, none⟩
  | L@(.node index _ children) =>
    L.Finalized algorithm slots ∨
      slots[index]? = some ⟨L.pending, none⟩ ∧ ∀ s, (children s).Stored algorithm slots

variable {algorithm : Algorithm} {slots slots' : Array (Slot f)}

theorem Finalized.slot {L : Layout f} (h : L.Finalized algorithm slots) :
    slots[L.index]? = some ⟨L.pending, some (L.branch algorithm)⟩ := by
  cases L with
  | leaf => exact h
  | node => exact h.1

theorem Finalized.stored {L : Layout f} (h : L.Finalized algorithm slots) :
    L.Stored algorithm slots := by
  cases L with
  | leaf => exact .inl h
  | node => exact .inl h

theorem Stored.slot {L : Layout f} (h : L.Stored algorithm slots) :
    ∃ cache, slots[L.index]? = some ⟨L.pending, cache⟩ := by
  cases L with
  | leaf =>
    rcases h with h | h
    · exact ⟨_, h⟩
    · exact ⟨none, h⟩
  | node =>
    rcases h with h | h
    · exact ⟨_, h.slot⟩
    · exact ⟨none, h.1⟩

theorem Stored.child {index : Nat} {segment : List Bool} {children : Bool → Layout f}
    (h : (node index segment children).Stored algorithm slots) (s : Bool) :
    (children s).Stored algorithm slots := by
  rcases h with h | h
  · exact (h.2 s).stored
  · exact h.2 s

theorem Finalized.congr {L : Layout f} (h : L.Finalized algorithm slots)
    (hs : ∀ j ∈ L.indices, slots'[j]? = slots[j]?) : L.Finalized algorithm slots' := by
  induction L with
  | leaf index segment value => exact (hs index (by simp [indices])).trans h
  | node index segment children ih =>
    refine ⟨(hs index (mem_indices_node.2 (.inl rfl))).trans h.1, ?_⟩
    intro s
    exact ih s (h.2 s) (fun j hj => hs j (mem_indices_node.2 (.inr ⟨s, hj⟩)))

/-- Whether slots hold a layout depends on the slots of the layout only. -/
theorem Stored.congr {L : Layout f} (h : L.Stored algorithm slots)
    (hs : ∀ j ∈ L.indices, slots'[j]? = slots[j]?) : L.Stored algorithm slots' := by
  induction L with
  | leaf index segment value =>
    rcases h with h | h
    · exact .inl (h.congr hs)
    · exact .inr ((hs index (by simp [indices])).trans h)
  | node index segment children ih =>
    rcases h with h | ⟨h, hc⟩
    · exact .inl (h.congr hs)
    · refine .inr ⟨(hs index (mem_indices_node.2 (.inl rfl))).trans h, ?_⟩
      intro s
      exact ih s (hc s) (fun j hj => hs j (mem_indices_node.2 (.inr ⟨s, hj⟩)))

end Layout

end MerkleTrie
