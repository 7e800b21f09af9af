-- SUMMARY: At every point of a run the links between the slots of a builder form a forest, so descents and calculations come to an end and find every slot they look for.
import Mathlib.Data.List.Nodup
import Mathlib.Logic.Relation
import MerkleTrie.Proofs.Builder.Places
import MerkleTrie.Proofs.Builder.Run

/-! # Links

The slots of a builder are a graph whose edges are links. `Builder.WellLinked`
says that this graph is a forest under the two root slots and counts its parts.
A builder that represents a forest is well linked, because each of its slots is a
place of the forest and each place hangs at its link (`Builder.Represents.linked_iff`). -/

namespace MerkleTrie

variable {f : Flavour}

/-! ## The graph of the slots -/

namespace Builder

/-- The first slot holds a node and the second one of its children. -/
def Parent (b : Builder f) (parent child : Nat) : Prop := ∃ s, b.Linked (.child parent s) child

/-- There is a way down from a root slot. -/
def Reached (b : Builder f) (index : Nat) : Prop :=
  ∃ s top, b.rootSlot s = some top ∧ Relation.ReflTransGen b.Parent top index

/-- The number of root slots that are not empty. -/
def occupied (b : Builder f) : Nat := b.left.toList.length + b.right.toList.length

/-- The slots are a forest under the two root slots. -/
structure WellLinked (b : Builder f) : Prop where
  /-- Every link leads to a slot. -/
  lt_size : ∀ link index, b.Linked link index → index < b.slots.size
  /-- Every slot is the target of one link and of no other. -/
  unique : ∀ index < b.slots.size, ∃! link, b.Linked link index
  /-- Every slot is reached from the root. -/
  reached : ∀ index < b.slots.size, b.Reached index
  /-- Every way down comes to an end. -/
  wellFounded : WellFounded fun child parent => b.Parent parent child
  /-- Every branch has a bit, and its first one is the side on which it hangs. -/
  sided : ∀ link index slot, b.Linked link index → b.slots[index]? = some slot →
    slot.branch.path.isEmpty = false ∧ slot.branch.path.isRight = link.side
  /-- The leaves are counted. -/
  leaves : b.slots.countP (·.branch.isLeaf) = b.size
  /-- On every side that is not empty there is one leaf more than there are nodes. -/
  slots_size : b.slots.size + b.occupied = 2 * b.size

/-- All branches of a layout that hangs at a link hang at their links. -/
theorem Hangs.of_mem_places {b : Builder f} {link : Link} {L : Layout f} (h : b.Hangs link L)
    {p : Place f} (hp : p ∈ L.places link) : b.Hangs p.link p.layout := by
  induction L generalizing link with
  | leaf =>
    rw [List.mem_singleton.1 hp]
    exact h
  | node index segment children ih =>
    rcases Layout.mem_places_node.1 hp with rfl | ⟨s, hs⟩
    · exact h
    · exact ih s (h.child s) hs

/-- There is a way down to all branches of a layout that hangs at a link. -/
theorem Hangs.reflTransGen_of_mem_places {b : Builder f} {link : Link} {L : Layout f}
    (h : b.Hangs link L) {p : Place f} (hp : p ∈ L.places link) :
    Relation.ReflTransGen b.Parent L.index p.index := by
  induction L generalizing link with
  | leaf =>
    rw [List.mem_singleton.1 hp]
    exact .refl
  | node index segment children ih =>
    rcases Layout.mem_places_node.1 hp with rfl | ⟨s, hs⟩
    · exact .refl
    · exact .head ⟨s, (h.child s).linked⟩ (ih s (h.child s) hs)

/-- A node in a slot has the children of the layout that the slot stands for. -/
theorem linked_child_of_stored {b : Builder f} {algorithm : Algorithm} {L : Layout f}
    (h : L.Stored algorithm b.slots) {s : Bool} {index : Nat}
    (hl : b.Linked (.child L.index s) index) :
    ∃ i segment children, L = .node i segment children ∧ (children s).index = index := by
  obtain ⟨path, below, cache, hslot, rfl⟩ := hl
  obtain ⟨cache', hslot'⟩ := h.slot
  rw [hslot'] at hslot
  have hpending := congrArg Slot.branch (Option.some.inj hslot)
  cases L with
  | leaf => cases hpending
  | node i segment children =>
    refine ⟨i, segment, children, rfl, ?_⟩
    injection hpending with _ hleft hright
    cases s with
    | false => exact hleft
    | true => exact hright

/-- Below a stored layout every way down comes to an end. -/
theorem acc_of_stored {b : Builder f} {algorithm : Algorithm} {L : Layout f}
    (h : L.Stored algorithm b.slots) : Acc (fun child parent => b.Parent parent child) L.index := by
  induction L with
  | leaf =>
    refine Acc.intro _ fun child hchild => ?_
    obtain ⟨s, hs⟩ := hchild
    obtain ⟨_, _, _, hnode, -⟩ := linked_child_of_stored h hs
    cases hnode
  | node index segment children ih =>
    refine Acc.intro _ fun child hchild => ?_
    obtain ⟨s, hs⟩ := hchild
    obtain ⟨_, _, _, hnode, rfl⟩ := linked_child_of_stored h hs
    cases hnode
    exact ih s (h.child s)

/-! ## Builders that represent a forest -/

namespace Represents

variable {b : Builder f} {r : Forest f}

theorem hangs_of_mem_places (h : b.Represents r) {p : Place f} (hp : p ∈ r.places) :
    b.Hangs p.link p.layout := by
  obtain ⟨s, L, hL, hp⟩ := Forest.mem_places.1 hp
  exact (h.hangs hL).of_mem_places hp

theorem formed_of_mem_places (h : b.Represents r) {p : Place f} (hp : p ∈ r.places) :
    p.layout.Formed p.link.side := by
  obtain ⟨s, L, hL, hp⟩ := Forest.mem_places.1 hp
  exact Layout.Formed.of_mem_places (.root s) (h.formed s L hL) hp

/-- The places of the forest take up the slots of the builder, each one once. -/
theorem map_index_places (h : b.Represents r) :
    (r.places.map Place.index).Perm (List.range b.slots.size) := by
  rw [r.map_index_places]
  exact h.indices

/-- Every slot is that of a place. -/
theorem exists_place (h : b.Represents r) {index : Nat} (hindex : index < b.slots.size) :
    ∃ p ∈ r.places, p.index = index :=
  List.mem_map.1 (h.map_index_places.mem_iff.2 (List.mem_range.2 hindex))

theorem index_lt_size (h : b.Represents r) {p : Place f} (hp : p ∈ r.places) :
    p.index < b.slots.size :=
  List.mem_range.1 (h.map_index_places.mem_iff.1 (List.mem_map_of_mem hp))

/-- Two places are not in the same slot. -/
theorem place_inj (h : b.Represents r) {p q : Place f} (hp : p ∈ r.places) (hq : q ∈ r.places)
    (heq : p.index = q.index) : p = q :=
  List.inj_on_of_nodup_map (h.map_index_places.nodup_iff.2 List.nodup_range) hp hq heq

/-- The links of the builder are those of the forest. -/
theorem linked_iff (h : b.Represents r) {link : Link} {index : Nat} :
    b.Linked link index ↔ ∃ L : Layout f, ⟨link, L⟩ ∈ r.places ∧ L.index = index := by
  constructor
  · intro hl
    cases link with
    | root s =>
      have hroot : (r s).map Layout.index = some index := (h.rootSlot s).symm.trans hl
      obtain ⟨L, hL, rfl⟩ := Option.map_eq_some_iff.1 hroot
      exact ⟨L, Forest.mem_places.2 ⟨s, L, hL, L.top_mem_places _⟩, rfl⟩
    | child parent s =>
      have hparent : parent < b.slots.size := by
        obtain ⟨path, below, cache, hslot, -⟩ := hl
        exact (Array.getElem?_eq_some_iff.1 hslot).1
      obtain ⟨⟨place, M⟩, hM, rfl⟩ := h.exists_place hparent
      obtain ⟨i, segment, children, rfl, hindex⟩ :=
        linked_child_of_stored (h.hangs_of_mem_places hM).stored hl
      exact ⟨children s, Forest.child_mem_places hM s, hindex⟩
  · rintro ⟨L, hL, rfl⟩
    exact (h.hangs_of_mem_places hL).linked

/-- Every place is reached from the root. -/
theorem reached_of_mem_places (h : b.Represents r) {p : Place f} (hp : p ∈ r.places) :
    b.Reached p.index := by
  obtain ⟨s, L, hL, hp⟩ := Forest.mem_places.1 hp
  have hdown := (h.hangs hL).reflTransGen_of_mem_places hp
  exact ⟨s, L.index, by rw [h.rootSlot, hL]; rfl, hdown⟩

/-- What a slot of a place holds. -/
theorem branch_of_mem_places (h : b.Represents r) {p : Place f} (hp : p ∈ r.places) {slot : Slot f}
    (hslot : b.slots[p.index]? = some slot) : slot.branch = p.layout.pending := by
  obtain ⟨cache, hstored⟩ := (h.hangs_of_mem_places hp).stored.slot
  rw [Option.some.inj (hslot.symm.trans hstored)]

theorem countP_isLeaf_slots (h : b.Represents r) :
    b.slots.countP (·.branch.isLeaf) = b.size := by
  have hrange : (List.range b.slots.size).map (b.slots[·]?) = b.slots.toList.map some := by
    refine List.ext_getElem (by simp) ?_
    intro j _ _
    simp
  have hplace : ∀ p ∈ r.places, (b.slots[p.index]?.any (·.branch.isLeaf)) = p.isLeaf := by
    intro p hp
    obtain ⟨cache, hslot⟩ := (h.hangs_of_mem_places hp).stored.slot
    rw [Place.index, hslot]
    rfl
  calc b.slots.countP (·.branch.isLeaf)
    _ = (b.slots.toList.map some).countP (Option.any (·.branch.isLeaf)) := by
      rw [List.countP_map, ← Array.countP_toList]
      rfl
    _ = (r.places.map Place.index).countP fun j => b.slots[j]?.any (·.branch.isLeaf) := by
      rw [← hrange, List.countP_map]
      exact (h.map_index_places.countP_eq _).symm
    _ = r.places.countP Place.isLeaf := by
      rw [List.countP_map]
      exact List.countP_congr fun p hp => by rw [Function.comp_apply, hplace p hp]
    _ = b.size := by rw [r.countP_isLeaf_places, h.size]

/-- The slots of a builder that represents a forest are a forest themselves. -/
theorem wellLinked (h : b.Represents r) : b.WellLinked where
  lt_size := by
    intro link index hl
    obtain ⟨L, hL, rfl⟩ := h.linked_iff.1 hl
    exact h.index_lt_size hL
  unique := by
    intro index hindex
    obtain ⟨p, hp, rfl⟩ := h.exists_place hindex
    refine ⟨p.link, (h.hangs_of_mem_places hp).linked, ?_⟩
    intro link hl
    obtain ⟨L, hL, hindex⟩ := h.linked_iff.1 hl
    rw [← h.place_inj hL hp hindex]
  reached := by
    intro index hindex
    obtain ⟨p, hp, rfl⟩ := h.exists_place hindex
    exact h.reached_of_mem_places hp
  wellFounded := by
    refine ⟨fun index => ?_⟩
    by_cases hindex : index < b.slots.size
    · obtain ⟨p, hp, rfl⟩ := h.exists_place hindex
      exact acc_of_stored (h.hangs_of_mem_places hp).stored
    -- Beyond the slots there are no nodes, and so no children.
    · refine Acc.intro _ fun child hchild => ?_
      obtain ⟨s, path, below, cache, hslot, -⟩ := hchild
      exact absurd (Array.getElem?_eq_some_iff.1 hslot).1 hindex
  sided := by
    intro link index slot hl hslot
    obtain ⟨L, hL, rfl⟩ := h.linked_iff.1 hl
    have hbranch := h.branch_of_mem_places hL hslot
    obtain ⟨tail, htail⟩ := List.head?_eq_some_iff.1 (h.formed_of_mem_places hL).head_segment
    rw [hbranch, Layout.path_pending, htail, Path.isEmpty_ofBits, Path.isRight_cons]
    exact ⟨rfl, rfl⟩
  leaves := h.countP_isLeaf_slots
  slots_size := by
    have hleft : b.left = (r false).map Layout.index := h.rootSlot false
    have hright : b.right = (r true).map Layout.index := h.rootSlot true
    have hlength := h.indices.length_eq
    have hcount := r.length_indices
    rw [List.length_range] at hlength
    rw [occupied, hleft, hright, h.size, ← hcount, hlength]
    simp only [Option.toList_map, List.length_map]

end Represents

end Builder

/-! ## Descents -/

/-- The slots that an arrival names: the branch to be split, and the node it hangs at. -/
def Arrival.indices : Arrival → List Nat
  | .fork index link _ _ => index :: link.parent?.toList
  | _ => []

/-- The slots that a descent passes and those that its arrival names. -/
def Descent.indices (d : Descent) : List Nat := d.passed.map Passage.index ++ d.arrival.indices

namespace Layout.Arrives

variable {L : Layout f} {link : Link} {bits : List Bool} {d : Descent}

/-- A descent keeps to the slots of its layout and to the link by which it came there. -/
theorem mem_indices (h : L.Arrives link bits d) {j : Nat} (hj : j ∈ d.indices) :
    j ∈ L.indices ∨ link.parent? = some j := by
  induction h with
  | obstructed => cases hj
  | throughLeaf => cases hj
  | fork =>
    rcases List.mem_cons.1 hj with rfl | hj
    · exact .inl (index_mem_indices _)
    · exact .inr (Option.mem_toList.1 hj)
  | pass _ ih =>
    refine .inl (mem_indices_node.2 ?_)
    rcases List.mem_cons.1 hj with rfl | hj
    · exact .inl rfl
    · rcases ih hj with hj | hj
      · exact .inr ⟨_, hj⟩
      · exact .inl (Option.some.inj hj).symm

/-- Every node takes a bit at least off the path, and the last bit is not taken. -/
theorem length_passed_lt (h : L.Arrives link bits d) {side : Bool} (hf : L.Formed side)
    (hne : bits ≠ []) : d.passed.length < bits.length := by
  induction h generalizing side with
  | obstructed => exact List.length_pos_iff.2 hne
  | throughLeaf => exact List.length_pos_iff.2 hne
  | fork => exact List.length_pos_iff.2 hne
  | @pass index segment rest children link s d _ ih =>
    have hinner := ih (hf.2 s) (List.cons_ne_nil s rest)
    have hsegment : segment ≠ [] := by
      rintro rfl
      cases hf.1
    have hpos := List.length_pos_iff.2 hsegment
    simp only [Descent.after, List.length_cons, List.length_append] at hinner ⊢
    omega

end Layout.Arrives

/-! ## Runs -/

namespace Builder

/-- The descent of a path with key bits arrives, after less passages than there are bits, and all
slots it meets are there. -/
theorem Represents.descend {b : Builder f} {r : Forest f} (h : b.Represents r) {path : Path}
    (hpath : path.isEmpty = false) :
    ∃ d, b.descend path = .ok d ∧ d.passed.length < path.length ∧
      ∀ j ∈ d.indices, j < b.slots.size := by
  rw [Path.isEmpty_eq, List.isEmpty_eq_false_iff] at hpath
  obtain ⟨s, rest, hbits⟩ := List.exists_cons_of_ne_nil hpath
  obtain rfl := Path.eq_ofBits_of_bits_cons hbits
  rw [Builder.descend, Path.isRight_cons, h.rootSlot, Path.length_ofBits]
  cases hr : r s with
  | none =>
    refine ⟨⟨[], .vacancy s⟩, rfl, Nat.succ_pos _, ?_⟩
    intro j hj
    cases hj
  | some L =>
    obtain ⟨d, hd, harrives⟩ :=
      (h.stored s L hr).descendFrom (h.formed s L hr) (.root s) (s :: rest)
    refine ⟨d, hd, harrives.length_passed_lt (h.formed s L hr) (List.cons_ne_nil s rest), ?_⟩
    intro j hj
    rcases harrives.mem_indices hj with hj | hj
    · exact (h.stored s L hr).lt_size hj
    · cases hj

/-- At every point of every run the slots are a forest under the root. So the descent of any path
with key bits comes to its end, a new leaf is never refused over a link that leads nowhere or round
in a circle, and the root can be calculated. -/
theorem run_wellLinked (algorithm : Algorithm) (operations : List (Operation f)) :
    let b := ({ algorithm } : Builder f).run operations
    b.WellLinked ∧
      (∀ path : Path, path.isEmpty = false → ∃ d, b.descend path = .ok d ∧
        d.passed.length < path.length ∧ ∀ j ∈ d.indices, j < b.slots.size) ∧
      (∀ path value index, b.insert path value ≠ .error (.brokenLink index)) ∧
      ∃ c, b.calculateRoot = .ok c := by
  intro b
  obtain ⟨r, h, -, -⟩ := run_represents (f := f) algorithm operations
  refine ⟨h.wellLinked, fun path hpath => h.descend hpath, ?_, ?_⟩
  · intro path value index hbroken
    cases hpath : path.isEmpty with
    | true =>
      rw [insert_of_isEmpty hpath] at hbroken
      cases hbroken
    | false =>
      obtain ⟨d, hd, -⟩ := h.descend hpath
      rw [insert_of_descend hpath hd] at hbroken
      rcases d with ⟨passed, _ | _ | _ | _⟩ <;> cases hbroken
  · obtain ⟨c, hc, -⟩ := h.calculateRoot
    exact ⟨c, hc⟩

end Builder

end MerkleTrie
