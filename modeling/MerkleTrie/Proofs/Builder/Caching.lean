-- SUMMARY: The hashed forms that a builder keeps are those that hashing from scratch yields, and a calculation hashes only what has none.
import Mathlib.Data.List.Perm.Subperm
import MerkleTrie.Event.History
import MerkleTrie.Proofs.Builder.Links

/-! # Hashed forms kept between calculations

A slot keeps the hashed form of its branch until something changes at the branch
or under it. `Builder.Coherent` says that what is kept is right. That as little as
possible is given up is said by naming the slots that have to be hashed anew: all
of them before a calculation, none after it, and after one more leaf just those
on the way to it (`Builder.mem_stale_occupy`, `Builder.mem_stale_split`). -/

namespace MerkleTrie

variable {f : Flavour}

/-! ## Hashing from scratch -/

/-- The slots with all hashed forms given up. -/
def Builder.afresh (b : Builder f) : Sweep f := { slots := b.slots.map Slot.stale }

namespace Layout

variable {algorithm : Algorithm} {slots : Array (Slot f)} {L : Layout f}

/-- A stored layout is stored without hashed forms as well. -/
theorem Stored.afresh (h : L.Stored algorithm slots) :
    L.Stored algorithm (slots.map Slot.stale) := by
  have hroot {L : Layout f} (h : L.Stored algorithm slots) :
      (slots.map Slot.stale)[L.index]? = some ⟨L.pending, none⟩ := by
    obtain ⟨cache, hslot⟩ := h.slot
    rw [Array.getElem?_map, hslot]
    rfl
  induction L with
  | leaf => exact .inr (hroot h)
  | node index segment children ih => exact .inr ⟨hroot h, fun s => ih s (h.child s)⟩

/-- A branch with a hashed form has one in every slot under it. -/
theorem Stored.finalized (h : L.Stored algorithm slots) {branch : Branch f}
    (hcached : cachedAt slots L.index = some branch) : L.Finalized algorithm slots := by
  have hstale : slots[L.index]? ≠ some ⟨L.pending, none⟩ := by
    intro hslot
    rw [cachedAt_of_slot hslot] at hcached
    cases hcached
  cases L with
  | leaf => exact h.resolve_right hstale
  | node => exact h.resolve_right fun hn => hstale hn.1

theorem Finalized.cachedAt (h : L.Finalized algorithm slots) :
    cachedAt slots L.index = some (L.branch algorithm) :=
  cachedAt_of_slot h.slot

end Layout

namespace Builder

/-! ## Slots that have to be hashed -/

/-- The slots without a hashed form. -/
def stale (b : Builder f) : List Nat :=
  (List.range b.slots.size).filter fun j => (cachedAt b.slots j).isNone

theorem mem_stale {b : Builder f} {j : Nat} :
    j ∈ b.stale ↔ j < b.slots.size ∧ cachedAt b.slots j = none := by
  rw [stale, List.mem_filter, List.mem_range, Option.isNone_iff_eq_none]

theorem cachedAt_ne_none {b : Builder f} (h : b.stale = []) {j : Nat} (hj : j < b.slots.size) :
    cachedAt b.slots j ≠ none := by
  intro hnone
  have hmem := mem_stale.2 ⟨hj, hnone⟩
  rw [h] at hmem
  cases hmem

/-- What a builder keeps is right. -/
structure Coherent (b : Builder f) : Prop where
  /-- A hashed form is what hashing the branch from scratch yields. -/
  afresh : ∀ index branch, cachedAt b.slots index = some branch →
    ∃ s, Sweep.finalize b.algorithm b.slots.size index b.afresh = .ok (branch, s)
  /-- Under a branch with a hashed form all branches have one. -/
  below : ∀ index child, Relation.TransGen b.Parent index child →
    (cachedAt b.slots index).isSome → (cachedAt b.slots child).isSome

/-- Below a hashed layout all branches are hashed. -/
theorem exists_finalized_of_transGen {b : Builder f} {algorithm : Algorithm} {L : Layout f}
    (h : L.Finalized algorithm b.slots) {child : Nat}
    (hbelow : Relation.TransGen b.Parent L.index child) :
    ∃ M : Layout f, M.Finalized algorithm b.slots ∧ M.index = child := by
  have hstep {L : Layout f} (h : L.Finalized algorithm b.slots) {child : Nat}
      (hparent : b.Parent L.index child) :
      ∃ M : Layout f, M.Finalized algorithm b.slots ∧ M.index = child := by
    obtain ⟨s, hs⟩ := hparent
    obtain ⟨_, _, children, rfl, hchild⟩ := linked_child_of_stored h.stored hs
    exact ⟨children s, h.2 s, hchild⟩
  induction hbelow with
  | single hparent => exact hstep h hparent
  | tail _ hparent ih =>
    obtain ⟨M, hM, rfl⟩ := ih
    exact hstep hM hparent

namespace Represents

variable {b : Builder f} {r : Forest f}

/-- The slots under a branch are no more than there are. -/
theorem depth_le_size (h : b.Represents r) {p : Place f} (hp : p ∈ r.places) :
    p.layout.depth ≤ b.slots.size := by
  have hhangs := h.hangs_of_mem_places hp
  have hsub : p.layout.indices ⊆ List.range b.slots.size :=
    fun j hj => List.mem_range.2 (hhangs.stored.lt_size hj)
  have hlength := (List.subperm_of_subset hhangs.nodup hsub).length_le
  rw [List.length_range] at hlength
  exact Nat.le_trans p.layout.depth_le_length_indices hlength

/-- A slot with a hashed form is that of a place whose branches all have theirs. -/
theorem exists_place_of_cached (h : b.Represents r) {index : Nat} {branch : Branch f}
    (hcached : cachedAt b.slots index = some branch) :
    ∃ p ∈ r.places, p.index = index ∧ p.layout.Finalized b.algorithm b.slots := by
  obtain ⟨slot, hslot, -⟩ := Option.bind_eq_some_iff.1 hcached
  obtain ⟨p, hp, rfl⟩ := h.exists_place (Array.getElem?_eq_some_iff.1 hslot).1
  exact ⟨p, hp, rfl, (h.hangs_of_mem_places hp).stored.finalized hcached⟩

theorem coherent (h : b.Represents r) : b.Coherent where
  afresh := by
    intro index branch hcached
    obtain ⟨p, hp, rfl, hfinalized⟩ := h.exists_place_of_cached hcached
    have hhangs := h.hangs_of_mem_places hp
    obtain ⟨s, hs, -⟩ := Layout.Stored.finalize (s := b.afresh) hhangs.stored.afresh hhangs.nodup
      (h.depth_le_size hp)
    rw [Option.some.inj (hfinalized.cachedAt.symm.trans hcached)] at hs
    exact ⟨s, hs⟩
  below := by
    intro index child hbelow hcached
    obtain ⟨branch, hbranch⟩ := Option.isSome_iff_exists.1 hcached
    obtain ⟨p, -, rfl, hfinalized⟩ := h.exists_place_of_cached hbranch
    obtain ⟨M, hM, rfl⟩ := exists_finalized_of_transGen hfinalized hbelow
    rw [hM.cachedAt]
    rfl

/-- The places without a hashed form are in the slots without one. -/
theorem map_index_unhashed (h : b.Represents r) :
    ((r.unhashed b.slots).map Place.index).Perm b.stale := by
  have hfilter : (r.unhashed b.slots).map Place.index =
      (r.places.map Place.index).filter fun j => (cachedAt b.slots j).isNone := by
    rw [Forest.unhashed_eq, List.filter_map]
    rfl
  rw [hfilter]
  exact h.map_index_places.filter _

end Represents

end Builder

/-! ## Calculations -/

namespace Calculation.Completes

variable {c : Calculation f} {b : Builder f} {r : Forest f}

theorem finalized_of_mem_places (h : c.Completes b r) {p : Place f} (hp : p ∈ r.places) :
    p.layout.Finalized b.algorithm c.builder.slots := by
  obtain ⟨s, L, hL, hp⟩ := Forest.mem_places.1 hp
  exact (h.finalized s L hL).of_mem_places hp

/-- A calculation hashes the branches in the slots without a hashed form, each of them once, and
leaves the hashed forms there. -/
theorem rehashed_perm (h : c.Completes b r) (hb : b.Represents r) :
    c.rehashed.Perm (b.stale.filterMap (cachedAt c.builder.slots)) := by
  have hforms : (r.unhashed b.slots).map (Place.branch b.algorithm) =
      ((r.unhashed b.slots).map Place.index).filterMap (cachedAt c.builder.slots) := by
    rw [List.filterMap_map, ← List.filterMap_eq_map]
    refine List.filterMap_congr fun p hp => ?_
    rw [Forest.unhashed_eq] at hp
    exact (h.finalized_of_mem_places (List.mem_of_mem_filter hp)).cachedAt.symm
  apply h.rehashed.trans
  rw [hforms]
  exact hb.map_index_unhashed.filterMap _

theorem length_rehashed (h : c.Completes b r) (hb : b.Represents r) :
    c.rehashed.length = b.stale.length := by
  rw [h.rehashed.length_eq, List.length_map, ← hb.map_index_unhashed.length_eq, List.length_map]

/-- A slot with a hashed form is left as it is. -/
theorem slot_of_not_mem_stale (h : c.Completes b r) (hb : b.Represents r) {j : Nat}
    (hj : j ∉ b.stale) : c.builder.slots[j]? = b.slots[j]? := by
  rcases Nat.lt_or_ge j b.slots.size with hlt | hge
  · obtain ⟨p, hp, rfl⟩ := hb.exists_place hlt
    obtain ⟨branch, hcached⟩ := Option.ne_none_iff_exists'.1
      fun hnone => hj (Builder.mem_stale.2 ⟨hlt, hnone⟩)
    have hbefore := (hb.hangs_of_mem_places hp).stored.finalized hcached
    exact (h.finalized_of_mem_places hp).slot.trans hbefore.slot.symm
  · rw [Array.getElem?_eq_none hge, Array.getElem?_eq_none (h.slots_size ▸ hge)]

theorem stale_eq_nil (h : c.Completes b r) (hb : b.Represents r) : c.builder.stale = [] := by
  refine List.eq_nil_iff_forall_not_mem.2 fun j hj => ?_
  obtain ⟨hlt, hnone⟩ := Builder.mem_stale.1 hj
  rw [h.slots_size] at hlt
  obtain ⟨p, hp, rfl⟩ := hb.exists_place hlt
  rw [Place.index, (h.finalized_of_mem_places hp).cachedAt] at hnone
  cases hnone

end Calculation.Completes

/-! ## A new leaf -/

/-- The slots that a new leaf leaves without a hashed form, where there were so many slots before:
its own, which is the next one, and if it splits a branch, the slots of that branch, of the new
node, which is the one after, and of all nodes passed. -/
def Descent.disturbed (slots : Nat) (d : Descent) : List Nat :=
  match d.arrival with
  | .vacancy _ => [slots]
  | .fork index _ _ _ => d.passed.map Passage.index ++ [index, slots, slots + 1]
  | .obstructed => []
  | .throughLeaf _ => []

namespace Builder

theorem cachedAt_relink (b : Builder f) (link : Link) (index j : Nat) :
    cachedAt (b.relink link index).slots j = cachedAt b.slots j := by
  by_cases hp : link.parent? = some j
  · cases link with
    | root => cases hp
    | child parent s =>
      cases hp
      rw [cachedAt, cachedAt, slot_relink_child]
      cases b.slots[j]? <;> rfl
  · rw [cachedAt, cachedAt, slot_relink b link index j hp]

theorem cachedAt_invalidate (b : Builder f) (passed : List Passage) (j : Nat) :
    cachedAt (b.invalidate passed).slots j =
      if j ∈ passed.map Passage.index then none else cachedAt b.slots j := by
  rw [cachedAt, slot_invalidate]
  simp only [List.mem_map]
  split
  · cases b.slots[j]? <;> rfl
  · rfl

section Split

variable {b : Builder f} {index : Nat} {link : Link} {common : CommonPrefix} {rest : Path}
  {value : f.Value}

theorem cachedAt_split (h : index < b.slots.size) (j : Nat) :
    cachedAt (b.split index link common rest value).slots j =
      if j ∈ [index, b.slots.size, b.slots.size + 1] then none else cachedAt b.slots j := by
  rw [slots_split, cachedAt_relink]
  split
  · rename_i hj
    simp only [List.mem_cons, List.not_mem_nil, or_false] at hj
    rcases hj with rfl | rfl | rfl
    · rw [cachedAt, slot_sprout_shortened h]
      cases b.slots[j]? <;> rfl
    · exact cachedAt_of_slot slot_sprout_leaf
    · exact cachedAt_of_slot slot_sprout_node
  · rename_i hj
    simp only [List.mem_cons, List.not_mem_nil, or_false, not_or] at hj
    rw [cachedAt, cachedAt, slot_sprout_of_ne hj.1 hj.2.1 hj.2.2]

/-- The new slots of a split: the leaf, and then the node. -/
theorem slots_new_split {passed : List Passage}
    (hpassed : ∀ j ∈ passed.map Passage.index, j < b.slots.size)
    (hparent : ∀ j ∈ link.parent?, j < b.slots.size) :
    ((b.split index link common rest value).invalidate passed).slots[b.slots.size]? =
        some ⟨.leaf rest value, none⟩ ∧
      ∀ slot ∈ ((b.split index link common rest value).invalidate passed).slots[b.slots.size + 1]?,
        slot.branch.isLeaf = false := by
  have hframe : ∀ j, b.slots.size ≤ j →
      ((b.split index link common rest value).invalidate passed).slots[j]? =
        (b.sprout index common rest value).slots[j]? := by
    intro j hj
    have hout : ¬ ∃ p ∈ passed, p.index = j := by
      rintro ⟨p, hp, rfl⟩
      exact Nat.not_lt.2 hj (hpassed _ (List.mem_map_of_mem hp))
    rw [slot_invalidate, if_neg hout, slots_split, slot_relink]
    exact fun hp => Nat.not_lt.2 hj (hparent j hp)
  refine ⟨(hframe _ (Nat.le_refl _)).trans slot_sprout_leaf, ?_⟩
  intro slot hslot
  rw [hframe _ (Nat.le_succ _), slot_sprout_node] at hslot
  cases hslot
  cases rest.isRight <;> rfl

/-- What a split and the nodes passed on the way to it leave without a hashed form. -/
theorem mem_stale_split (h : b.stale = []) {passed : List Passage} (hindex : index < b.slots.size)
    (hpassed : ∀ j ∈ passed.map Passage.index, j < b.slots.size) {j : Nat} :
    j ∈ ((b.split index link common rest value).invalidate passed).stale ↔
      j ∈ passed.map Passage.index ++ [index, b.slots.size, b.slots.size + 1] := by
  rw [mem_stale, slots_size_invalidate, slots_size_split, cachedAt_invalidate,
    cachedAt_split hindex, List.mem_append]
  constructor
  · rintro ⟨hlt, hnone⟩
    split at hnone
    · exact .inl (by assumption)
    · split at hnone
      · exact .inr (by assumption)
      -- What is left had a hashed form before, as all slots did, and has kept it.
      · rename_i hj
        simp only [List.mem_cons, List.not_mem_nil, or_false, not_or] at hj
        exact absurd hnone (cachedAt_ne_none h (by omega))
  · rintro (hj | hj)
    · rw [if_pos hj]
      exact ⟨Nat.lt_add_right 2 (hpassed j hj), rfl⟩
    · rw [if_pos hj, ite_self]
      refine ⟨?_, rfl⟩
      simp only [List.mem_cons, List.not_mem_nil, or_false] at hj
      omega

end Split

theorem slots_occupy (b : Builder f) (s : Bool) (path : Path) (value : f.Value) :
    (b.occupy s path value).slots = b.slots.push ⟨.leaf path value, none⟩ := by
  cases s <;> rfl

/-- A leaf in an empty slot of the root leaves nothing but itself without a hashed form. -/
theorem mem_stale_occupy {b : Builder f} (h : b.stale = []) {s : Bool} {path : Path}
    {value : f.Value} {j : Nat} :
    j ∈ (b.occupy s path value).stale ↔ j = b.slots.size := by
  rw [mem_stale, slots_occupy, Array.size_push, cachedAt, Array.getElem?_push]
  constructor
  · rintro ⟨hlt, hnone⟩
    split at hnone
    · assumption
    · exact absurd hnone (cachedAt_ne_none h (by omega))
  · rintro rfl
    rw [if_pos rfl]
    exact ⟨Nat.lt_succ_self _, rfl⟩

/-- What an accepted leaf leaves without a hashed form, where all slots had one before. -/
theorem Represents.mem_stale_insert {b b' : Builder f} {r : Forest f} (h : b.Represents r)
    (hstale : b.stale = []) {path : Path} {value : f.Value} (hb : b.insert path value = .ok b') :
    ∃ d, b.descend path = .ok d ∧ (∀ j, j ∈ b'.stale ↔ j ∈ d.disturbed b.slots.size) ∧
      (∃ rest, b'.slots[b.slots.size]? = some ⟨.leaf rest value, none⟩) ∧
      ∀ slot ∈ b'.slots[b.slots.size + 1]?, slot.branch.isLeaf = false := by
  have hpath : path.isEmpty = false := by
    rw [Bool.eq_false_iff]
    intro hempty
    rw [insert_of_isEmpty hempty] at hb
    cases hb
  obtain ⟨d, hd, -, hindices⟩ := h.descend hpath
  refine ⟨d, hd, ?_⟩
  rw [insert_of_descend hpath hd] at hb
  rcases d with ⟨passed, s | _ | _ | ⟨index, link, common, rest⟩⟩
  · cases hb
    refine ⟨fun j => ?_, ⟨path, ?_⟩, ?_⟩
    · rw [mem_stale_occupy hstale, Descent.disturbed, List.mem_singleton]
    · rw [slots_occupy, Array.getElem?_push_size]
    · simp [slots_occupy]
  · cases hb
  · cases hb
  · cases hb
    simp only [Descent.indices, Arrival.indices, List.mem_append, List.mem_cons,
      Option.mem_toList] at hindices
    have hpassed : ∀ j ∈ passed.map Passage.index, j < b.slots.size :=
      fun j hj => hindices j (.inl hj)
    obtain ⟨hleaf, hnode⟩ := slots_new_split hpassed fun j hj => hindices j (.inr (.inr hj))
    exact ⟨fun j => mem_stale_split hstale (hindices index (.inr (.inl rfl))) hpassed,
      ⟨rest, hleaf⟩, hnode⟩

/-! ## Runs -/

/-- At every point of every run the hashed forms that the builder keeps are right. A calculation of
the root then hashes each branch without a hashed form once and no other, and reports their number;
it leaves no branch without a hashed form, so that a second one hashes nothing; and a leaf accepted
after it takes the hashed forms only from the nodes that its descent passed and the branch that it
split. -/
theorem run_coherent (algorithm : Algorithm) (operations : List (Operation f)) :
    let b := ({ algorithm } : Builder f).run operations
    b.Coherent ∧ ∃ c, b.calculateRoot = .ok c ∧
      c.rehashed.Perm (b.stale.filterMap (cachedAt c.builder.slots)) ∧
      c.rehashed.length = b.stale.length ∧
      c.events.getLast? =
        some (.rootCalculated b.size b.slots.size b.stale.length c.root.hash) ∧
      (∀ j ∉ b.stale, c.builder.slots[j]? = b.slots[j]?) ∧
      c.builder.stale = [] ∧
      (∃ c', c.builder.calculateRoot = .ok c' ∧ c'.rehashed = []) ∧
      ∀ path value b', c.builder.insert path value = .ok b' →
        ∃ d, c.builder.descend path = .ok d ∧
          (∀ j, j ∈ b'.stale ↔ j ∈ d.disturbed c.builder.slots.size) ∧
          (∃ rest, b'.slots[c.builder.slots.size]? = some ⟨.leaf rest value, none⟩) ∧
          ∀ slot ∈ b'.slots[c.builder.slots.size + 1]?, slot.branch.isLeaf = false := by
  intro b
  obtain ⟨r, h, -, -⟩ := run_represents (f := f) algorithm operations
  obtain ⟨c, hc, hcompletes⟩ := h.completes
  have hnext := hcompletes.represents h
  have hstale := hcompletes.stale_eq_nil h
  have hlength := hcompletes.length_rehashed h
  refine ⟨h.coherent, c, hc, hcompletes.rehashed_perm h, hlength, ?_,
    fun j hj => hcompletes.slot_of_not_mem_stale h hj, hstale, ?_, ?_⟩
  · have hsize : c.builder.size = b.size := by rw [hcompletes.builder]
    rw [Calculation.events, List.getLast?_concat, hsize, hcompletes.slots_size, hlength]
  · obtain ⟨c', hc', hcompletes'⟩ := hnext.completes
    refine ⟨c', hc', List.eq_nil_of_length_eq_zero ?_⟩
    rw [hcompletes'.length_rehashed hnext, hstale]
    rfl
  · intro path value b' hb
    exact hnext.mem_stale_insert hstale hb

end Builder

end MerkleTrie
