-- SUMMARY: What hashing a stored layout yields: the hashed form of the layout, left in every slot of it, by hashing those branches that had none.
import MerkleTrie.Builder.Calculate
import MerkleTrie.Proofs.Builder.Places

/-! # Hashing a layout

A slot with a hashed form is not visited again, so what is returned for it was
put there by an earlier calculation. That it is still right is what `Stored`
says; `Stored.finalize` is the converse half, that hashing restores it. The
branches hashed are those whose slots had no hashed form, each of them once. -/

namespace MerkleTrie

variable {f : Flavour} {algorithm : Algorithm} {fuel : Nat} {s : Sweep f}

/-! ## Slots without a hashed form -/

/-- The hashed form that a slot keeps. -/
def cachedAt (slots : Array (Slot f)) (index : Nat) : Option (Branch f) :=
  slots[index]?.bind Slot.finalized

theorem cachedAt_of_slot {slots : Array (Slot f)} {index : Nat} {slot : Slot f}
    (h : slots[index]? = some slot) : cachedAt slots index = slot.finalized := by
  rw [cachedAt, h]
  rfl

namespace Layout

/-- The places of a layout whose slots keep no hashed form. -/
def unhashed (slots : Array (Slot f)) (link : Link) (L : Layout f) : List (Place f) :=
  (L.places link).filter fun p => (cachedAt slots p.index).isNone

variable {slots slots' : Array (Slot f)} {link : Link}

theorem unhashed_congr {L : Layout f} (h : ∀ j ∈ L.indices, slots'[j]? = slots[j]?) :
    L.unhashed slots' link = L.unhashed slots link := by
  refine List.filter_congr fun p hp => ?_
  rw [cachedAt, cachedAt, h p.index]
  exact L.map_index_places link ▸ List.mem_map_of_mem hp

theorem Finalized.of_mem_places {L : Layout f} (h : L.Finalized algorithm slots) {p : Place f}
    (hp : p ∈ L.places link) : p.layout.Finalized algorithm slots := by
  induction L generalizing link with
  | leaf =>
    rw [List.mem_singleton.1 hp]
    exact h
  | node index segment children ih =>
    rcases mem_places_node.1 hp with rfl | ⟨s, hs⟩
    · exact h
    · exact ih s (h.2 s) hs

theorem Finalized.unhashed {L : Layout f} (h : L.Finalized algorithm slots) :
    L.unhashed slots link = [] := by
  refine List.filter_eq_nil_iff.2 fun p hp => ?_
  rw [Place.index, cachedAt_of_slot (h.of_mem_places hp).slot]
  exact Bool.false_ne_true

theorem unhashed_leaf {index : Nat} {segment : List Bool} {value : f.Value}
    (h : cachedAt slots index = none) :
    (leaf index segment value).unhashed slots link = [⟨link, leaf index segment value⟩] := by
  simp [unhashed, places, Place.index, h]

theorem unhashed_node {index : Nat} {segment : List Bool} {children : Bool → Layout f}
    (h : cachedAt slots index = none) :
    (node index segment children).unhashed slots link =
      ⟨link, node index segment children⟩ ::
        ((children false).unhashed slots (.child index false) ++
          (children true).unhashed slots (.child index true)) := by
  simp [unhashed, places, Place.index, h]

end Layout

/-- The hashed form of a branch. -/
def Place.branch (algorithm : Algorithm) (p : Place f) : Branch f := p.layout.branch algorithm

namespace Sweep

theorem finalize_cached {index : Nat} {pending : Pending f} {branch : Branch f}
    (h : s.slots[index]? = some ⟨pending, some branch⟩) :
    finalize algorithm (fuel + 1) index s = .ok (branch, s) := by
  rw [finalize, h]

theorem finalize_leaf {index : Nat} {path : Path} {value : f.Value}
    (h : s.slots[index]? = some ⟨.leaf path value, none⟩) :
    finalize algorithm (fuel + 1) index s =
      .ok (s.record index (.ofLeaf algorithm path value)) := by
  rw [finalize, h]

theorem finalize_node {index left right : Nat} {path : Path} {l r : Branch f} {s' s'' : Sweep f}
    (h : s.slots[index]? = some ⟨.node path left right, none⟩)
    (hl : finalize algorithm fuel left s = .ok (l, s'))
    (hr : finalize algorithm fuel right s' = .ok (r, s'')) :
    finalize algorithm (fuel + 1) index s =
      .ok (s''.record index (.ofNode algorithm path l r)) := by
  rw [finalize, h]
  simp only [hl, hr, bind, Except.bind, pure, Except.pure]

theorem slot_record_self {index : Nat} {pending : Pending f} {cache : Option (Branch f)}
    (h : s.slots[index]? = some ⟨pending, cache⟩) (branch : Branch f) :
    (s.record index branch).2.slots[index]? = some ⟨pending, some branch⟩ := by
  simp only [record, Array.getElem?_modify, h, if_true, Option.map_some]

theorem slot_record_of_ne {index j : Nat} (h : index ≠ j) (branch : Branch f) :
    (s.record index branch).2.slots[j]? = s.slots[j]? := by
  simp only [record, Array.getElem?_modify, if_neg h]

/-- A sweep that changes the slots of a layout only, and leaves it hashed. -/
structure Hashes (algorithm : Algorithm) (L : Layout f) (s s' : Sweep f) : Prop where
  /-- Every slot of the layout has its hashed form. -/
  finalized : L.Finalized algorithm s'.slots
  /-- No other slot has changed. -/
  frame : ∀ j ∉ L.indices, s'.slots[j]? = s.slots[j]?
  /-- There are as many slots as before. -/
  size : s'.slots.size = s.slots.size
  /-- The branches hashed are those without a hashed form, each of them once. -/
  hashed : ∀ link, s'.hashed.Perm
    ((L.unhashed s.slots link).map (Place.branch algorithm) ++ s.hashed)

end Sweep

namespace Layout

open Sweep (finalize Hashes)

theorem Finalized.finalize {L : Layout f} (h : L.Finalized algorithm s.slots) :
    Sweep.finalize algorithm (fuel + 1) L.index s = .ok (L.branch algorithm, s) ∧
      Hashes algorithm L s s := by
  refine ⟨Sweep.finalize_cached h.slot, h, fun _ _ => rfl, rfl, ?_⟩
  intro link
  rw [h.unhashed]
  exact List.Perm.refl _

/-- Hashing a stored layout yields its hashed form and leaves it in every slot. -/
theorem Stored.finalize {L : Layout f} (h : L.Stored algorithm s.slots) (hn : L.indices.Nodup)
    (hfuel : L.depth ≤ fuel) :
    ∃ s', Sweep.finalize algorithm fuel L.index s = .ok (L.branch algorithm, s') ∧
      Hashes algorithm L s s' := by
  induction L generalizing fuel s with
  | leaf index segment value =>
    obtain ⟨fuel, rfl⟩ := Nat.exists_eq_add_one.2 (Nat.lt_of_lt_of_le (depth_pos _) hfuel)
    rcases h with h | h
    · exact ⟨s, h.finalize⟩
    · refine ⟨(s.record index _).2, Sweep.finalize_leaf h, Sweep.slot_record_self h _, ?_,
        Array.size_modify, ?_⟩
      · intro j hj
        refine Sweep.slot_record_of_ne ?_ _
        rintro rfl
        exact hj (index_mem_indices _)
      · intro link
        rw [unhashed_leaf (cachedAt_of_slot h)]
        exact List.Perm.refl _
  | node index segment children ih =>
    obtain ⟨fuel, rfl⟩ := Nat.exists_eq_add_one.2 (Nat.lt_of_lt_of_le (depth_pos _) hfuel)
    rcases h with h | ⟨hslot, hc⟩
    · exact ⟨s, h.finalize⟩
    · obtain ⟨hnl, hil, hdisjoint⟩ := nodup_child hn false
      obtain ⟨hnr, hir, hdisjoint'⟩ := nodup_child hn true
      obtain ⟨s₁, hl, hl'⟩ := ih false (hc false) hnl (depth_child_le hfuel false)
      -- The two children share no slot, so hashing the left one leaves the right one stored.
      have hright : (children true).Stored algorithm s₁.slots :=
        (hc true).congr fun j hj => hl'.frame j (hdisjoint' j hj)
      obtain ⟨s₂, hr, hr'⟩ := ih true hright hnr (depth_child_le hfuel true)
      have hslot₂ : s₂.slots[index]? = some ⟨(node index segment children).pending, none⟩ := by
        rw [hr'.frame index hir, hl'.frame index hil, hslot]
      have hchildren : ∀ t, (children t).Finalized algorithm s₂.slots := by
        rw [Bool.forall_bool]
        exact ⟨hl'.finalized.congr fun j hj => hr'.frame j (hdisjoint j hj), hr'.finalized⟩
      refine ⟨(s₂.record index _).2, Sweep.finalize_node hslot hl hr,
        ⟨Sweep.slot_record_self hslot₂ _, ?_⟩, ?_, ?_, ?_⟩
      · intro t
        refine (hchildren t).congr fun j hj => Sweep.slot_record_of_ne ?_ _
        rintro rfl
        exact (nodup_child hn t).2.1 hj
      · intro j hj
        have hall : ∀ t, j ∉ (children t).indices :=
          fun t ht => hj (mem_indices_node.2 (.inr ⟨t, ht⟩))
        rw [Sweep.slot_record_of_ne, hr'.frame j (hall true), hl'.frame j (hall false)]
        rintro rfl
        exact hj (index_mem_indices _)
      · exact Array.size_modify.trans (hr'.size.trans hl'.size)
      -- Nothing of the right child has been hashed along with the left one.
      · intro link
        have hright := hr'.hashed (.child index true)
        rw [unhashed_congr fun j hj => hl'.frame j (hdisjoint' j hj)] at hright
        rw [unhashed_node (cachedAt_of_slot hslot), List.map_cons, List.map_append]
        refine List.Perm.cons _ (hright.trans ?_)
        refine ((hl'.hashed (.child index false)).append_left _).trans ?_
        rw [← List.append_assoc]
        exact List.perm_append_comm.append_right _

end Layout

end MerkleTrie
