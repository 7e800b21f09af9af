-- SUMMARY: How a layout that a builder stores grows by one leaf when the builder splits a branch of it.
import Mathlib.Logic.Function.Basic
import MerkleTrie.Proofs.Builder.Change
import MerkleTrie.Proofs.Builder.Descent

/-! # Growth

A split works on one branch deep inside a trie, and the descent that led there
goes through its ancestors. `Builder.Grown` says of any branch on the way what
the whole insertion makes of the layout under it. It holds of the branch that is
split, and if it holds of a child it holds of the parent (`Layout.Arrives.grown`). -/

namespace MerkleTrie

variable {f : Flavour}

/-- What holds of the side that is put in place and of the other side holds of both. -/
theorem forall_update_side {β : Type} {g : Bool → β} {s : Bool} {x : β} (P : Bool → β → Prop)
    (hself : P s x) (hother : P (!s) (g (!s))) : ∀ t, P t (Function.update g s x t) := by
  refine (Function.forall_update_iff g P).2 ⟨hself, ?_⟩
  intro t ht
  obtain rfl : t = !s := Bool.eq_not.2 ht
  exact hother

/-! ## Hanging layouts -/

/-- The branch in a slot hangs at a link. -/
def Builder.Linked (b : Builder f) : Link → Nat → Prop
  | .root s, index => b.rootSlot s = some index
  | .child parent s, index => ∃ path, ∃ children : Bool → Nat, ∃ cache,
    b.slots[parent]? = some ⟨.node path (children false) (children true), cache⟩ ∧
      children s = index

/-- A builder stores a layout in slots of its own, and it hangs at a link. -/
structure Builder.Hangs (b : Builder f) (link : Link) (L : Layout f) : Prop where
  /-- The slots hold the layout. -/
  stored : L.Stored b.algorithm b.slots
  /-- Each branch has its own slot. -/
  nodup : L.indices.Nodup
  /-- The layout hangs at the link. -/
  linked : b.Linked link L.index
  /-- The link does not come from inside the layout. -/
  outside : ∀ j ∈ L.indices, link.parent? ≠ some j

theorem Slot.relink_node (path : Path) (children : Bool → Nat) (cache : Option (Branch f))
    (s : Bool) (index : Nat) :
    (⟨.node path (children false) (children true), cache⟩ : Slot f).relink s index =
      ⟨.node path (Function.update children s index false) (Function.update children s index true),
        cache⟩ := by
  cases s <;> rfl

theorem Layout.pending_update (i : Nat) (segment : List Bool) (children : Bool → Layout f)
    (s : Bool) (child : Layout f) :
    (Layout.node i segment (Function.update children s child)).pending =
      (Layout.node i segment children).pending.withChild s child.index := by
  cases s <;> rfl

theorem Builder.relink_of_linked {b : Builder f} {link : Link} {index : Nat}
    (h : b.Linked link index) : b.relink link index = b := by
  rcases link with (_ | _) | ⟨parent, s⟩
  · have hleft : b.left = some index := h
    rw [Builder.relink, ← hleft]
  · have hright : b.right = some index := h
    rw [Builder.relink, ← hright]
  · obtain ⟨path, children, cache, hslot, rfl⟩ := h
    have hslots : (b.relink (.child parent s) (children s)).slots = b.slots := by
      refine Array.ext_getElem? fun j => ?_
      rcases eq_or_ne parent j with rfl | hj
      · rw [Builder.slot_relink_child, hslot, Option.map_some, Slot.relink_node,
          Function.update_eq_self]
      · exact Builder.slot_relink b _ _ j (fun hp => hj (Option.some.inj hp))
    exact congrArg (fun slots => { b with slots := slots }) hslots

namespace Layout

variable {algorithm : Algorithm} {slots slots' : Array (Slot f)}

/-- Every branch of a stored layout has a slot. -/
theorem Stored.lt_size {L : Layout f} (h : L.Stored algorithm slots) {j : Nat}
    (hj : j ∈ L.indices) : j < slots.size := by
  have hroot {L : Layout f} (h : L.Stored algorithm slots) : L.index < slots.size := by
    obtain ⟨cache, hslot⟩ := h.slot
    exact (Array.getElem?_eq_some_iff.1 hslot).1
  induction L with
  | leaf index segment value =>
    obtain rfl := List.mem_singleton.1 hj
    exact hroot h
  | node index segment children ih =>
    rcases mem_indices_node.1 hj with rfl | ⟨s, hs⟩
    · exact hroot h
    · exact ih s (h.child s) hs

/-- Taking bits off the topmost branch leaves the rest of a stored layout stored. -/
theorem Stored.shorten {L : Layout f} (h : L.Stored algorithm slots) (hn : L.indices.Nodup)
    {common segment : List Bool} (hseg : L.segment = common ++ segment)
    (htop : slots'[L.index]? = slots[L.index]?.map (·.shorten common.length))
    (hs : ∀ j ∈ L.indices, j ≠ L.index → slots'[j]? = slots[j]?) :
    (L.withSegment segment).Stored algorithm slots' := by
  obtain ⟨cache, hslot⟩ := h.slot
  have hskip : (Path.ofBits L.segment).skip common.length = .ofBits segment := by
    rw [hseg, Path.skip_ofBits (by simp), List.drop_left]
  rw [hslot, Option.map_some] at htop
  cases L with
  | leaf index seg value =>
    refine .inr (htop.trans ?_)
    simp only [Slot.shorten, path_pending, hskip]
    rfl
  | node index seg children =>
    refine .inr ⟨htop.trans ?_, ?_⟩
    · simp only [Slot.shorten, path_pending, hskip]
      rfl
    · intro s
      refine (h.child s).congr fun j hj => hs j (mem_indices_node.2 (.inr ⟨s, hj⟩)) ?_
      rintro rfl
      exact (nodup_child hn s).2.1 hj

end Layout

/-- The layout under a node on the way hangs at that node. -/
theorem Builder.Hangs.child {b : Builder f} {link : Link} {index : Nat} {segment : List Bool}
    {children : Bool → Layout f} (h : b.Hangs link (.node index segment children)) (s : Bool) :
    b.Hangs (.child index s) (children s) where
  stored := h.stored.child s
  nodup := (Layout.nodup_child h.nodup s).1
  linked := by
    obtain ⟨cache, hslot⟩ := h.stored.slot
    exact ⟨_, fun t => (children t).index, cache, hslot, rfl⟩
  outside := by
    intro j hj hp
    obtain rfl := Option.some.inj hp
    exact (Layout.nodup_child h.nodup s).2.1 hj

/-! ## Growth by one leaf -/

/-- The later builder has one leaf more, which lies under a layout that hangs at a link. Outside
the layout nothing has changed but the link. -/
structure Builder.Grown (b b' : Builder f) (link : Link) (L L' : Layout f) : Prop where
  /-- The later builder stores the grown layout. -/
  stored : L'.Stored b.algorithm b'.slots
  /-- The grown layout has two slots more, which are new. -/
  indices : L'.indices.Perm (b.slots.size :: (b.slots.size + 1) :: L.indices)
  /-- A slot outside the grown layout is changed by the link only. -/
  frame : ∀ j ∉ L'.indices, b'.slots[j]? = (b.relink link L'.index).slots[j]?
  /-- The root slots are changed by the link only. -/
  rootSlot : ∀ s, b'.rootSlot s = (b.relink link L'.index).rootSlot s
  /-- There are two slots more. -/
  slots_size : b'.slots.size = b.slots.size + 2
  /-- The algorithm stays. -/
  algorithm : b'.algorithm = b.algorithm
  /-- There is one leaf more. -/
  size : b'.size = b.size + 1

theorem Builder.Grown.not_mem {b b' : Builder f} {link : Link} {L L' : Layout f}
    (h : b.Grown b' link L L') {j : Nat} (hj : j < b.slots.size) (hL : j ∉ L.indices) :
    j ∉ L'.indices := by
  rw [h.indices.mem_iff, List.mem_cons, List.mem_cons]
  rintro (rfl | rfl | hm)
  · omega
  · omega
  · exact hL hm

namespace Layout

section Update

variable (index : Nat) (segment : List Bool) (children : Bool → Layout f) (s : Bool)
  (child : Layout f)

theorem indices_update_perm :
    (node index segment (Function.update children s child)).indices.Perm
      (index :: (child.indices ++ (children (!s)).indices)) := by
  simpa using indices_node_perm index segment (Function.update children s child) s

theorem entries_update_perm :
    (node index segment (Function.update children s child)).entries.Perm
      ((child.entries ++ (children (!s)).entries).map (Entry.under segment)) := by
  simpa using entries_node_perm index segment (Function.update children s child) s

end Update

/-- The node that a split makes of a branch: the branch, shortened, on one side and the new leaf
on the other. -/
def forked (L : Layout f) (slot : Nat) (common : List Bool) (s : Bool) (rest tail : List Bool)
    (value : f.Value) : Layout f :=
  .node (slot + 1) common
    (Function.update (fun _ => L.withSegment ((!s) :: tail)) s (.leaf slot (s :: rest) value))

section Forked

variable {L : Layout f} {slot : Nat} {common rest tail : List Bool} {s : Bool} {value : f.Value}

theorem entries_forked (h : L.segment = common ++ (!s) :: tail) :
    (L.forked slot common s rest tail value).entries.Perm
      ((common ++ s :: rest, value) :: L.entries) := by
  apply (entries_update_perm ..).trans
  rw [List.map_append, entries_withSegment h]
  rfl

theorem indices_forked :
    (L.forked slot common s rest tail value).indices.Perm (slot :: (slot + 1) :: L.indices) := by
  apply (indices_update_perm ..).trans
  rw [indices_withSegment]
  exact List.Perm.swap ..

theorem pending_forked :
    (L.forked slot common s rest tail value).pending =
      if s then .node (.ofBits common) L.index slot else .node (.ofBits common) slot L.index := by
  cases s <;> simp [forked, pending, Function.update]

theorem formed_forked {side : Bool} (hf : L.Formed side)
    (h : L.segment = common ++ (!s) :: tail) (hside : (common ++ s :: rest).head? = some side) :
    (L.forked slot common s rest tail value).Formed side := by
  have hseg := hf.head_segment
  rw [h] at hseg
  refine ⟨?_, ?_⟩
  · cases common with
    | nil =>
      obtain rfl := Option.some.inj hside
      cases s <;> cases hseg
    | cons c common => exact hside
  · exact forall_update_side (fun t (M : Layout f) => M.Formed t) rfl (hf.withSegment tail)

end Forked

end Layout

/-! ## The branch that is split -/

namespace Builder

variable {b : Builder f} {link : Link} {L : Layout f}

/-- A split, seen from the branch that is split. -/
theorem Hangs.grown_split (h : b.Hangs link L) {common rest tail : List Bool} {s : Bool}
    (hseg : L.segment = common ++ (!s) :: tail) (value : f.Value) :
    b.Grown (b.split L.index link ⟨.ofBits common, common.length⟩ (.ofBits (s :: rest)) value)
      link L (L.forked b.slots.size common s rest tail value) := by
  have hlt : ∀ j ∈ L.indices, j < b.slots.size := fun j hj => h.stored.lt_size hj
  have hindex : L.index < b.slots.size := hlt _ L.index_mem_indices
  have hparent : ∀ j, link.parent? = some j → j < b.slots.size := by
    intro j hj
    cases link with
    | root => cases hj
    | child parent t =>
      cases hj
      obtain ⟨path, children, cache, hslot, -⟩ := h.linked
      exact (Array.getElem?_eq_some_iff.1 hslot).1
  have hleaf : link.parent? ≠ some b.slots.size := fun hp => Nat.lt_irrefl _ (hparent _ hp)
  have hnode : link.parent? ≠ some (b.slots.size + 1) := by
    intro hp
    have := hparent _ hp
    omega
  refine {
    stored := ?_
    indices := Layout.indices_forked
    frame := ?_
    rootSlot := rootSlot_split
    slots_size := slots_size_split
    algorithm := algorithm_split
    size := size_split }
  · rw [slots_split]
    -- The new node, and then its children: the new leaf and the branch without the common bits.
    refine .inr ⟨?_, ?_⟩
    · have hpending : (L.forked b.slots.size common s rest tail value).pending = _ :=
        Layout.pending_forked
      rw [slot_relink _ _ _ _ hnode, slot_sprout_node, Path.isRight_cons]
      exact congrArg (fun branch => some (Slot.mk branch none)) hpending.symm
    · refine forall_update_side (fun _ (M : Layout f) => M.Stored _ _) (.inr ?_) ?_
      · rw [slot_relink _ _ _ _ hleaf, slot_sprout_leaf]
        rfl
      · apply h.stored.shorten h.nodup hseg
        · rw [slot_relink _ _ _ _ (h.outside _ L.index_mem_indices), slot_sprout_shortened hindex]
        · intro j hj hne
          have hjlt := hlt j hj
          rw [slot_relink _ _ _ _ (h.outside j hj),
            slot_sprout_of_ne hne (Nat.ne_of_lt hjlt) (by omega)]
  · intro j hj
    rw [Layout.indices_forked.mem_iff, List.mem_cons, List.mem_cons, not_or, not_or] at hj
    obtain ⟨hjleaf, hjnode, hjL⟩ := hj
    rw [slots_split]
    refine slot_relink_congr (slot_sprout_of_ne ?_ hjleaf hjnode) link _
    rintro rfl
    exact hjL L.index_mem_indices

/-! ## The branches on the way there -/

variable {index : Nat} {segment : List Bool} {children : Bool → Layout f} {s : Bool}

/-- The growth of a child, seen from its parent, which gives up its hashed form. -/
theorem Hangs.grown_parent (h : b.Hangs link (.node index segment children)) {b' b'' : Builder f}
    {child : Layout f} (hg : b.Grown b' (.child index s) (children s) child)
    (hslot : ∀ j, b''.slots[j]? =
      if index = j then b'.slots[j]?.map Slot.stale else b'.slots[j]?)
    (hroot : ∀ t, b''.rootSlot t = b'.rootSlot t) (hslots : b''.slots.size = b'.slots.size)
    (halgorithm : b''.algorithm = b'.algorithm) (hsize : b''.size = b'.size) :
    b.Grown b'' link (.node index segment children)
      (.node index segment (Function.update children s child)) := by
  obtain ⟨-, hindex, hdisjoint⟩ := Layout.nodup_child h.nodup s
  have hlt : ∀ j ∈ (Layout.node index segment children).indices, j < b.slots.size :=
    fun j hj => h.stored.lt_size hj
  have hindexlt : index < b.slots.size := hlt index (Layout.mem_indices_node.2 (.inl rfl))
  have hnot : index ∉ child.indices := hg.not_mem hindexlt hindex
  -- Between the two builders only the grown child and the slot of its parent differ.
  have hother {j : Nat} (hne : index ≠ j) (hj : j ∉ child.indices) :
      b''.slots[j]? = b.slots[j]? := by
    rw [hslot, if_neg hne, hg.frame j hj]
    exact slot_relink b _ _ j (fun hp => hne (Option.some.inj hp))
  have hself : b.relink link index = b := relink_of_linked h.linked
  refine {
    stored := .inr ⟨?_, ?_⟩
    indices := ?_
    frame := ?_
    rootSlot := ?_
    slots_size := hslots.trans hg.slots_size
    algorithm := halgorithm.trans hg.algorithm
    size := hsize.trans hg.size }
  · obtain ⟨cache, hold⟩ := h.stored.slot
    rw [Layout.index_node] at hold
    rw [hslot, if_pos rfl, hg.frame index hnot, slot_relink_child, hold, Layout.pending_update]
    rfl
  · refine forall_update_side (fun _ (M : Layout f) => M.Stored _ _) ?_ ?_
    · refine hg.stored.congr fun j hj => ?_
      rw [hslot, if_neg]
      rintro rfl
      exact hnot hj
    · refine (h.stored.child (!s)).congr fun j hj => hother ?_ ?_
      · rintro rfl
        exact (Layout.nodup_child h.nodup (!s)).2.1 hj
      · refine hg.not_mem (hlt j (Layout.mem_indices_node.2 (.inr ⟨_, hj⟩))) ?_
        intro hjs
        exact hdisjoint j hjs hj
  · calc (Layout.node index segment (Function.update children s child)).indices
      _ |>.Perm (index :: (child.indices ++ (children (!s)).indices)) :=
        Layout.indices_update_perm ..
      _ |>.Perm (index :: (b.slots.size :: (b.slots.size + 1) :: (children s).indices ++
          (children (!s)).indices)) := (hg.indices.append_right _).cons _
      _ |>.Perm (b.slots.size :: (b.slots.size + 1) :: index ::
          ((children s).indices ++ (children (!s)).indices)) := by
        exact (List.Perm.swap ..).trans ((List.Perm.swap ..).cons _)
      _ |>.Perm (b.slots.size :: (b.slots.size + 1) ::
          (Layout.node index segment children).indices) :=
        ((Layout.indices_node_perm ..).symm.cons _).cons _
  · intro j hj
    rw [Layout.index_node, hself]
    apply hother
    · rintro rfl
      exact hj (Layout.mem_indices_node.2 (.inl rfl))
    · intro hjc
      exact hj (Layout.mem_indices_node.2 (.inr ⟨s, by rwa [Function.update_self]⟩))
  · intro t
    rw [Layout.index_node, hself, hroot, hg.rootSlot]
    rfl

end Builder

/-! ## The whole insertion -/

/-- Where a descent arrives inside the path of a branch, splitting the branch and giving up the
hashed forms on the way adds one leaf to the layout and keeps all others. -/
theorem Layout.Arrives.grown {b : Builder f} {L : Layout f} {side : Bool} {link : Link}
    {bits : List Bool} {d : Descent} (h : L.Arrives link bits d) {index : Nat} {place : Link}
    {common : CommonPrefix} {rest : Path} (harrival : d.arrival = .fork index place common rest)
    (hh : b.Hangs link L) (hf : L.Formed side) (hside : bits.head? = some side) (value : f.Value) :
    ∃ L' : Layout f, L'.Formed side ∧ L'.entries.Perm ((bits, value) :: L.entries) ∧
      b.Grown ((b.split index place common rest value).invalidate d.passed) link L L' := by
  induction h generalizing side with
  | obstructed => cases harrival
  | throughLeaf => cases harrival
  | fork hseg =>
    cases harrival
    exact ⟨_, formed_forked hf hseg hside, entries_forked hseg, hh.grown_split hseg value⟩
  | @pass i segment rest' children link s d _ ih =>
    obtain ⟨child, hchild, hentries, hgrown⟩ := ih harrival (hh.child s) (hf.2 s) rfl
    refine ⟨.node i segment (Function.update children s child), ⟨hf.1, ?_⟩, ?_, ?_⟩
    · exact forall_update_side (fun t (M : Layout f) => M.Formed t) hchild (hf.2 (!s))
    · calc (node i segment (Function.update children s child)).entries
        _ |>.Perm ((child.entries ++ (children (!s)).entries).map (Entry.under segment)) :=
          entries_update_perm ..
        _ |>.Perm ((((s :: rest', value) :: (children s).entries) ++
            (children (!s)).entries).map (Entry.under segment)) :=
          (hentries.append_right _).map _
        _ |>.Perm ((segment ++ s :: rest', value) :: (node i segment children).entries) :=
          (entries_node_perm ..).symm.cons _
    · refine hh.grown_parent hgrown (Builder.slot_invalidate_cons _ ⟨i, .ofBits segment, s⟩ _) ?_
        ?_ ?_ ?_ <;> simp [Descent.after]

end MerkleTrie
