-- SUMMARY: What the edits of a builder, hanging a branch, splitting one and giving up hashes, do to each single slot.
import MerkleTrie.Builder.Insert

/-! # Changes to slots

Each edit of a builder is described slot by slot. An edit that reaches a slot
only through a link leaves the slots the link does not name alone. Adding a leaf
makes the edit that its descent calls for, or refuses the leaf before any edit
(`Builder.run_add`). -/

namespace MerkleTrie

variable {f : Flavour}

/-- The slot of the node that a branch hangs at, if it does not hang at the root. -/
def Link.parent? : Link → Option Nat
  | .root _ => none
  | .child parent _ => some parent

@[simp] theorem Slot.stale_stale (s : Slot f) : s.stale.stale = s.stale := rfl

namespace Builder

/-! ## Hanging a branch -/

@[simp] theorem algorithm_relink (b : Builder f) (link : Link) (index : Nat) :
    (b.relink link index).algorithm = b.algorithm := by
  rcases link with (_ | _) | _ <;> rfl

@[simp] theorem size_relink (b : Builder f) (link : Link) (index : Nat) :
    (b.relink link index).size = b.size := by
  rcases link with (_ | _) | _ <;> rfl

@[simp] theorem slots_size_relink (b : Builder f) (link : Link) (index : Nat) :
    (b.relink link index).slots.size = b.slots.size := by
  rcases link with (_ | _) | ⟨parent, s⟩
  · rfl
  · rfl
  · exact Array.size_modify

theorem slot_relink (b : Builder f) (link : Link) (index j : Nat) (h : link.parent? ≠ some j) :
    (b.relink link index).slots[j]? = b.slots[j]? := by
  rcases link with (_ | _) | ⟨parent, s⟩
  · rfl
  · rfl
  · have hne : parent ≠ j := fun hp => h (congrArg some hp)
    simp only [relink, modify, Array.getElem?_modify, if_neg hne]

theorem slot_relink_child (b : Builder f) (parent : Nat) (s : Bool) (index : Nat) :
    (b.relink (.child parent s) index).slots[parent]? =
      b.slots[parent]?.map (·.relink s index) := by
  simp only [relink, modify, Array.getElem?_modify, if_true]

/-- What hanging a branch makes of a slot depends on that slot only. -/
theorem slot_relink_congr {b c : Builder f} {j : Nat} (h : c.slots[j]? = b.slots[j]?) (link : Link)
    (index : Nat) : (c.relink link index).slots[j]? = (b.relink link index).slots[j]? := by
  by_cases hp : link.parent? = some j
  · cases link with
    | root => cases hp
    | child parent s =>
      cases hp
      rw [slot_relink_child, slot_relink_child, h]
  · rw [slot_relink c link index j hp, slot_relink b link index j hp, h]

theorem rootSlot_relink_congr {b c : Builder f} (h : ∀ s, c.rootSlot s = b.rootSlot s)
    (link : Link) (index : Nat) (s : Bool) :
    (c.relink link index).rootSlot s = (b.relink link index).rootSlot s := by
  have hf : c.left = b.left := h false
  have ht : c.right = b.right := h true
  rcases link with (_ | _) | _ <;> cases s <;> simp [relink, rootSlot, modify, hf, ht]

/-! ## Giving up hashed forms -/

@[simp] theorem algorithm_invalidate (b : Builder f) (passed : List Passage) :
    (b.invalidate passed).algorithm = b.algorithm := by
  induction passed generalizing b with
  | nil => rfl
  | cons p passed ih => exact ih _

@[simp] theorem size_invalidate (b : Builder f) (passed : List Passage) :
    (b.invalidate passed).size = b.size := by
  induction passed generalizing b with
  | nil => rfl
  | cons p passed ih => exact ih _

@[simp] theorem rootSlot_invalidate (b : Builder f) (passed : List Passage) (s : Bool) :
    (b.invalidate passed).rootSlot s = b.rootSlot s := by
  induction passed generalizing b with
  | nil => rfl
  | cons p passed ih => exact ih _

@[simp] theorem slots_size_invalidate (b : Builder f) (passed : List Passage) :
    (b.invalidate passed).slots.size = b.slots.size := by
  induction passed generalizing b with
  | nil => rfl
  | cons p passed ih => exact (ih _).trans Array.size_modify

/-- A slot is stale after a descent if the descent passed it, and else as it was. -/
theorem slot_invalidate (b : Builder f) (passed : List Passage) (j : Nat) :
    (b.invalidate passed).slots[j]? =
      if ∃ p ∈ passed, p.index = j then b.slots[j]?.map Slot.stale else b.slots[j]? := by
  induction passed generalizing b with
  | nil => simp [invalidate]
  | cons p passed ih =>
    have hstep : (b.invalidate (p :: passed)) = (b.modify p.index Slot.stale).invalidate passed :=
      rfl
    rw [hstep, ih]
    simp only [modify, Array.getElem?_modify, List.mem_cons, exists_eq_or_imp]
    by_cases hp : p.index = j <;> by_cases hq : ∃ q ∈ passed, q.index = j <;>
      simp [hp, hq, Function.comp_def]

/-- A slot after a descent from a node, by what is so after the descent from its child. -/
theorem slot_invalidate_cons (b : Builder f) (p : Passage) (passed : List Passage) (j : Nat) :
    (b.invalidate (p :: passed)).slots[j]? =
      if p.index = j then (b.invalidate passed).slots[j]?.map Slot.stale
      else (b.invalidate passed).slots[j]? := by
  simp only [slot_invalidate, List.mem_cons, exists_eq_or_imp]
  by_cases hp : p.index = j <;> by_cases hq : ∃ q ∈ passed, q.index = j <;>
    simp [hp, hq, Function.comp_def]

/-! ## Splitting a branch -/

/-- The two slots that a split fills, and the branch it shortens, before the new node is hung. -/
def sprout (b : Builder f) (index : Nat) (common : CommonPrefix) (rest : Path)
    (value : f.Value) : Builder f :=
  let leaf := b.slots.size
  let branch : Pending f :=
    if rest.isRight then .node common.path index leaf else .node common.path leaf index
  ((b.modify index (·.shorten common.length)).push (.leaf rest value)).push branch

section Split

variable {b : Builder f} {index : Nat} {link : Link} {common : CommonPrefix} {rest : Path}
  {value : f.Value}

@[simp] theorem slots_size_sprout :
    (b.sprout index common rest value).slots.size = b.slots.size + 2 := by
  simp [sprout, push, modify]

theorem slot_sprout_leaf :
    (b.sprout index common rest value).slots[b.slots.size]? = some ⟨.leaf rest value, none⟩ := by
  simp only [sprout, push, modify, Array.getElem?_push, Array.size_push, Array.size_modify]
  rw [if_neg (by omega), if_pos trivial]

theorem slot_sprout_node :
    (b.sprout index common rest value).slots[b.slots.size + 1]? =
      some ⟨if rest.isRight then .node common.path index b.slots.size
        else .node common.path b.slots.size index, none⟩ := by
  simp only [sprout, push, modify, Array.getElem?_push, Array.size_push, Array.size_modify, if_true]

theorem slot_sprout_shortened (h : index < b.slots.size) :
    (b.sprout index common rest value).slots[index]? =
      b.slots[index]?.map (·.shorten common.length) := by
  have hleaf : index ≠ b.slots.size := by omega
  have hnode : index ≠ b.slots.size + 1 := by omega
  simp [sprout, push, modify, Array.getElem?_push, Array.getElem?_modify, hleaf, hnode]

theorem slot_sprout_of_ne {j : Nat} (h : j ≠ index) (hleaf : j ≠ b.slots.size)
    (hnode : j ≠ b.slots.size + 1) :
    (b.sprout index common rest value).slots[j]? = b.slots[j]? := by
  simp [sprout, push, modify, Array.getElem?_push, Array.getElem?_modify, hleaf, hnode, h.symm]

/-- A split hangs the new node last. -/
theorem split_eq :
    b.split index link common rest value =
      { (b.sprout index common rest value).relink link (b.slots.size + 1) with
        size := b.size + 1 } := by
  rcases link with (_ | _) | _ <;> rfl

@[simp] theorem algorithm_split :
    (b.split index link common rest value).algorithm = b.algorithm := by
  rw [split_eq]
  exact algorithm_relink _ link _

@[simp] theorem size_split : (b.split index link common rest value).size = b.size + 1 := by
  rw [split_eq]

@[simp] theorem slots_size_split :
    (b.split index link common rest value).slots.size = b.slots.size + 2 := by
  rw [split_eq]
  exact (slots_size_relink _ link _).trans slots_size_sprout

theorem rootSlot_split (s : Bool) :
    (b.split index link common rest value).rootSlot s =
      (b.relink link (b.slots.size + 1)).rootSlot s := by
  rw [split_eq]
  exact rootSlot_relink_congr (b := b) (c := b.sprout index common rest value) (fun _ => rfl) link
    (b.slots.size + 1) s

theorem slots_split :
    (b.split index link common rest value).slots =
      ((b.sprout index common rest value).relink link (b.slots.size + 1)).slots := by
  rw [split_eq]

end Split

/-! ## Adding a leaf -/

theorem run_add_of_isEmpty {path : Path} (h : path.isEmpty = true) (b : Builder f)
    (value : f.Value) : (add path value).run b = .error (.invalidPath path) b := by
  unfold add
  rw [h]
  rfl

/-- Past the check for key bits, the outcome is decided by the descent. -/
theorem run_add_of_not_isEmpty {path : Path} (h : path.isEmpty = false) (b : Builder f)
    (value : f.Value) :
    (add path value).run b =
      match b.descend path with
      | .error e => .error e b
      | .ok d =>
        match d.arrival with
        | .vacancy s => .ok () (b.occupy s path value)
        | .obstructed => .error (.branchExists path) b
        | .throughLeaf _ => .error (.leafOutOfBounds path) b
        | .fork index link common rest =>
          .ok () ((b.split index link common rest value).invalidate d.passed) := by
  unfold add
  rw [h]
  -- The builder that `add` reads is `b`, so its descent can be taken by cases.
  change EStateM.bind (ofExcept (b.descend path)) _ b = _
  cases b.descend path with
  | error e => rfl
  | ok d => rcases d with ⟨passed, _ | _ | _ | _⟩ <;> rfl

/-- Every refusal comes before the first edit, so that the builder beside it is the one that the
leaf was to be added to. -/
theorem run_add (b : Builder f) (path : Path) (value : f.Value) :
    (add path value).run b =
      match b.insert path value with
      | .ok b' => .ok () b'
      | .error e => .error e b := by
  unfold insert
  cases hpath : path.isEmpty with
  | true => rw [run_add_of_isEmpty hpath]
  | false =>
    rw [run_add_of_not_isEmpty hpath]
    cases b.descend path with
    | error e => rfl
    | ok d => rcases d with ⟨passed, _ | _ | _ | _⟩ <;> rfl

theorem insert_of_isEmpty {path : Path} (h : path.isEmpty = true) (b : Builder f)
    (value : f.Value) : b.insert path value = .error (.invalidPath path) := by
  rw [insert, run_add_of_isEmpty h]

/-- A path whose descent is known is added, or refused, by where the descent arrives. -/
theorem insert_of_descend {b : Builder f} {path : Path} {d : Descent}
    (hpath : path.isEmpty = false) (hd : b.descend path = .ok d) (value : f.Value) :
    b.insert path value =
      match d.arrival with
      | .vacancy s => .ok (b.occupy s path value)
      | .obstructed => .error (.branchExists path)
      | .throughLeaf _ => .error (.leafOutOfBounds path)
      | .fork index link common rest =>
        .ok ((b.split index link common rest value).invalidate d.passed) := by
  rw [insert, run_add_of_not_isEmpty hpath, hd]
  rcases d with ⟨passed, _ | _ | _ | _⟩ <;> rfl

end Builder

end MerkleTrie
