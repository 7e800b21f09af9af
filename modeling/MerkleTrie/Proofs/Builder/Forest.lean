-- SUMMARY: The pair of layouts that hang at the root of a builder, when a builder represents one, and what adding a leaf makes of it.
import MerkleTrie.Proofs.Builder.Calculation
import MerkleTrie.Proofs.Builder.Growth

/-! # Forests

The root of a builder has two sides, and on each hangs a layout or nothing. A
builder represents such a pair if it stores both, each in slots of its own, and
has no other slots. Whatever a builder does to a leaf follows from the keys of
the pair (`Builder.Represents.insert`). -/

namespace MerkleTrie

variable {f : Flavour}

/-- The layouts on the two sides of a root. -/
abbrev Forest (f : Flavour) := Bool → Option (Layout f)

namespace Forest

/-- The slots on a side. -/
def indicesOn (r : Forest f) (s : Bool) : List Nat := (r s).elim [] Layout.indices

/-- The keys on a side, with their values. -/
def entriesOn (r : Forest f) (s : Bool) : Ledger f := (r s).elim [] Layout.entries

/-- All slots. -/
def indices (r : Forest f) : List Nat := r.indicesOn false ++ r.indicesOn true

/-- All keys with their values. -/
def entries (r : Forest f) : Ledger f := r.entriesOn false ++ r.entriesOn true

/-- The hashed form of the pair. -/
def root (algorithm : Algorithm) (r : Forest f) : Root f :=
  .ofBranches algorithm ((r false).map (Layout.branch algorithm))
    ((r true).map (Layout.branch algorithm))

/-- Each layout begins with the bit of its side. -/
def Formed (r : Forest f) : Prop := ∀ s, ∀ L ∈ r s, L.Formed s

section Sides

variable (r : Forest f) (s : Bool)

theorem indices_perm : r.indices.Perm (r.indicesOn s ++ r.indicesOn (!s)) := by
  cases s with
  | false => exact List.Perm.refl _
  | true => exact List.perm_append_comm

theorem entries_perm : r.entries.Perm (r.entriesOn s ++ r.entriesOn (!s)) := by
  cases s with
  | false => exact List.Perm.refl _
  | true => exact List.perm_append_comm

variable {r s} {L : Layout f}

theorem indicesOn_of_some (h : r s = some L) : r.indicesOn s = L.indices := by
  unfold indicesOn
  rw [h]
  rfl

theorem entriesOn_of_some (h : r s = some L) : r.entriesOn s = L.entries := by
  unfold entriesOn
  rw [h]
  rfl

variable (r s L)

@[simp] theorem indicesOn_update_self :
    indicesOn (Function.update r s (some L)) s = L.indices :=
  indicesOn_of_some (Function.update_self ..)

@[simp] theorem entriesOn_update_self :
    entriesOn (Function.update r s (some L)) s = L.entries :=
  entriesOn_of_some (Function.update_self ..)

@[simp] theorem indicesOn_update_not :
    indicesOn (Function.update r s (some L)) (!s) = r.indicesOn (!s) := by
  simp [indicesOn]

@[simp] theorem entriesOn_update_not :
    entriesOn (Function.update r s (some L)) (!s) = r.entriesOn (!s) := by
  simp [entriesOn]

theorem indices_update :
    (indices (Function.update r s (some L))).Perm (L.indices ++ r.indicesOn (!s)) := by
  simpa using indices_perm (Function.update r s (some L)) s

theorem entries_update :
    (entries (Function.update r s (some L))).Perm (L.entries ++ r.entriesOn (!s)) := by
  simpa using entries_perm (Function.update r s (some L)) s

variable {r s L}

theorem entries_update_of_none (h : r s = none) :
    (entries (Function.update r s (some L))).Perm (L.entries ++ r.entries) := by
  refine (entries_update r s L).trans (List.Perm.append_left _ ?_)
  have hnone : r.entriesOn s = [] := by
    unfold entriesOn
    rw [h]
    rfl
  refine .trans ?_ (r.entries_perm s).symm
  rw [hnone]
  exact List.Perm.refl _

theorem entries_update_of_some {L' : Layout f} {e : Entry f} (h : r s = some L)
    (he : L'.entries.Perm (e :: L.entries)) :
    (entries (Function.update r s (some L'))).Perm (e :: r.entries) := by
  refine (entries_update r s L').trans ((he.append_right _).trans (List.Perm.cons e ?_))
  refine .trans ?_ (r.entries_perm s).symm
  rw [entriesOn_of_some h]
  exact List.Perm.refl _

end Sides

theorem mem_entries {r : Forest f} {e : Entry f} :
    e ∈ r.entries ↔ ∃ s, ∃ L, r s = some L ∧ e ∈ L.entries := by
  have hside : ∀ s, e ∈ r.entriesOn s ↔ ∃ L, r s = some L ∧ e ∈ L.entries := by
    intro s
    cases h : r s with
    | none => simp [entriesOn, h]
    | some L => simp [entriesOn, h]
  unfold entries
  rw [List.mem_append, hside, hside, Bool.exists_bool]

theorem Formed.head_key {r : Forest f} (hf : r.Formed) {s : Bool} {e : Entry f}
    (he : e ∈ r.entriesOn s) : e.1.head? = some s := by
  cases h : r s with
  | none => simp [entriesOn, h] at he
  | some L =>
    rw [entriesOn_of_some h] at he
    exact (hf s L h).head_key he

/-- The keys of a forest are prefix-free. -/
theorem Formed.prefixFree {r : Forest f} (hf : r.Formed) : r.entries.PrefixFree := by
  have hside : ∀ s, (r.entriesOn s).PrefixFree := by
    intro s
    cases h : r s with
    | none =>
      unfold entriesOn
      rw [h]
      exact List.Pairwise.nil
    | some L =>
      rw [entriesOn_of_some h]
      exact (hf s L h).prefixFree
  apply (hside false).append (hside true)
  intro e he e' he'
  exact Apart.of_head_ne (hf.head_key he) (hf.head_key he') (by decide)

theorem Formed.update {r : Forest f} (hf : r.Formed) {s : Bool} {L : Layout f}
    (hL : L.Formed s) : Formed (Function.update r s (some L)) := by
  refine forall_update_side (fun t (side : Option (Layout f)) => ∀ M ∈ side, M.Formed t) ?_
    (hf (!s))
  intro M hM
  exact Option.some.inj hM ▸ hL

/-! ## Places -/

/-- All branches on a side, each with its link. -/
def placesOn (r : Forest f) (s : Bool) : List (Place f) := (r s).elim [] (Layout.places (.root s))

/-- All branches, each with its link. -/
def places (r : Forest f) : List (Place f) := r.placesOn false ++ r.placesOn true

/-- The places on a side whose slots keep no hashed form. -/
def unhashedOn (slots : Array (Slot f)) (r : Forest f) (s : Bool) : List (Place f) :=
  (r s).elim [] (Layout.unhashed slots (.root s))

/-- All places whose slots keep no hashed form. -/
def unhashed (slots : Array (Slot f)) (r : Forest f) : List (Place f) :=
  r.unhashedOn slots false ++ r.unhashedOn slots true

theorem unhashed_eq (slots : Array (Slot f)) (r : Forest f) :
    r.unhashed slots = r.places.filter fun p => (cachedAt slots p.index).isNone := by
  have hside : ∀ s, r.unhashedOn slots s =
      (r.placesOn s).filter fun p => (cachedAt slots p.index).isNone := by
    intro s
    unfold unhashedOn placesOn
    cases r s with
    | none => rfl
    | some L => rfl
  rw [unhashed, places, List.filter_append, hside, hside]

variable {r : Forest f}

theorem mem_places {p : Place f} :
    p ∈ r.places ↔ ∃ s, ∃ L, r s = some L ∧ p ∈ L.places (.root s) := by
  have hside : ∀ s, p ∈ r.placesOn s ↔ ∃ L, r s = some L ∧ p ∈ L.places (.root s) := by
    intro s
    unfold placesOn
    cases r s with
    | none => simp
    | some L => simp
  unfold places
  rw [List.mem_append, hside, hside, Bool.exists_bool]

/-- With a node, both its children are among the places. -/
theorem child_mem_places {place : Link} {index : Nat} {segment : List Bool}
    {children : Bool → Layout f} (h : ⟨place, .node index segment children⟩ ∈ r.places) (s : Bool) :
    ⟨.child index s, children s⟩ ∈ r.places := by
  obtain ⟨t, L, hL, hp⟩ := mem_places.1 h
  exact mem_places.2 ⟨t, L, hL, Layout.child_mem_places hp s⟩

theorem map_index_places (r : Forest f) : r.places.map Place.index = r.indices := by
  have hside : ∀ s, (r.placesOn s).map Place.index = r.indicesOn s := by
    intro s
    unfold placesOn indicesOn
    cases r s with
    | none => rfl
    | some L => exact L.map_index_places (.root s)
  rw [places, List.map_append, hside, hside, indices]

theorem countP_isLeaf_places (r : Forest f) :
    r.places.countP Place.isLeaf = r.entries.length := by
  have hside : ∀ s, (r.placesOn s).countP Place.isLeaf = (r.entriesOn s).length := by
    intro s
    unfold placesOn entriesOn
    cases r s with
    | none => rfl
    | some L => exact L.countP_isLeaf_places (.root s)
  rw [places, List.countP_append, hside, hside, entries, List.length_append]

/-- On every side that is not empty there is one leaf more than there are nodes. -/
theorem length_indices (r : Forest f) :
    r.indices.length + ((r false).toList.length + (r true).toList.length) =
      2 * r.entries.length := by
  have hside : ∀ s, (r.indicesOn s).length + (r s).toList.length =
      2 * (r.entriesOn s).length := by
    intro s
    unfold indicesOn entriesOn
    cases r s with
    | none => rfl
    | some L => exact L.length_indices_succ
  have hl := hside false
  have hr := hside true
  rw [indices, entries, List.length_append, List.length_append]
  omega

end Forest

/-! ## Representation -/

/-- The builder stores the forest, each branch in its own slot, and has no other slots. -/
structure Builder.Represents (b : Builder f) (r : Forest f) : Prop where
  /-- The root slots are those of the two layouts. -/
  rootSlot : ∀ s, b.rootSlot s = (r s).map Layout.index
  /-- The slots hold the layouts. -/
  stored : ∀ s, ∀ L ∈ r s, L.Stored b.algorithm b.slots
  /-- Each layout begins with the bit of its side. -/
  formed : r.Formed
  /-- The slots of the builder are those of the forest, each used once. -/
  indices : r.indices.Perm (List.range b.slots.size)
  /-- The builder counts its leaves. -/
  size : b.size = r.entries.length

namespace Builder.Represents

variable {b : Builder f} {r : Forest f}

theorem empty (algorithm : Algorithm) :
    Builder.Represents ({ algorithm } : Builder f) (fun _ => none) where
  rootSlot := by
    rw [Bool.forall_bool]
    exact ⟨rfl, rfl⟩
  stored := by
    intro s L hL
    cases hL
  formed := by
    intro s L hL
    cases hL
  indices := List.Perm.refl []
  size := rfl

theorem nodup (h : b.Represents r) (s : Bool) :
    (r.indicesOn s).Nodup ∧ ∀ j ∈ r.indicesOn s, j ∉ r.indicesOn (!s) := by
  have hn : r.indices.Nodup := h.indices.nodup_iff.2 List.nodup_range
  obtain ⟨hs, -, hd⟩ := List.nodup_append.1 ((r.indices_perm s).nodup_iff.1 hn)
  exact ⟨hs, fun j hj hj' => hd j hj j hj' rfl⟩

theorem lt_size (h : b.Represents r) {s : Bool} {j : Nat} (hj : j ∈ r.indicesOn s) :
    j < b.slots.size := by
  have hm : j ∈ r.indices := (r.indices_perm s).mem_iff.2 (List.mem_append_left _ hj)
  exact List.mem_range.1 (h.indices.mem_iff.1 hm)

/-- Each layout of the forest hangs at its side of the root. -/
theorem hangs (h : b.Represents r) {s : Bool} {L : Layout f} (hL : r s = some L) :
    b.Hangs (.root s) L where
  stored := h.stored s L hL
  nodup := by
    rw [← Forest.indicesOn_of_some hL]
    exact (h.nodup s).1
  linked := by
    have := h.rootSlot s
    rwa [hL] at this
  outside := by
    intro j _ hp
    cases hp

/-! ## A new leaf -/

/-- A forest with a layout that has grown is what the later builder represents. -/
theorem grown (h : b.Represents r) {s : Bool} {L L' : Layout f} (hL : r s = some L)
    {b' : Builder f} (hg : b.Grown b' (.root s) L L') (hf : L'.Formed s) {e : Entry f}
    (he : L'.entries.Perm (e :: L.entries)) :
    b'.Represents (Function.update r s (some L')) where
  rootSlot := by
    refine forall_update_side (fun t (side : Option (Layout f)) =>
      b'.rootSlot t = side.map Layout.index) ?_ ?_
    · rw [hg.rootSlot]
      cases s <;> rfl
    · rw [hg.rootSlot, ← h.rootSlot]
      cases s <;> rfl
  stored := by
    rw [hg.algorithm]
    refine forall_update_side (fun _ (side : Option (Layout f)) => ∀ M ∈ side, M.Stored _ _) ?_ ?_
    · intro M hM
      exact Option.some.inj hM ▸ hg.stored
    · intro M hM
      refine (h.stored _ M hM).congr fun j hj => ?_
      rw [← Forest.indicesOn_of_some hM] at hj
      have hout : j ∉ L'.indices := by
        apply hg.not_mem (h.lt_size hj)
        rw [← Forest.indicesOn_of_some hL]
        intro hjs
        exact (h.nodup s).2 j hjs hj
      rw [hg.frame j hout]
      exact slot_relink b _ _ j (by rintro ⟨⟩)
  formed := h.formed.update hf
  indices := by
    rw [hg.slots_size, List.range_succ, List.range_succ, List.append_assoc]
    calc Forest.indices (Function.update r s (some L'))
      _ |>.Perm (L'.indices ++ r.indicesOn (!s)) := Forest.indices_update ..
      _ |>.Perm ([b.slots.size, b.slots.size + 1] ++ (r.indicesOn s ++ r.indicesOn (!s))) := by
        rw [Forest.indicesOn_of_some hL]
        exact hg.indices.append_right _
      _ |>.Perm ([b.slots.size, b.slots.size + 1] ++ List.range b.slots.size) :=
        ((r.indices_perm s).symm.trans h.indices).append_left _
      _ |>.Perm (List.range b.slots.size ++ [b.slots.size, b.slots.size + 1]) :=
        List.perm_append_comm
  size := by
    rw [hg.size, h.size, (Forest.entries_update_of_some hL he).length_eq, List.length_cons]

/-- A leaf hung in an empty slot of the root is a layout of its own. -/
theorem occupy (h : b.Represents r) {s : Bool} (hr : r s = none) {bits : List Bool}
    (hbits : bits.head? = some s) (value : f.Value) :
    (b.occupy s (.ofBits bits) value).Represents
      (Function.update r s (some (.leaf b.slots.size bits value))) where
  rootSlot := by
    refine forall_update_side (fun t (side : Option (Layout f)) =>
      (b.occupy s (.ofBits bits) value).rootSlot t = side.map Layout.index) ?_ ?_
    · cases s <;> rfl
    · rw [← h.rootSlot]
      cases s <;> rfl
  stored := by
    have hslots : (b.occupy s (.ofBits bits) value).slots =
        b.slots.push ⟨.leaf (.ofBits bits) value, none⟩ := by
      cases s <;> rfl
    have halgorithm : (b.occupy s (.ofBits bits) value).algorithm = b.algorithm := by
      cases s <;> rfl
    rw [hslots, halgorithm]
    refine forall_update_side (fun _ (side : Option (Layout f)) => ∀ M ∈ side, M.Stored _ _) ?_ ?_
    · intro M hM
      obtain rfl := Option.some.inj hM
      exact .inr Array.getElem?_push_size
    · intro M hM
      refine (h.stored _ M hM).congr fun j hj => ?_
      rw [← Forest.indicesOn_of_some hM] at hj
      rw [Array.getElem?_push, if_neg (Nat.ne_of_lt (h.lt_size hj))]
  formed := h.formed.update hbits
  indices := by
    have hsize : (b.occupy s (.ofBits bits) value).slots.size = b.slots.size + 1 := by
      cases s <;> exact Array.size_push _
    have hnone : r.indicesOn s = [] := by
      unfold Forest.indicesOn
      rw [hr]
      rfl
    rw [hsize, List.range_succ]
    calc Forest.indices (Function.update r s (some (.leaf b.slots.size bits value)))
      _ |>.Perm ([b.slots.size] ++ r.indicesOn (!s)) := Forest.indices_update ..
      _ |>.Perm ([b.slots.size] ++ List.range b.slots.size) := by
        refine List.Perm.append_left _ (.trans ?_ h.indices)
        refine .trans ?_ (r.indices_perm s).symm
        rw [hnone]
        exact List.Perm.refl _
      _ |>.Perm (List.range b.slots.size ++ [b.slots.size]) := List.perm_append_comm
  size := by
    have hsize : (b.occupy s (.ofBits bits) value).size = b.size + 1 := by
      cases s <;> rfl
    rw [hsize, h.size, (Forest.entries_update_of_none hr).length_eq]
    rfl

/-- What the arrival of a descent on one side says holds of the keys on both. -/
theorem agrees (h : b.Represents r) {s : Bool} {L : Layout f} (hL : r s = some L)
    {bits : List Bool} (hbits : bits.head? = some s) {d : Descent}
    (hd : L.Arrives (.root s) bits d) : d.arrival.Agrees bits r.entries := by
  apply (hd.agrees (h.formed s L hL)).of_subset
  · intro e he
    exact Forest.mem_entries.2 ⟨s, L, hL, he⟩
  · intro e he
    obtain ⟨t, M, hM, he⟩ := Forest.mem_entries.1 he
    rcases eq_or_ne s t with rfl | ht
    · rw [hL] at hM
      exact .inl (Option.some.inj hM ▸ he)
    · exact .inr (Apart.of_head_ne hbits ((h.formed t M hM).head_key he) ht)

/-- Adding a leaf does to a builder what it does to the keys of the forest. -/
theorem insert (h : b.Represents r) (path : Path) (value : f.Value) :
    match r.entries.insert path value with
    | .error e => b.insert path value = .error e
    | .ok m => ∃ b' r', b.insert path value = .ok b' ∧ b'.Represents r' ∧ r'.entries.Perm m ∧
        b'.algorithm = b.algorithm := by
  cases hpath : path.bits with
  | nil =>
    have hempty : path.isEmpty = true := by rw [Path.isEmpty_eq, hpath, List.isEmpty_nil]
    rw [Ledger.insert_of_empty hpath]
    exact insert_of_isEmpty hempty b value
  | cons s rest =>
    have hne : path.bits ≠ [] := by simp [hpath]
    have hempty : path.isEmpty = false := by rw [Path.isEmpty_eq, hpath, List.isEmpty_cons]
    have heq : path = .ofBits (s :: rest) := Path.eq_ofBits_of_bits_cons hpath
    have hslot : b.rootSlot path.isRight = (r s).map Layout.index := by
      rw [heq, Path.isRight_cons, h.rootSlot]
    cases hr : r s with
    | none =>
      have hd : b.descend path = .ok ⟨[], .vacancy s⟩ := by
        unfold Builder.descend
        rw [hslot, hr, heq, Path.isRight_cons]
        rfl
      -- All keys lie on the other side, so they differ from the new one in the first bit.
      have hapart : ∀ e ∈ r.entries, Apart path.bits e.1 := by
        intro e he
        obtain ⟨t, M, hM, he⟩ := Forest.mem_entries.1 he
        refine Apart.of_head_ne (by rw [hpath]; rfl) ((h.formed t M hM).head_key he) ?_
        rintro rfl
        rw [hr] at hM
        cases hM
      rw [Ledger.insert_of_apart hne hapart, insert_of_descend hempty hd]
      have hnext : (b.occupy s (.ofBits (s :: rest)) value).Represents _ :=
        h.occupy hr rfl value
      rw [← heq] at hnext
      refine ⟨_, _, rfl, hnext, ?_, ?_⟩
      · rw [hpath]
        exact Forest.entries_update_of_none hr
      · cases s <;> rfl
    | some L =>
      obtain ⟨d, hd, harrives⟩ :=
        (h.stored s L hr).descendFrom (h.formed s L hr) (.root s) (s :: rest)
      rw [← heq] at hd
      have hd : b.descend path = .ok d := by
        rw [Builder.descend, hslot, hr, heq, Path.isRight_cons, ← heq]
        exact hd
      have hagrees := h.agrees hr rfl harrives
      rw [← hpath] at hagrees
      rw [insert_of_descend hempty hd]
      cases harrival : d.arrival with
      | vacancy t => exact absurd harrival harrives.arrival_ne_vacancy
      | obstructed =>
        rw [harrival] at hagrees
        rw [Ledger.insert_of_prefix_key hne hagrees]
      | throughLeaf leafPath =>
        rw [harrival] at hagrees
        rw [Ledger.insert_of_beyond hne hagrees.1 hagrees.2]
      | fork index link common rest' =>
        rw [harrival] at hagrees
        obtain ⟨L', hf, he, hg⟩ :=
          harrives.grown harrival (h.hangs hr) (h.formed s L hr) rfl value
        rw [Ledger.insert_of_apart hne hagrees]
        rw [hpath]
        exact ⟨_, _, rfl, h.grown hr hg hf he, Forest.entries_update_of_some hr he, hg.algorithm⟩

end Builder.Represents

end MerkleTrie
