-- SUMMARY: The descent of a new path through the layout that a builder stores, and what its arrival says about the keys.
import MerkleTrie.Builder.Insert
import MerkleTrie.Proofs.Builder.Layout

/-! # Descents

`Layout.Arrives` is the descent of a path read off a layout in place of the
slots. A builder that stores a layout descends as the layout says
(`Stored.descendFrom`), and where the descent arrives decides how the new key
stands to all keys under the layout (`Arrives.agrees`). -/

namespace MerkleTrie

variable {f : Flavour}

/-- What an arrival says about the keys of a ledger. -/
def Arrival.Agrees (bits : List Bool) (m : Ledger f) : Arrival → Prop
  | .obstructed => ∃ e ∈ m, bits <+: e.1
  | .throughLeaf _ => (∀ e ∈ m, ¬ bits <+: e.1) ∧ ∃ e ∈ m, e.1 <+: bits
  | .vacancy _ => ∀ e ∈ m, Apart bits e.1
  | .fork .. => ∀ e ∈ m, Apart bits e.1

/-- Keys that the new one is apart from do not change what an arrival says. -/
theorem Arrival.Agrees.of_subset {bits : List Bool} {m m' : Ledger f} {a : Arrival}
    (h : a.Agrees bits m) (hsub : m ⊆ m') (hc : ∀ e ∈ m', e ∈ m ∨ Apart bits e.1) :
    a.Agrees bits m' := by
  have apart (hm : ∀ e ∈ m, Apart bits e.1) : ∀ e ∈ m', Apart bits e.1 := by
    intro e he
    rcases hc e he with he | hp
    · exact hm e he
    · exact hp
  cases a with
  | vacancy => exact apart h
  | fork => exact apart h
  | obstructed =>
    obtain ⟨e, he, hp⟩ := h
    exact ⟨e, hsub he, hp⟩
  | throughLeaf =>
    obtain ⟨hn, e, he, hp⟩ := h
    refine ⟨?_, e, hsub he, hp⟩
    intro e' he'
    rcases hc e' he' with he' | hp'
    · exact hn e' he'
    · exact hp'.1

/-- The same bits in front of the new key and of every key do not change what an arrival says. -/
theorem Arrival.Agrees.under {bits : List Bool} {m : Ledger f} {a : Arrival}
    (h : a.Agrees bits m) (segment : List Bool) :
    a.Agrees (segment ++ bits) (m.map (Entry.under segment)) := by
  have apart (hm : ∀ e ∈ m, Apart bits e.1) :
      ∀ e ∈ m.map (Entry.under segment), Apart (segment ++ bits) e.1 := by
    simpa only [List.forall_mem_map, Entry.under_key, Apart.append_left_iff] using hm
  cases a with
  | vacancy => exact apart h
  | fork => exact apart h
  | obstructed =>
    obtain ⟨e, he, hp⟩ := h
    exact ⟨_, List.mem_map_of_mem he, (List.prefix_append_right_inj segment).2 hp⟩
  | throughLeaf =>
    obtain ⟨hn, e, he, hp⟩ := h
    refine ⟨?_, _, List.mem_map_of_mem he, (List.prefix_append_right_inj segment).2 hp⟩
    simpa only [List.forall_mem_map, Entry.under_key, List.prefix_append_right_inj] using hn

namespace Layout

/-- The descent of a path with the given bits from the top of a layout, which hangs at a link. -/
inductive Arrives : Layout f → Link → List Bool → Descent → Prop where
  /-- The path ends inside the topmost branch. -/
  | obstructed {L : Layout f} {link : Link} {bits tail : List Bool}
      (h : L.segment = bits ++ tail) : L.Arrives link bits ⟨[], .obstructed⟩
  /-- The path runs beyond a leaf. -/
  | throughLeaf {index : Nat} {segment rest : List Bool} {value : f.Value} {link : Link}
      {s : Bool} :
      (leaf index segment value).Arrives link (segment ++ s :: rest)
        ⟨[], .throughLeaf (.ofBits segment)⟩
  /-- The path parts from the topmost branch inside it. -/
  | fork {L : Layout f} {link : Link} {common rest tail : List Bool} {s : Bool}
      (h : L.segment = common ++ (!s) :: tail) :
      L.Arrives link (common ++ s :: rest)
        ⟨[], .fork L.index link ⟨.ofBits common, common.length⟩ (.ofBits (s :: rest))⟩
  /-- The path passes a node and goes on to one of its children. -/
  | pass {index : Nat} {segment rest : List Bool} {children : Bool → Layout f} {link : Link}
      {s : Bool} {d : Descent}
      (h : (children s).Arrives (.child index s) (s :: rest) d) :
      (node index segment children).Arrives link (segment ++ s :: rest)
        (d.after ⟨index, .ofBits segment, s⟩)

/-! ## The builder's descent -/

variable {algorithm : Algorithm} {b : Builder f}

/-- A path that ends inside the path of a branch is obstructed. -/
theorem descendFrom_of_obstructed {index : Nat} {slot : Slot f} {bits tail : List Bool}
    (hslot : b.slots[index]? = some slot) (hpath : slot.branch.path = .ofBits (bits ++ tail))
    (link : Link) : b.descendFrom link index (.ofBits bits) = .ok ⟨[], .obstructed⟩ := by
  rw [Builder.descendFrom, hslot]
  simp [hpath, CommonPrefix.of_ofBits, CommonPrefix.sharedList_append_left]

/-- A path that parts from a branch inside the branch's path arrives at a fork. -/
theorem descendFrom_of_fork {index : Nat} {slot : Slot f} {common rest tail : List Bool} {s : Bool}
    (hslot : b.slots[index]? = some slot)
    (hpath : slot.branch.path = .ofBits (common ++ (!s) :: tail)) (link : Link) :
    b.descendFrom link index (.ofBits (common ++ s :: rest)) =
      .ok ⟨[], .fork index link ⟨.ofBits common, common.length⟩ (.ofBits (s :: rest))⟩ := by
  rw [Builder.descendFrom, hslot]
  cases hb : slot.branch <;> rw [hb] at hpath <;>
    simp_all [Pending.path, CommonPrefix.of_ofBits, CommonPrefix.sharedList_fork, Path.ofBits_inj,
      Path.skip_ofBits]

/-- A path that runs beyond a leaf arrives there. -/
theorem descendFrom_of_leaf {index : Nat} {segment rest : List Bool} {s : Bool} {value : f.Value}
    {cache : Option (Branch f)}
    (hslot : b.slots[index]? = some ⟨.leaf (.ofBits segment) value, cache⟩) (link : Link) :
    b.descendFrom link index (.ofBits (segment ++ s :: rest)) =
      .ok ⟨[], .throughLeaf (.ofBits segment)⟩ := by
  rw [Builder.descendFrom, hslot]
  simp [Pending.path, CommonPrefix.of_ofBits, CommonPrefix.sharedList_append_right,
    Path.ofBits_inj]

/-- A path that runs beyond a node passes it. A node has bits of its own, so what remains of the
path is shorter. -/
theorem descendFrom_of_node {index left right : Nat} {segment rest : List Bool} {s : Bool}
    {cache : Option (Branch f)}
    (hslot : b.slots[index]? = some ⟨.node (.ofBits segment) left right, cache⟩)
    (hne : segment ≠ []) (link : Link) :
    b.descendFrom link index (.ofBits (segment ++ s :: rest)) =
      (b.descendFrom (.child index s) (if s then right else left) (.ofBits (s :: rest))).map
        (·.after ⟨index, .ofBits segment, s⟩) := by
  have hlt : (Path.ofBits (s :: rest)).code < (Path.ofBits (segment ++ s :: rest)).code := by
    obtain ⟨c, segment, rfl⟩ := List.exists_cons_of_ne_nil hne
    exact Path.code_ofBits_lt_append c segment (s :: rest)
  rw [Builder.descendFrom, hslot]
  simp [Pending.path, CommonPrefix.of_ofBits, CommonPrefix.sharedList_append_right,
    Path.ofBits_inj, Path.skip_ofBits, hlt]

/-- A builder that stores a layout descends through its slots as through the layout. -/
theorem Stored.descendFrom {L : Layout f} {side : Bool} (h : L.Stored algorithm b.slots)
    (hf : L.Formed side) (link : Link) (bits : List Bool) :
    ∃ d, b.descendFrom link L.index (.ofBits bits) = .ok d ∧ L.Arrives link bits d := by
  induction L generalizing side link bits with
  | leaf index segment value =>
    obtain ⟨cache, hslot⟩ := h.slot
    rcases prefix_or_beyond_or_fork bits segment with
      ⟨tail, rfl⟩ | ⟨s, rest, rfl⟩ | ⟨common, s, rest, tail, rfl, rfl⟩
    · exact ⟨_, descendFrom_of_obstructed hslot rfl link, .obstructed rfl⟩
    · exact ⟨_, descendFrom_of_leaf hslot link, .throughLeaf⟩
    · exact ⟨_, descendFrom_of_fork hslot rfl link, .fork rfl⟩
  | node index segment children ih =>
    obtain ⟨cache, hslot⟩ := h.slot
    rcases prefix_or_beyond_or_fork bits segment with
      ⟨tail, rfl⟩ | ⟨s, rest, rfl⟩ | ⟨common, s, rest, tail, rfl, rfl⟩
    · exact ⟨_, descendFrom_of_obstructed hslot rfl link, .obstructed rfl⟩
    -- Only a node that has bits of its own may be passed: without them the path would not shrink.
    · obtain ⟨d, hd, hp⟩ := ih s (h.child s) (hf.2 s) (.child index s) (s :: rest)
      have hne : segment ≠ [] := by
        rintro rfl
        cases hf.1
      refine ⟨_, ?_, .pass hp⟩
      apply (descendFrom_of_node hslot hne link).trans
      rw [index_node, index_ite, hd]
      rfl
    · exact ⟨_, descendFrom_of_fork hslot rfl link, .fork rfl⟩

/-! ## What an arrival means -/

theorem Arrives.arrival_ne_vacancy {L : Layout f} {link : Link} {bits : List Bool} {d : Descent}
    (h : L.Arrives link bits d) {s : Bool} : d.arrival ≠ .vacancy s := by
  induction h with
  | obstructed => simp
  | throughLeaf => simp
  | fork => simp
  | pass _ ih => exact ih

/-- The arrival of a descent says how the new key stands to the keys under the layout. -/
theorem Arrives.agrees {L : Layout f} {side : Bool} {link : Link} {bits : List Bool} {d : Descent}
    (h : L.Arrives link bits d) (hf : L.Formed side) : d.arrival.Agrees bits L.entries := by
  induction h generalizing side with
  | @obstructed L link bits tail h =>
    obtain ⟨e, he⟩ := List.exists_mem_of_ne_nil _ L.entries_ne_nil
    refine ⟨e, he, ?_⟩
    exact (h ▸ List.prefix_append bits tail).trans (segment_prefix_key he)
  | @throughLeaf index segment rest value link s =>
    have hn : ¬ segment ++ s :: rest <+: segment := by
      intro hp
      have := hp.length_le
      simp only [List.length_append, List.length_cons] at this
      omega
    simpa [Arrival.Agrees, entries] using hn
  | @fork L link common rest tail s h =>
    intro e he
    obtain ⟨more, hmore⟩ := segment_prefix_key he
    rw [← hmore, h, List.append_assoc, Apart.append_left_iff]
    exact Apart.of_head_ne rfl rfl (by cases s <;> decide)
  | @pass index segment rest children link s d h ih =>
    -- The keys under the other child begin with the other bit, and the new key is apart from them.
    have hd : d.arrival.Agrees (s :: rest)
        ((children false).entries ++ (children true).entries) := by
      apply (ih (hf.2 s)).of_subset
      · cases s
        · exact List.subset_append_left _ _
        · exact List.subset_append_right _ _
      · intro e he
        have hside : ∃ t, e ∈ (children t).entries := by
          rcases List.mem_append.1 he with he | he
          · exact ⟨_, he⟩
          · exact ⟨_, he⟩
        obtain ⟨t, ht⟩ := hside
        by_cases hst : s = t
        · subst hst
          exact .inl ht
        · exact .inr (Apart.of_head_ne rfl ((hf.2 t).head_key ht) hst)
    exact hd.under segment

end Layout

end MerkleTrie
