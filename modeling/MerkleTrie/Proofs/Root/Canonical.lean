-- SUMMARY: The one trie that a set of keys has, and that every run with these accepted keys ends in it.
import MerkleTrie.Proofs.Builder.Run

/-! # The canonical trie

A set of keys of which none is a prefix of another determines a trie: a single
key is a leaf, and several are a node with their longest common prefix over the
tries of those that go on left and right. `Branch.canonical` builds it from a
ledger, with no builder. A builder ends in it whatever the order of the
insertions and whenever the root was calculated in between. -/

namespace MerkleTrie

variable {f : Flavour}

namespace Ledger

/-! ## Common prefixes and branching -/

/-- The longest common prefix of all keys. -/
def commonKey : Ledger f → List Bool
  | [] => []
  | [e] => e.1
  | e :: m => CommonPrefix.sharedList e.1 (commonKey m)

/-- The keys that go on to a side after `n` bits, with these bits taken off. -/
def continuing (n : Nat) (s : Bool) (m : Ledger f) : Ledger f :=
  (m.filter fun e => e.1[n]? = some s).map fun e => (e.1.drop n, e.2)

theorem commonKey_prefix_key {m : Ledger f} {e : Entry f} (he : e ∈ m) : m.commonKey <+: e.1 := by
  induction m with
  | nil => cases he
  | cons e' m ih =>
    cases m with
    | nil =>
      obtain rfl := List.mem_singleton.1 he
      exact List.prefix_refl _
    | cons e'' m =>
      rw [commonKey]
      · rcases List.mem_cons.1 he with rfl | he
        · exact CommonPrefix.sharedList_prefix_left _ _
        · exact (CommonPrefix.sharedList_prefix_right _ _).trans (ih he)
      · simp

theorem prefix_commonKey {m : Ledger f} {p : List Bool} (hne : m ≠ []) (h : ∀ e ∈ m, p <+: e.1) :
    p <+: m.commonKey := by
  induction m with
  | nil => exact absurd rfl hne
  | cons e m ih =>
    cases m with
    | nil => exact h e (List.mem_singleton.2 rfl)
    | cons e' m =>
      rw [commonKey]
      · refine CommonPrefix.prefix_sharedList (h e List.mem_cons_self) (ih (by simp) ?_)
        intro e'' he''
        exact h e'' (List.mem_cons_of_mem e he'')
      · simp

theorem commonKey_append_prefix_key {m : Ledger f} {e : Entry f} (he : e ∈ m) {s : Bool}
    (hs : e.1[m.commonKey.length]? = some s) : m.commonKey ++ [s] <+: e.1 := by
  obtain ⟨rest, hrest⟩ := commonKey_prefix_key he
  rw [← hrest] at hs ⊢
  rw [List.prefix_append_right_inj]
  cases rest with
  | nil => simp at hs
  | cons t rest =>
    simp only [List.getElem?_append_right (Nat.le_refl _), Nat.sub_self, List.getElem?_cons_zero,
      Option.some.injEq] at hs
    subst hs
    exact List.prefix_append [t] rest

/-- Not all keys go on to the same side after their longest common prefix. -/
theorem length_continuing_lt {m : Ledger f} (hne : m ≠ []) (s : Bool) :
    (m.continuing m.commonKey.length s).length < m.length := by
  unfold continuing
  rw [List.length_map]
  apply Nat.lt_of_le_of_ne (List.length_filter_le _ _)
  intro hall
  -- If all keys went on to the same side, the bit of that side would belong to the prefix.
  have hlonger : m.commonKey ++ [s] <+: m.commonKey := by
    refine prefix_commonKey hne fun e he => commonKey_append_prefix_key he ?_
    simpa using List.length_filter_eq_length_iff.1 hall e he
  have := hlonger.length_le
  rw [List.length_append, List.length_singleton] at this
  omega

theorem continuing_perm {m m' : Ledger f} (h : m.Perm m') (n : Nat) (s : Bool) :
    (m.continuing n s).Perm (m'.continuing n s) :=
  (h.filter _).map _

theorem continuing_append (m m' : Ledger f) (n : Nat) (s : Bool) :
    continuing n s (m ++ m') = m.continuing n s ++ m'.continuing n s := by
  simp only [continuing, List.filter_append, List.map_append]

theorem continuing_map_under (m : Ledger f) (segment : List Bool) (s : Bool) :
    continuing segment.length s (m.map (Entry.under segment)) = m.continuing 0 s := by
  simp only [continuing, List.filter_map, List.map_map]
  congr 1
  · funext e
    simp [Entry.under]
  · congr 1
    funext e
    simp [Entry.under, List.getElem?_append_right]

theorem continuing_zero {m : Ledger f} {t : Bool} (h : ∀ e ∈ m, e.1.head? = some t) (s : Bool) :
    m.continuing 0 s = if t = s then m else [] := by
  have hkeys : ∀ e ∈ m, decide (e.1[0]? = some s) = decide (t = s) := by
    intro e he
    rw [← List.head?_eq_getElem?, h e he]
    simp
  unfold continuing
  rw [List.filter_congr hkeys]
  by_cases hts : t = s <;> simp [hts]

end Ledger

/-! ## The canonical trie -/

/-- The trie of the given keys, if there are any and none is a prefix of another. -/
def Branch.canonical (algorithm : Algorithm) : Ledger f → Option (Branch f)
  | [] => none
  | [e] => some (.ofLeaf algorithm (.ofBits e.1) e.2)
  | e :: e' :: m => do
    let common := Ledger.commonKey (e :: e' :: m)
    let left ← Branch.canonical algorithm (Ledger.continuing common.length false (e :: e' :: m))
    let right ← Branch.canonical algorithm (Ledger.continuing common.length true (e :: e' :: m))
    return .ofNode algorithm (.ofBits common) left right
termination_by m => m.length
decreasing_by
  · exact Ledger.length_continuing_lt (List.cons_ne_nil _ _) false
  · exact Ledger.length_continuing_lt (List.cons_ne_nil _ _) true

/-- The root over the tries of the keys that begin with a zero bit and with a one bit. -/
def Root.canonical (algorithm : Algorithm) (m : Ledger f) : Root f :=
  .ofBranches algorithm (Branch.canonical algorithm (m.continuing 0 false))
    (Branch.canonical algorithm (m.continuing 0 true))

theorem Branch.canonical_of_two_le {m : Ledger f} (h : 2 ≤ m.length) (algorithm : Algorithm) :
    Branch.canonical algorithm m = do
      let left ← Branch.canonical algorithm (m.continuing m.commonKey.length false)
      let right ← Branch.canonical algorithm (m.continuing m.commonKey.length true)
      return .ofNode algorithm (.ofBits m.commonKey) left right := by
  match m, h with
  | e :: e' :: m, _ => rw [Branch.canonical]

/-! ## Layouts are canonical -/

namespace Layout

section Node

variable {index : Nat} {segment : List Bool} {children : Bool → Layout f} {side : Bool}
  {m : Ledger f}

theorem two_le_length_entries : 2 ≤ (node index segment children).entries.length := by
  have hl := List.length_pos_iff.2 (children false).entries_ne_nil
  have hr := List.length_pos_iff.2 (children true).entries_ne_nil
  rw [entries, List.length_map, List.length_append]
  omega

/-- The bits of a node are the longest common prefix of the keys under it. -/
theorem Formed.commonKey (hf : (node index segment children).Formed side)
    (hm : m.Perm (node index segment children).entries) : m.commonKey = segment := by
  have hkey : ∀ s, ∃ rest, m.commonKey <+: segment ++ s :: rest := by
    intro s
    obtain ⟨e, he⟩ := List.exists_mem_of_ne_nil _ (children s).entries_ne_nil
    obtain ⟨rest, hrest⟩ := List.head?_eq_some_iff.1 ((hf.2 s).head_key he)
    refine ⟨rest, ?_⟩
    rw [← hrest]
    exact Ledger.commonKey_prefix_key (hm.mem_iff.2 (mem_entries_node.2 ⟨s, e, he, rfl⟩))
  obtain ⟨rest, hl⟩ := hkey false
  obtain ⟨tail, hr⟩ := hkey true
  -- Keys on both sides bound the prefix from above, and every key begins with the node's bits.
  have hshort : m.commonKey <+: segment := by
    have hshared : CommonPrefix.sharedList (segment ++ false :: rest) (segment ++ true :: tail) =
        segment := CommonPrefix.sharedList_fork segment false rest tail
    exact hshared ▸ CommonPrefix.prefix_sharedList hl hr
  have hlong : segment <+: m.commonKey := by
    refine Ledger.prefix_commonKey ?_ fun e he => segment_prefix_key (hm.mem_iff.1 he)
    rintro rfl
    exact entries_ne_nil _ (List.perm_nil.1 hm.symm)
  exact hshort.eq_of_length_le hlong.length_le

/-- The keys of a node that go on to a side are those under its child on that side. -/
theorem Formed.continuing (hf : (node index segment children).Formed side)
    (hm : m.Perm (node index segment children).entries) (s : Bool) :
    (m.continuing segment.length s).Perm (children s).entries := by
  apply (Ledger.continuing_perm hm _ s).trans
  have hheads : ∀ t, ∀ e ∈ (children t).entries, e.1.head? = some t :=
    fun t e he => (hf.2 t).head_key he
  rw [entries, Ledger.continuing_map_under, Ledger.continuing_append,
    Ledger.continuing_zero (hheads false), Ledger.continuing_zero (hheads true)]
  cases s <;> simp

end Node

/-- The hashed form of a layout is the canonical trie of its keys, in whatever order. -/
theorem Formed.canonical {L : Layout f} {side : Bool} (hf : L.Formed side) {m : Ledger f}
    (hm : m.Perm L.entries) (algorithm : Algorithm) :
    Branch.canonical algorithm m = some (L.branch algorithm) := by
  induction L generalizing side m with
  | leaf index segment value =>
    obtain rfl := List.perm_singleton.1 hm
    rw [Branch.canonical]
    rfl
  | node index segment children ih =>
    have htwo : 2 ≤ m.length := hm.length_eq ▸ two_le_length_entries
    rw [Branch.canonical_of_two_le htwo, hf.commonKey hm,
      ih false (hf.2 false) (hf.continuing hm false), ih true (hf.2 true) (hf.continuing hm true)]
    rfl

/-- The leaves of the hashed form are the keys of the layout. -/
theorem leaves_branch (L : Layout f) (algorithm : Algorithm) :
    (L.branch algorithm).leaves = L.entries := by
  induction L with
  | leaf index segment value => simp [branch, Branch.ofLeaf, Branch.leaves, entries]
  | node index segment children ih =>
    simp only [branch, Branch.ofNode, Branch.leaves, entries, ih, Path.bits_ofBits]
    rfl

end Layout

namespace Forest

theorem Formed.canonical {r : Forest f} (hf : r.Formed) {m : Ledger f} (hm : m.Perm r.entries)
    (algorithm : Algorithm) : Root.canonical algorithm m = r.root algorithm := by
  have hside : ∀ s, Branch.canonical algorithm (m.continuing 0 s) =
      (r s).map (Layout.branch algorithm) := by
    intro s
    have hp : (m.continuing 0 s).Perm (r.entriesOn s) := by
      apply (Ledger.continuing_perm hm 0 s).trans
      rw [entries, Ledger.continuing_append, Ledger.continuing_zero (fun e => hf.head_key),
        Ledger.continuing_zero (fun e => hf.head_key)]
      cases s <;> simp
    cases hL : r s with
    | none =>
      unfold entriesOn at hp
      rw [hL] at hp
      rw [List.perm_nil.1 hp, Branch.canonical]
      rfl
    | some L =>
      rw [entriesOn_of_some hL] at hp
      exact (hf s L hL).canonical hp algorithm
  unfold Root.canonical
  rw [hside, hside]
  rfl

theorem leaves_root (r : Forest f) (algorithm : Algorithm) :
    (r.root algorithm).leaves = r.entries := by
  have hside : ∀ s, Root.slotLeaves ((r s).map (Layout.branch algorithm)) = r.entriesOn s := by
    intro s
    cases hL : r s with
    | none =>
      unfold entriesOn
      rw [hL]
      rfl
    | some L =>
      rw [entriesOn_of_some hL]
      exact L.leaves_branch algorithm
  unfold root Root.leaves Root.ofBranches
  rw [hside, hside]
  rfl

end Forest

/-! ## Runs -/

namespace Builder

/-- The accepted leaves of a run, by the bits of their keys. -/
def acceptedKeys (b : Builder f) (operations : List (Operation f)) : Ledger f :=
  (b.accepted operations).map fun leaf => (leaf.1.bits, leaf.2)

/-- The keys of the forest that a run ends in are the accepted ones. -/
theorem perm_acceptedKeys {b : Builder f} {r : Forest f} {operations : List (Operation f)}
    (h : (r.entries.map Entry.leaf).Perm (b.accepted operations)) :
    (b.acceptedKeys operations).Perm r.entries := by
  apply (h.map _).symm.trans
  rw [List.map_map]
  refine List.Perm.of_eq (List.map_id'' ?_ _)
  intro e
  simp [Entry.leaf]

/-- The root that a run ends in is the canonical one of the accepted leaves, and two runs end in
the same root if and only if they hash with the same algorithm and accept the same leaves. -/
theorem calculateRoot_canonical (algorithm algorithm' : Algorithm)
    (operations operations' : List (Operation f)) :
    let start : Builder f := { algorithm }
    let start' : Builder f := { algorithm := algorithm' }
    ∃ c c', (start.run operations).calculateRoot = .ok c ∧
      (start'.run operations').calculateRoot = .ok c' ∧
      c.root = Root.canonical algorithm (start.acceptedKeys operations) ∧
      c'.root = Root.canonical algorithm' (start'.acceptedKeys operations') ∧
      (c.root = c'.root ↔ algorithm = algorithm' ∧
        ∀ leaf, leaf ∈ start.accepted operations ↔ leaf ∈ start'.accepted operations') := by
  intro start start'
  obtain ⟨r, h, hp, ha⟩ := run_represents algorithm operations
  obtain ⟨r', h', hp', ha'⟩ := run_represents algorithm' operations'
  obtain ⟨c, hc, hroot, -, -⟩ := h.calculateRoot
  obtain ⟨c', hc', hroot', -, -⟩ := h'.calculateRoot
  rw [ha] at hroot
  rw [ha'] at hroot'
  have hcanonical := h.formed.canonical (perm_acceptedKeys hp) algorithm
  have hcanonical' := h'.formed.canonical (perm_acceptedKeys hp') algorithm'
  refine ⟨c, c', hc, hc', hroot.trans hcanonical.symm, hroot'.trans hcanonical'.symm, ?_⟩
  rw [hroot, hroot']
  constructor
  · intro heq
    -- A root holds its leaves, so they can be read back from it.
    have hentries : r.entries = r'.entries := by
      rw [← r.leaves_root algorithm, heq, r'.leaves_root]
    refine ⟨congrArg Root.algorithm heq, fun leaf => ?_⟩
    rw [← hp.mem_iff, ← hp'.mem_iff, hentries]
  · rintro ⟨rfl, hleaves⟩
    have hsame : (start.accepted operations).Perm (start'.accepted operations') :=
      (List.perm_ext_iff_of_nodup (hp.nodup_iff.1 h.formed.prefixFree.nodup_leaves)
        (hp'.nodup_iff.1 h'.formed.prefixFree.nodup_leaves)).2 hleaves
    have hkeys : (start.acceptedKeys operations).Perm r'.entries :=
      (hsame.map _).trans (perm_acceptedKeys hp')
    rw [← hcanonical, h'.formed.canonical hkeys]

end Builder

end MerkleTrie
