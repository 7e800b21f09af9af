-- SUMMARY: Proofs made by the root that a run ends in: they are valid for every query and include exactly the accepted leaves.
import MerkleTrie.Proofs.Root.Prove

/-! # Honest proofs

A query that is the key of a leaf lands in that leaf, and what a query lands in
is a leaf of the trie. With what `Forest.Formed.prove_spec` says of the proofs a
root makes, that settles what a check of such a proof can say after any run. -/

namespace MerkleTrie

variable {f : Flavour}

namespace Layout

variable {algorithm : Algorithm} {side : Bool} {L : Layout f} {e : Entry f}

/-- What a query lands in is a leaf of the layout. -/
theorem mem_of_landing {bits : List Bool} (h : (L.branch algorithm).landing bits = some e) :
    e ∈ L.entries := by
  induction L generalizing bits e with
  | leaf index segment value =>
    obtain rfl := Option.some.inj h
    simp [entries]
  | node index segment children ih =>
    rcases beyond_or_stop bits segment with ⟨s, rest, rfl⟩ | hstop
    · rw [landing_beyond, Option.map_eq_some_iff] at h
      obtain ⟨e', he', rfl⟩ := h
      exact mem_entries_node.2 ⟨s, e', ih s he', rfl⟩
    · rw [landing_stop hstop] at h
      cases h

/-- The key of a leaf lands in that leaf. -/
theorem landing_of_mem (hf : L.Formed side) (h : e ∈ L.entries) :
    (L.branch algorithm).landing e.1 = some e := by
  induction L generalizing side e with
  | leaf index segment value =>
    obtain rfl := List.mem_singleton.1 h
    simp [branch, Branch.ofLeaf, Branch.landing]
  | node index segment children ih =>
    obtain ⟨s, e', he', rfl⟩ := mem_entries_node.1 h
    obtain ⟨rest, hrest⟩ := List.head?_eq_some_iff.1 ((hf.2 s).head_key he')
    have hchild := ih s (hf.2 s) he'
    rw [hrest] at hchild
    rw [Entry.under_key, hrest, landing_beyond, hchild]
    rfl

end Layout

namespace Forest

variable {r : Forest f}

/-- What a query lands in is a leaf of the forest on the side of the query. -/
theorem mem_of_landing {algorithm : Algorithm} {query : Path} {e : Entry f}
    (h : (r.root algorithm).landing query = some e) :
    ∃ L, r query.isRight = some L ∧ e ∈ L.entries := by
  unfold Root.landing at h
  rw [child_root] at h
  cases hL : r query.isRight with
  | none =>
    rw [hL] at h
    cases h
  | some L =>
    rw [hL] at h
    exact ⟨L, rfl, Layout.mem_of_landing h⟩

/-- A query lands in a leaf with itself as key if and only if the forest has that leaf. -/
theorem Formed.landing_iff (hf : r.Formed) (algorithm : Algorithm) (leaf : Path × f.Value) :
    ((r.root algorithm).landing leaf.1).map Entry.leaf = some leaf ↔
      leaf ∈ r.entries.map Entry.leaf := by
  rw [Option.map_eq_some_iff, List.mem_map]
  constructor
  · rintro ⟨e, he, hleaf⟩
    obtain ⟨L, hL, heL⟩ := mem_of_landing he
    exact ⟨e, mem_entries.2 ⟨_, L, hL, heL⟩, hleaf⟩
  · rintro ⟨e, he, rfl⟩
    obtain ⟨s, L, hL, he⟩ := mem_entries.1 he
    obtain ⟨rest, hrest⟩ := List.head?_eq_some_iff.1 ((hf s L hL).head_key he)
    refine ⟨e, ?_, rfl⟩
    -- The first bit of its key puts the query on the side where the leaf is.
    have hside : e.leaf.1.isRight = s := by rw [Entry.leaf, hrest, Path.isRight_cons]
    rw [Root.landing, child_root, hside, hL, Entry.leaf, Path.bits_ofBits]
    exact Layout.landing_of_mem (hf s L hL) he

end Forest

namespace Builder

/-- After any run, the proof that the root makes for a query is valid, whatever it is checked
against, and includes exactly the key of the leaf where its query lands. Checked against its own
query, it includes it exactly if some accepted insertion stored a leaf there, and then its first
step discloses what was stored. -/
theorem prove_verify (algorithm : Algorithm) (operations : List (Operation f)) :
    let start : Builder f := { algorithm }
    ∃ c, (start.run operations).calculateRoot = .ok c ∧
      (∀ query query', ((c.root.prove query).verify query').valid = true ∧
        (((c.root.prove query).verify query').included = true ↔
          ∃ value, (c.root.landing query).map Entry.leaf = some (query', value))) ∧
      (∀ query, ((c.root.prove query).verify query).included = true ↔
        ∃ value, (query, value) ∈ start.accepted operations) ∧
      ∀ query value, (query, value) ∈ start.accepted operations →
        ∃ step outer, (c.root.prove query).steps = step :: outer ∧
          step.terminal = some (.leaf value) := by
  intro start
  obtain ⟨r, h, hp, ha⟩ := run_represents algorithm operations
  obtain ⟨c, hc, hroot, -, -⟩ := h.calculateRoot
  rw [ha] at hroot
  have hincluded : ∀ query query', ((c.root.prove query).verify query').included = true ↔
      ∃ value, (c.root.landing query).map Entry.leaf = some (query', value) := by
    intro query query'
    obtain ⟨hwf, -, hleaf⟩ := h.formed.prove_spec algorithm query
    rw [hroot, Proof.included_iff, hleaf]
    exact and_iff_right hwf
  have haccepted : ∀ leaf : Path × f.Value,
      (c.root.landing leaf.1).map Entry.leaf = some leaf ↔ leaf ∈ start.accepted operations := by
    intro leaf
    rw [hroot, h.formed.landing_iff algorithm leaf, hp.mem_iff]
  refine ⟨c, hc, ?_, ?_, ?_⟩
  · intro query query'
    refine ⟨?_, hincluded query query'⟩
    obtain ⟨hwf, hascend, -⟩ := h.formed.prove_spec algorithm query
    rw [hroot]
    exact Proof.valid_iff.2 ⟨hwf, hascend⟩
  · intro query
    rw [hincluded]
    exact exists_congr fun value => haccepted (query, value)
  · intro query value hmem
    obtain ⟨-, -, hleaf⟩ := h.formed.prove_spec algorithm query
    rw [← hroot] at hleaf
    have hlanding := (haccepted (query, value)).2 hmem
    rw [← hleaf, Option.map_eq_some_iff] at hlanding
    obtain ⟨e, he, heq⟩ := hlanding
    obtain ⟨step, outer, hsteps, hterminal⟩ := Proof.first_of_leaf he
    refine ⟨step, outer, hsteps, ?_⟩
    rw [hterminal, show e.2 = value from congrArg Prod.snd heq]

end Builder

end MerkleTrie
