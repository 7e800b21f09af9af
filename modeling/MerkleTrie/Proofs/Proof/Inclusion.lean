-- SUMMARY: A successful check shows a leaf of the trie, unless digests collide or a byte string is misread.
import MerkleTrie.Proofs.Hash.Preimages
import MerkleTrie.Proofs.Proof.Ascent
import MerkleTrie.Proofs.Proof.Recut

/-! # Inclusion

A proof that discloses a leaf is compared with the forest from the root inwards:
where digests do not mislead, each step stands for the branch that the forest has
there, and the innermost for the leaf itself (`Forest.mem_of_leaf`). A trie hashes
digests of its own algorithm only, and a check hashes one in every pair and node,
so the only digests that mislead are those of the kinds in `Kind.Confusable`. Such
a misreading is no collision, and in either flavour there are proofs that make use
of it. -/

namespace MerkleTrie

variable {f : Flavour} {algorithm : Algorithm}

/-! ## Algorithms of the digests -/

theorem Layout.algorithm_commitment (L : Layout f) (algorithm : Algorithm) :
    (L.branch algorithm).commitment.hash.algorithm = algorithm := by
  cases L <;> rfl

theorem Layout.native_inputs (L : Layout f) (algorithm : Algorithm) :
    ∀ x ∈ (L.branch algorithm).inputs, x.Native algorithm := by
  induction L with
  | leaf index segment value =>
    intro x hx
    obtain rfl := List.mem_singleton.1 hx
    trivial
  | node index segment children ih =>
    intro x hx
    simp only [branch, Branch.ofNode, Branch.inputs, List.mem_cons, List.mem_append] at hx
    rcases hx with rfl | rfl | hx | hx
    · rfl
    · refine ⟨?_, ?_⟩ <;> rintro c ⟨⟩
      · exact (children false).algorithm_commitment algorithm
      · exact (children true).algorithm_commitment algorithm
    · exact ih false x hx
    · exact ih true x hx

/-- A trie hashes digests of its own algorithm only. -/
theorem Forest.native_inputs (r : Forest f) (algorithm : Algorithm) :
    ∀ x ∈ (r.root algorithm).inputs, x.Native algorithm := by
  have hside : ∀ s, ∀ c ∈ ((r s).map (Layout.branch algorithm)).map Branch.commitment,
      c.hash.algorithm = algorithm := by
    intro s c hc
    obtain ⟨b, hb, rfl⟩ := Option.map_eq_some_iff.1 hc
    obtain ⟨L, -, rfl⟩ := Option.map_eq_some_iff.1 hb
    exact L.algorithm_commitment algorithm
  intro x hx
  rcases mem_inputs.1 hx with rfl | ⟨s, L, -, hx⟩
  · exact ⟨hside false, hside true⟩
  · exact L.native_inputs algorithm x hx

theorem HashInput.anchored_beside {s : Bool} {c : Commitment f} (hc : c.hash.algorithm = algorithm)
    (sibling : Option (Commitment f)) : (beside s (some c) sibling).Anchored algorithm := by
  cases s with
  | false => exact .inl ⟨c, rfl, hc⟩
  | true => exact .inr ⟨c, rfl, hc⟩

namespace Step

theorem algorithm_ascend {steps : List (Step f)} {c : Commitment f}
    (h : ascend algorithm steps = some c) : c.hash.algorithm = algorithm := by
  cases steps with
  | nil => cases h
  | cons step inner =>
    obtain rfl := Option.some.inj h
    exact algorithm_lift ..

/-- Steps that disclose a leaf hash a digest of the algorithm in every pair and node. -/
theorem anchored_inputs (algorithm : Algorithm) {steps : List (Step f)} {e : Entry f}
    (h : leaf steps = some e) :
    ∀ y ∈ inputs algorithm steps, y.Anchored algorithm := by
  induction steps generalizing e with
  | nil => cases h
  | cons step inner ih =>
    intro y hy
    simp only [inputs, List.mem_cons, List.mem_append, Option.mem_toList] at hy
    cases hbelow : ascend algorithm inner with
    | none =>
      cases inner with
      | cons step' inner' => cases hbelow
      | nil =>
        rcases step with ⟨path, sibling, _ | (value | children)⟩
        · cases h
        · rcases hy with rfl | hy | hy
          · exact HashInput.anchored_beside rfl sibling
          · obtain rfl := Option.some.inj hy
            trivial
          · cases hy
        · cases h
    | some below =>
      have halgorithm := algorithm_ascend hbelow
      have hinner : inner ≠ [] := by
        rintro rfl
        cases hbelow
      rw [leaf_cons step hinner, Option.map_eq_some_iff] at h
      obtain ⟨e', he', -⟩ := h
      rw [hbelow] at hy
      rcases hy with rfl | hy | hy
      · exact HashInput.anchored_beside rfl step.sibling
      · obtain rfl := Option.some.inj hy
        exact halgorithm
      · exact ih he' y hy

end Step

/-! ## Leaves that a forest has -/

namespace Forest

variable {r : Forest f}

/-- If digests do not mislead, the leaf that steps disclose is in the forest they lead up to. -/
theorem mem_of_leaf {steps : List (Step f)}
    (hfaithful : HashInput.Faithful algorithm (r.root algorithm).inputs
      (Step.inputs algorithm steps))
    (hhash : (Step.ascend algorithm steps).map Commitment.hash = some (r.root algorithm).hash)
    {e : Entry f} (hleaf : Step.leaf steps = some e) : e ∈ r.entries := by
  induction steps generalizing r e with
  | nil => cases hhash
  | cons step inner ih =>
    have hhash := Option.some.inj hhash
    rcases eq_or_ne inner [] with rfl | hinner
    · have hown := own_of_hash hfaithful hhash
      rcases step with ⟨path, sibling, _ | (value | children)⟩
      · cases hleaf
      · cases hL : r path.isRight with
        | none =>
          rw [hL] at hown
          cases hown
        | some L =>
          rw [hL] at hown
          have hinput := ownInput_of_own hfaithful hL hown
          obtain rfl := Option.some.inj hleaf
          cases L with
          | leaf index segment value' =>
            cases hinput
            exact mem_entries.2 ⟨_, _, hL, by simp [Layout.entries, Step.spelled]⟩
          | node => cases hinput
      · cases hleaf
    · obtain ⟨index, segment, children, hL, hpath, hascend⟩ :=
        node_of_ascend hinner hfaithful hhash
      rw [Step.leaf_cons step hinner, Option.map_eq_some_iff] at hleaf
      obtain ⟨e', he', rfl⟩ := hleaf
      have hmem := ih (faithful_ofChildren hfaithful hL) (congrArg (Option.map _) hascend) he'
      obtain ⟨s, hs⟩ := Layout.mem_entries_ofChildren.1 hmem
      rw [hpath, Path.bits_ofBits]
      exact mem_entries.2 ⟨_, _, hL, Layout.mem_entries_node.2 ⟨s, e', hs, rfl⟩⟩

/-- A successful check against the hash of a forest shows a leaf of it, with the value that the
first step discloses, unless digests collide or a byte string is misread. -/
theorem mem_of_successful (r : Forest f) {p : Proof f} {query : Path}
    (hroot : p.root.hash = (r.root algorithm).hash)
    (hshort : ∀ y ∈ p.inputs, y.Short)
    (h : (p.verify query).successful = true) :
    HashInput.Collides algorithm ((r.root algorithm).inputs ++ p.inputs) ∨
      HashInput.Misread (r.root algorithm).inputs p.inputs ∨
      ∃ value step outer, (query, value) ∈ r.entries.map Entry.leaf ∧ p.steps = step :: outer ∧
        step.terminal = some (.leaf value) := by
  obtain ⟨hvalid, hincluded⟩ := Bool.and_eq_true_iff.1 h
  obtain ⟨-, hascend⟩ := Proof.valid_iff.1 hvalid
  obtain ⟨-, value, hleaf⟩ := Proof.included_iff.1 hincluded
  obtain ⟨e, he, heq⟩ := Option.map_eq_some_iff.1 hleaf
  have halgorithm : p.algorithm = algorithm := by
    unfold Proof.algorithm
    rw [hroot]
    rfl
  have hanchored := Step.anchored_inputs p.algorithm he
  unfold Proof.inputs at hshort ⊢
  rw [halgorithm] at hascend hanchored hshort ⊢
  rcases HashInput.faithful_or_misread (r.native_inputs algorithm) hanchored hshort with
    hcollides | hmisread | hfaithful
  · exact .inl hcollides
  · exact .inr (.inl hmisread)
  · have hhash : (Step.ascend algorithm p.outer).map Commitment.hash =
        some (r.root algorithm).hash := by
      rw [hascend, ← hroot]
      rfl
    have hmem := mem_of_leaf hfaithful hhash he
    obtain ⟨step, outer, hsteps, hterminal⟩ := Proof.first_of_leaf he
    refine .inr (.inr ⟨value, step, outer, heq ▸ List.mem_map_of_mem hmem, hsteps, ?_⟩)
    rw [hterminal, show e.2 = value from congrArg Prod.snd heq]

end Forest

/-! ## Runs -/

namespace Builder

/-- After any run, a successful check of a proof with the hash of the root shows an accepted leaf,
with the value that the first step discloses, unless digests collide or a byte string is misread. -/
theorem accepted_of_successful (algorithm : Algorithm) (operations : List (Operation f)) :
    let start : Builder f := { algorithm }
    ∃ c, (start.run operations).calculateRoot = .ok c ∧
      ∀ p : Proof f, (∀ y ∈ p.inputs, y.Short) →
        p.root.hash = c.root.hash → ∀ query, (p.verify query).successful = true →
          HashInput.Collides algorithm (c.root.inputs ++ p.inputs) ∨
            HashInput.Misread c.root.inputs p.inputs ∨
            ∃ value step outer, (query, value) ∈ start.accepted operations ∧
              p.steps = step :: outer ∧ step.terminal = some (.leaf value) := by
  intro start
  obtain ⟨r, c, hc, hroot, -, hp⟩ := calculateRoot_run algorithm operations
  refine ⟨c, hc, ?_⟩
  rw [hroot]
  intro p hshort hhash query hsuccessful
  rcases r.mem_of_successful hhash hshort hsuccessful with
    hcollides | hmisread | ⟨value, step, outer, hmem, hdisclosed⟩
  · exact .inl hcollides
  · exact .inr (.inl hmisread)
  · exact .inr (.inr ⟨value, step, outer, hp.mem_iff.1 hmem, hdisclosed⟩)

/-- After any run of a plain builder, a successful check of a proof with the hash of the root shows
an accepted leaf, with the value that the first step discloses, unless digests collide or a byte
string is misread. But where the first byte of an accepted value keeps the side of its leaf, the
proof that the root makes for the leaf can be recut into a successful one for a key that was never
accepted. -/
theorem accepted_of_successful_plain (algorithm : Algorithm)
    (operations : List (Operation .plain)) :
    let start : Builder .plain := { algorithm }
    ∃ c, (start.run operations).calculateRoot = .ok c ∧
      (∀ p : Proof .plain, p.root.hash = c.root.hash → ∀ query,
        (p.verify query).successful = true →
          HashInput.Collides algorithm (c.root.inputs ++ p.inputs) ∨
            HashInput.Misread c.root.inputs p.inputs ∨
            ∃ value step outer, (query, value) ∈ start.accepted operations ∧
              p.steps = step :: outer ∧ step.terminal = some (.leaf value)) ∧
      ∀ (key : Path) (b : UInt8) (rest : Bytes), (key, b :: rest) ∈ start.accepted operations →
        ∀ step outer, (c.root.prove key).steps = step :: outer →
          step.path.isRight = b.toNat.testBit 0 →
            let p : Proof .plain := ⟨c.root.commitment, step.recut b rest :: outer⟩
            (p.verify p.key).successful = true ∧
              ∀ value, (p.key, value) ∉ start.accepted operations := by
  intro start
  obtain ⟨c, hc, hsound⟩ := accepted_of_successful algorithm operations
  obtain ⟨c', hc', hrecut⟩ := successful_of_recut algorithm operations
  obtain rfl : c = c' := Except.ok.inj (hc.symm.trans hc')
  refine ⟨c, hc, fun p => hsound p ?_, hrecut⟩
  -- No byte string of a plain trie is a list.
  intro y _ hf
  cases hf

/-- In a plain trie with one leaf, the first byte of the value may be taken for the end of a longer
path. A proof for that path is successful, although no leaf is there and no digests collide. -/
theorem exists_successful_of_leaf :
    let start : Builder .plain := {}
    let operations : List (Operation .plain) := [.insert ⟨2⟩ [4]]
    ∃ c, (start.run operations).calculateRoot = .ok c ∧
      let p : Proof .plain := ⟨c.root.commitment, [⟨⟨516⟩, none, some (.leaf [])⟩]⟩
      (p.verify ⟨516⟩).successful = true ∧
      (∀ leaf ∈ start.accepted operations, leaf.1 ≠ ⟨516⟩) ∧
      ¬ HashInput.Collides .sha256 (c.root.inputs ++ p.inputs) :=
  exists_ok_of_any (by decide +kernel)

/-- After any run of a builder with counters, a successful check of a proof with the hash of the
root shows an accepted leaf, with the value and the counter that the first step discloses, unless
digests collide or the bytes of a leaf are misread as those of a node or conversely. For that the
path of some node must fill whole bytes together with its sentinel. Byte strings must be short
enough for the header of a list. -/
theorem accepted_of_successful_sum (algorithm : Algorithm) (operations : List (Operation .sum)) :
    let start : Builder .sum := { algorithm }
    ∃ c, (start.run operations).calculateRoot = .ok c ∧
      ∀ p : Proof .sum, (∀ y ∈ p.inputs, y.Short) →
        p.root.hash = c.root.hash → ∀ query, (p.verify query).successful = true →
          HashInput.Collides algorithm (c.root.inputs ++ p.inputs) ∨
            (HashInput.Misread c.root.inputs p.inputs ∧
              ∃ path h, .node path h ∈ c.root.inputs ++ p.inputs ∧ path.length % 8 = 7) ∨
            ∃ value step outer, (query, value) ∈ start.accepted operations ∧
              p.steps = step :: outer ∧ step.terminal = some (.leaf value) := by
  intro start
  obtain ⟨c, hc, hsound⟩ := accepted_of_successful algorithm operations
  refine ⟨c, hc, ?_⟩
  intro p hshort hhash query hsuccessful
  rcases hsound p hshort hhash query hsuccessful with hcollides | hmisread | haccepted
  · exact .inl hcollides
  · exact .inr (.inl ⟨hmisread, hmisread.exists_node hshort⟩)
  · exact .inr (.inr haccepted)

/-- In a trie with one leaf, a value that was made for it may be taken for the digest of a pair of
children, with a leaf of any value under it. The proof of that leaf is successful, although no leaf
is there and no digests collide. -/
theorem exists_successful_of_counted_leaf :
    let start : Builder .sum := {}
    let inner : Step .sum := ⟨⟨2⟩, none, some (.leaf ⟨[0x5a], 1⟩)⟩
    let value : CountedValue := ⟨0 :: (inner.lift .sha256 none).hash.bytes.take 31, 1⟩
    let operations : List (Operation .sum) := [.insert ⟨2⟩ value]
    ∃ c, (start.run operations).calculateRoot = .ok c ∧
      let p : Proof .sum := ⟨c.root.commitment, [inner, ⟨⟨0xe302a000⟩, none, none⟩]⟩
      (p.verify ⟨5956083712⟩).successful = true ∧
      (∀ leaf ∈ start.accepted operations, leaf.1 ≠ ⟨5956083712⟩) ∧
      ¬ HashInput.Collides .sha256 (c.root.inputs ++ p.inputs) :=
  exists_ok_of_any (by decide +kernel)

end Builder

end MerkleTrie
