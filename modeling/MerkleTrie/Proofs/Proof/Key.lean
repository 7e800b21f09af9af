-- SUMMARY: The one query that a proof includes, spelled by the paths of its steps, and verification as a single pass over them.
import MerkleTrie.Proofs.Proof.Verify

/-! # The key of a proof

Whatever its steps are, a proof includes at most one query: the one whose key bits
are those of all step paths from the outermost inwards. On numbers the key is put
together from the innermost outwards, with a shift and a mask for each step, and in
the same pass that hashes; the path of the first step is in it only if that step
discloses a branch. `Walk` is this pass, and it comes to the same verdict
(`verify_eq_walked`). -/

namespace MerkleTrie

variable {f : Flavour}

namespace Path

/-- Appending shifts the one number past the key bits of the other and masks the sentinel of the
other away. -/
theorem append_eq_or (p q : Path) :
    p.append q = ⟨q.code <<< p.length ||| p.code &&& (1 <<< p.length - 1)⟩ := by
  have hbelow := mod_lt_sentinel p.code p.length
  rw [Nat.one_shiftLeft] at hbelow
  rw [append, ← mod_eq_and_mask, Nat.one_shiftLeft, Nat.shiftLeft_add_eq_or_of_lt hbelow]

/-- The key bits of a path in front of those of a key. A path without a sentinel adds nothing. -/
def prepend (path key : Path) : Path := (path.withSuffix? key).getD key

theorem prepend_of_ne_zero {path : Path} (h : path ≠ .zero) (key : Path) :
    path.prepend key = path.append key := by
  have hzero : path.isZero = false := by
    rw [← ofBits_bits h, isZero_ofBits]
  rw [prepend, withSuffix?, hzero]
  rfl

end Path

/-! ## One pass -/

/-- What one pass over the steps of a proof carries along. -/
structure Walk (f : Flavour) where
  /-- The key that the paths of the steps behind spell. -/
  key : Path
  /-- The commitment to what has been reached: a branch, or a pair of branches. -/
  current : Option (Commitment f)

namespace Walk

/-- The start at the branch that the first step discloses, with its path for the key. -/
def start (algorithm : Algorithm) (first : Step f) : Walk f :=
  match first.terminal with
  | none => ⟨.root, none⟩
  | some terminal => ⟨first.path.prepend .root, some (terminal.commitment algorithm first.path)⟩

/-- From the pair reached to the node over it. -/
def enter (algorithm : Algorithm) (w : Walk f) (step : Step f) : Walk f :=
  ⟨step.path.prepend w.key, w.current.map (.ofNode algorithm step.path)⟩

/-- From the branch reached to the pair that it forms with its sibling. -/
def join (algorithm : Algorithm) (w : Walk f) (step : Step f) : Walk f :=
  { w with
    current := some (if step.path.isRight then .ofPair algorithm step.sibling w.current
      else .ofPair algorithm w.current step.sibling) }

def onward (algorithm : Algorithm) (w : Walk f) (step : Step f) : Walk f :=
  (w.enter algorithm step).join algorithm step

/-- The whole pass, from the first step outwards. -/
def along (algorithm : Algorithm) (first : Step f) (outer : List (Step f)) : Walk f :=
  outer.foldl (onward algorithm) ((start algorithm first).join algorithm first)

theorem join_start (algorithm : Algorithm) (first : Step f) :
    (start algorithm first).join algorithm first =
      ⟨(start algorithm first).key, some (first.lift algorithm none)⟩ := by
  rcases first with ⟨path, sibling, _ | terminal⟩ <;> rfl

/-- Keys and commitments do not meddle in a pass: it is two folds side by side. -/
theorem foldl_onward (algorithm : Algorithm) (outer : List (Step f)) (key : Path)
    (reached : Commitment f) :
    outer.foldl (onward algorithm) ⟨key, some reached⟩ =
      ⟨outer.foldl (fun key step => step.path.prepend key) key,
        outer.foldl (fun below step => some (step.lift algorithm below)) (some reached)⟩ := by
  induction outer generalizing key reached with
  | nil => rfl
  | cons step outer ih => exact ih (step.path.prepend key) (step.lift algorithm (some reached))

end Walk

namespace Proof

/-- The verdict of one pass. -/
def walked (p : Proof f) (query : Path) : Verdict :=
  match p.steps with
  | [] => .invalid
  | first :: outer =>
    if p.hasZeroStep then .invalid
    else
      let w := Walk.along p.algorithm first outer
      { valid := w.current = some p.root
        included := p.endsInLeaf && w.key == query }

theorem endsInLeaf_iff {p : Proof f} :
    p.endsInLeaf = true ↔
      ∃ first outer value, p.steps = first :: outer ∧ first.terminal = some (.leaf value) := by
  unfold endsInLeaf
  rcases p.steps with _ | ⟨⟨path, sibling, _ | (value | children)⟩, outer⟩ <;> simp

theorem current_along {p : Proof f} {first : Step f} {outer : List (Step f)}
    (hsteps : p.steps = first :: outer) :
    (Walk.along p.algorithm first outer).current = p.reached := by
  rw [Walk.along, Walk.join_start, Walk.foldl_onward, reached, hsteps, List.foldl_cons]

/-- If the first step discloses a branch, the path of that step is the end of the key. -/
theorem key_along {p : Proof f} {first : Step f} {outer : List (Step f)}
    (hsteps : p.steps = first :: outer) (hzero : ∀ step ∈ p.steps, step.path ≠ .zero)
    (hterminal : first.terminal ≠ none) (algorithm : Algorithm) :
    (Walk.along algorithm first outer).key = p.key := by
  have hstart : (Walk.start algorithm first).key = first.path.prepend .root := by
    obtain ⟨terminal, hsome⟩ := Option.ne_none_iff_exists'.1 hterminal
    rw [Walk.start, hsome]
  have hfold : (Walk.along algorithm first outer).key =
      p.steps.foldl (fun key step => step.path.prepend key) .root := by
    rw [Walk.along, Walk.join_start, Walk.foldl_onward, hsteps, List.foldl_cons, hstart]
  rw [hfold, key]
  refine List.foldl_rel (r := Eq) rfl fun step hstep key key' hkey => ?_
  rw [hkey, Path.prepend_of_ne_zero (hzero step hstep)]

/-- One pass over the steps comes to the verdict. -/
theorem verify_eq_walked (p : Proof f) (query : Path) : p.verify query = p.walked query := by
  unfold verify walked
  cases hsteps : p.steps with
  | nil => rfl
  | cons first outer =>
    cases hzero : p.hasZeroStep with
    | true => rfl
    | false =>
      have hne : ∀ step ∈ p.steps, step.path ≠ .zero := fun step hstep =>
        hasZeroStep_eq_false_iff.1 hzero step (List.mem_reverse.2 hstep)
      have hkey : (p.endsInLeaf && p.key == query) =
          (p.endsInLeaf && (Walk.along p.algorithm first outer).key == query) := by
        cases hleaf : p.endsInLeaf with
        | false => rfl
        | true =>
          obtain ⟨_, _, value, hfirst, hterminal⟩ := endsInLeaf_iff.1 hleaf
          cases hsteps.symm.trans hfirst
          rw [key_along hsteps hne (by simp [hterminal])]
      simp only [current_along hsteps, hkey]
      rfl

/-! ## The query included -/

/-- The query that is included, if any is, is the one that all paths spell. -/
theorem included_iff_key {p : Proof f} {query : Path} :
    (p.verify query).included = true ↔
      (∃ first outer value, p.steps = first :: outer ∧ first.terminal = some (.leaf value)) ∧
        (∀ step ∈ p.steps, step.path ≠ .zero) ∧
        query = .ofBits (p.steps.reverse.flatMap fun step => step.path.bits) := by
  by_cases h : p.Wellformed
  · have hne : ∀ step ∈ p.steps, step.path ≠ .zero :=
      fun step hstep => h.ne_zero step (List.mem_reverse.2 hstep)
    rw [verify_of_wellformed h, key_eq h.ne_zero, Bool.and_eq_true, beq_iff_eq, endsInLeaf_iff]
    exact and_congr_right fun _ => ⟨fun hkey => ⟨hne, hkey.symm⟩, fun hkey => hkey.2.symm⟩
  · rw [verify_of_not_wellformed h]
    refine iff_of_false Bool.false_ne_true ?_
    rintro ⟨⟨first, outer, value, hsteps, -⟩, hne, -⟩
    refine h ⟨?_, fun step hstep => hne step (List.mem_reverse.1 hstep)⟩
    rw [Proof.outer, hsteps]
    exact List.reverse_ne_nil_iff.2 (List.cons_ne_nil first outer)

/-- A proof, honest or not, includes a query if and only if it has steps, all of their paths have
their sentinels, the first step discloses a leaf, and the paths from the outermost inwards spell the
query. So it includes one query at most, and never the path without a sentinel. -/
theorem included_iff_spelled (p : Proof f) :
    (∀ query, (p.verify query).included = true ↔
      (∃ first outer value, p.steps = first :: outer ∧ first.terminal = some (.leaf value)) ∧
        (∀ step ∈ p.steps, step.path ≠ .zero) ∧
        query = .ofBits (p.steps.reverse.flatMap fun step => step.path.bits)) ∧
    (∀ query query', (p.verify query).included = true → (p.verify query').included = true →
      query = query') ∧
    (p.verify .zero).included = false := by
  refine ⟨fun query => included_iff_key, ?_, ?_⟩
  · intro query query' h h'
    rw [(included_iff_key.1 h).2.2, (included_iff_key.1 h').2.2]
  · refine Bool.eq_false_iff.2 fun h => ?_
    exact Path.ofBits_ne_zero _ (included_iff_key.1 h).2.2.symm

end Proof

end MerkleTrie
