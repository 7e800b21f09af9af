-- SUMMARY: Verification read from the outermost step inwards, which is the way in which the trie was descended.
import MerkleTrie.Proof.Verify
import MerkleTrie.Proofs.Ledger

/-! # Verification from the outermost step inwards

The steps of a proof are folded from the innermost outwards. The branches they
stand for lie under one another the other way round, so everything about a proof
is proved by induction from the outermost step inwards. `Step.ascend` and
`Step.spelled` are the two folds in that form. -/

namespace MerkleTrie

variable {f : Flavour}

namespace Step

/-- The commitment that steps lead up to, the outermost step first. -/
def ascend (algorithm : Algorithm) : List (Step f) → Option (Commitment f)
  | [] => none
  | step :: inner => some (step.lift algorithm (ascend algorithm inner))

theorem algorithm_lift (algorithm : Algorithm) (step : Step f) (below : Option (Commitment f)) :
    (step.lift algorithm below).hash.algorithm = algorithm := by
  unfold lift
  split <;> rfl

theorem exists_ascend (algorithm : Algorithm) {steps : List (Step f)} (h : steps ≠ []) :
    ∃ c, ascend algorithm steps = some c := by
  cases steps with
  | nil => exact absurd rfl h
  | cons step inner => exact ⟨_, rfl⟩

/-- The key bits that steps spell, the outermost step first. -/
def spelled (steps : List (Step f)) : List Bool := steps.flatMap (·.path.bits)

/-- The branch that the innermost step discloses, the outermost step first. -/
def disclosed (steps : List (Step f)) : Option (Terminal f) := steps.getLast?.bind (·.terminal)

/-- The leaf that steps disclose, with the key that they spell. -/
def leaf (steps : List (Step f)) : Option (Entry f) :=
  match disclosed steps with
  | some (.leaf value) => some (spelled steps, value)
  | _ => none

@[simp] theorem spelled_cons (step : Step f) (inner : List (Step f)) :
    spelled (step :: inner) = step.path.bits ++ spelled inner := rfl

theorem spelled_append (steps inner : List (Step f)) :
    spelled (steps ++ inner) = spelled steps ++ spelled inner :=
  List.flatMap_append

theorem disclosed_cons (step : Step f) {inner : List (Step f)} (h : inner ≠ []) :
    disclosed (step :: inner) = disclosed inner := by
  rw [disclosed, List.getLast?_cons_of_ne_nil h]
  rfl

theorem leaf_cons (step : Step f) {inner : List (Step f)} (h : inner ≠ []) :
    leaf (step :: inner) = (leaf inner).map (Entry.under step.path.bits) := by
  rw [leaf, leaf, disclosed_cons step h, spelled_cons]
  rcases disclosed inner with _ | (value | children) <;> rfl

end Step

namespace Proof

/-- The steps from the outermost inwards. -/
def outer (p : Proof f) : List (Step f) := p.steps.reverse

theorem reached_eq (p : Proof f) : p.reached = Step.ascend p.algorithm p.outer := by
  rw [reached, outer, ← List.foldr_reverse]
  induction p.steps.reverse with
  | nil => rfl
  | cons step inner ih => rw [List.foldr_cons, ih, Step.ascend]

theorem key_eq {p : Proof f} (h : ∀ step ∈ p.outer, step.path ≠ .zero) :
    p.key = .ofBits (Step.spelled p.outer) := by
  rw [key, ← List.foldr_reverse]
  unfold outer at h ⊢
  generalize p.steps.reverse = steps at h ⊢
  induction steps with
  | nil => rfl
  | cons step inner ih =>
    have hstep : step.path = .ofBits step.path.bits :=
      (Path.ofBits_bits (h step List.mem_cons_self)).symm
    rw [List.foldr_cons, ih fun s hs => h s (List.mem_cons_of_mem _ hs), Step.spelled_cons,
      ← Path.append_ofBits, ← hstep]

theorem hasZeroStep_eq_false_iff {p : Proof f} :
    p.hasZeroStep = false ↔ ∀ step ∈ p.outer, step.path ≠ .zero := by
  have hzero : ∀ q : Path, q.isZero = false ↔ q ≠ .zero := by
    intro q
    cases q
    simp [Path.isZero, Path.zero]
  simp only [hasZeroStep, outer, List.any_eq_false, List.mem_reverse, Bool.not_eq_true, hzero]

theorem endsInLeaf_eq (p : Proof f) : p.endsInLeaf = (Step.leaf p.outer).isSome := by
  unfold endsInLeaf Step.leaf Step.disclosed
  rw [outer, List.getLast?_reverse]
  rcases p.steps.head? with _ | ⟨path, sibling, _ | (value | children)⟩ <;> rfl

/-- The branch in the first step. -/
def terminal (p : Proof f) : Option (Terminal f) := p.steps.head?.bind Step.terminal

theorem disclosed_outer (p : Proof f) : Step.disclosed p.outer = p.terminal := by
  rw [Step.disclosed, outer, List.getLast?_reverse, terminal]

/-- The leaf that a proof discloses is in its first step. -/
theorem first_of_leaf {p : Proof f} {e : Entry f} (h : Step.leaf p.outer = some e) :
    ∃ step outer, p.steps = step :: outer ∧ step.terminal = some (.leaf e.2) := by
  unfold Step.leaf Step.disclosed at h
  rw [outer, List.getLast?_reverse] at h
  rcases hsteps : p.steps with _ | ⟨step, outer⟩
  · rw [hsteps] at h
    cases h
  · refine ⟨step, outer, rfl, ?_⟩
    rw [hsteps] at h
    rcases step with ⟨path, sibling, _ | (value | children)⟩
    · cases h
    · cases h
      rfl
    · cases h

/-- A proof can be valid only if it has steps and every step has a path with a sentinel. -/
structure Wellformed (p : Proof f) : Prop where
  /-- There is a step. -/
  ne_nil : p.outer ≠ []
  /-- Every path has its sentinel. -/
  ne_zero : ∀ step ∈ p.outer, step.path ≠ .zero

theorem verify_of_wellformed {p : Proof f} (h : p.Wellformed) (query : Path) :
    p.verify query = ⟨p.reached = some p.root, p.endsInLeaf && p.key == query⟩ := by
  have hne : p.steps.isEmpty = false := by simpa [outer] using h.ne_nil
  unfold verify
  rw [hne, hasZeroStep_eq_false_iff.2 h.ne_zero]
  rfl

theorem verify_of_not_wellformed {p : Proof f} (h : ¬ p.Wellformed) (query : Path) :
    p.verify query = .invalid := by
  rw [verify, if_pos]
  by_cases hne : p.outer = []
  · simp [show p.steps = [] by simpa [outer] using hne]
  · have hz : p.hasZeroStep = true := by
      refine Bool.not_eq_false _ ▸ fun hz => h ⟨hne, hasZeroStep_eq_false_iff.1 hz⟩
    simp [hz]

/-- A proof is valid if its steps lead up to the root it claims. -/
theorem valid_iff {p : Proof f} {query : Path} :
    (p.verify query).valid = true ↔
      p.Wellformed ∧ Step.ascend p.algorithm p.outer = some p.root := by
  by_cases h : p.Wellformed
  · simp [verify_of_wellformed h, h, ← reached_eq]
  · simp [verify_of_not_wellformed h, h, Verdict.invalid]

/-- A query is included if the proof discloses a leaf and its paths spell the query. -/
theorem included_iff {p : Proof f} {query : Path} :
    (p.verify query).included = true ↔
      p.Wellformed ∧ ∃ value, (Step.leaf p.outer).map Entry.leaf = some (query, value) := by
  by_cases h : p.Wellformed
  · rw [verify_of_wellformed h, endsInLeaf_eq, key_eq h.ne_zero]
    unfold Step.leaf
    rcases Step.disclosed p.outer with _ | (value | children) <;> simp [h, Entry.leaf]
  · simp [verify_of_not_wellformed h, h, Verdict.invalid]

end Proof

end MerkleTrie
