-- SUMMARY: A successful verification folds a step on the side that the query takes at its depth, unless the step has no key bits.
import Mathlib.Algebra.Order.Ring.Nat
import MerkleTrie.Proofs.Proof.Key

/-! # Sides of the steps

A step is folded on the side that its path says, and the paths together spell the
query. So the side of a step that has key bits is the bit of the query at the depth
of the step, which is the number of key bits outside it. A path without key bits
says a side too, as its sentinel is taken for a bit: it is folded on the right
whatever the query is there (`Proof.sides_of_successful`). Such a step may be put
around any successful proof, and a proof that has no other steps proves a leaf at
the root path, where no leaf can be. -/

namespace MerkleTrie

variable {f : Flavour}

namespace Step

/-- The number of key bits in the paths of steps. -/
def depth (steps : List (Step f)) : Nat := (steps.map (·.path.length)).sum

theorem length_spelled_reverse (steps : List (Step f)) :
    (spelled steps.reverse).length = depth steps := by
  simp only [spelled, depth, List.length_flatMap, List.map_reverse, List.sum_reverse,
    Path.length_bits]

end Step

namespace Proof

variable {p : Proof f} {query : Path}

/-! ## The query at the depth of a step -/

/-- What the query has from the depth of a step on is spelled by the step and those within. -/
theorem drop_depth (h : (p.verify query).included = true) {inner outer : List (Step f)}
    {step : Step f} (hsteps : p.steps = inner ++ step :: outer) :
    query.bits.drop (Step.depth outer) = step.path.bits ++ Step.spelled inner.reverse := by
  have hquery : query.bits = Step.spelled p.outer := by
    rw [(included_iff_key.1 h).2.2, Path.bits_ofBits]
    rfl
  have houter : p.outer = outer.reverse ++ step :: inner.reverse := by
    rw [Proof.outer, hsteps, List.reverse_append, List.reverse_cons, List.append_assoc]
    rfl
  rw [hquery, houter, Step.spelled_append, ← Step.length_spelled_reverse, List.drop_left,
    Step.spelled_cons]

/-- A step is folded on the side of the query if it has key bits, or if the steps within go on to
the right, where the sentinel is taken for a bit. -/
theorem side_iff (h : (p.verify query).included = true) {inner outer : List (Step f)}
    {step : Step f} (hsteps : p.steps = inner ++ step :: outer) :
    query.bits[Step.depth outer]? = some step.path.isRight ↔
      step.path ≠ .root ∨ (Step.spelled inner.reverse).head? = some true := by
  have hzero : step.path ≠ .zero := by
    refine (included_iff_key.1 h).2.1 step ?_
    rw [hsteps]
    exact List.mem_append_right _ List.mem_cons_self
  rw [← List.head?_drop, drop_depth h hsteps]
  by_cases hroot : step.path = .root
  · rw [hroot, (Path.bits_eq_nil_iff Path.root_ne_zero).2 rfl, List.nil_append]
    simp [Path.isRight, Path.root]
  · have hbits := mt (Path.bits_eq_nil_iff hzero).1 hroot
    rw [List.head?_append, Path.head?_bits hbits]
    simp [hroot]

/-- The query has no key bits if no step has any. -/
theorem bits_eq_nil_iff (h : (p.verify query).included = true) :
    query.bits = [] ↔ ∀ step ∈ p.steps, step.path = .root := by
  obtain ⟨-, hzero, hquery⟩ := included_iff_key.1 h
  rw [hquery, Path.bits_ofBits, List.flatMap_eq_nil_iff]
  simp only [List.mem_reverse]
  exact forall₂_congr fun step hstep => Path.bits_eq_nil_iff (hzero step hstep)

/-! ## Proofs put together -/

/-- The proof with a further step around it. -/
def around (p : Proof f) (step : Step f) : Proof f :=
  ⟨step.lift p.algorithm (some p.root), p.steps ++ [step]⟩

/-- A step over a leaf is a proof by itself. -/
theorem successful_single (algorithm : Algorithm) {path : Path} (hzero : path ≠ .zero)
    (sibling : Option (Commitment f)) (value : f.Value) :
    let step : Step f := ⟨path, sibling, some (.leaf value)⟩
    ((⟨step.lift algorithm none, [step]⟩ : Proof f).verify path).successful = true := by
  intro step
  have hwf : (⟨step.lift algorithm none, [step]⟩ : Proof f).Wellformed := by
    refine ⟨List.cons_ne_nil _ _, fun s hs => ?_⟩
    obtain rfl := List.mem_singleton.1 hs
    exact hzero
  refine Bool.and_eq_true_iff.2 ⟨valid_iff.2 ⟨hwf, ?_⟩, included_iff.2 ⟨hwf, value, ?_⟩⟩
  · rw [Proof.algorithm, Step.algorithm_lift]
    rfl
  · have hleaf : Step.leaf [step] = some (path.bits ++ [], value) := rfl
    rw [Proof.outer, List.reverse_singleton, hleaf, List.append_nil, Option.map_some, Entry.leaf,
      Path.ofBits_bits hzero]

/-- A further step around a successful proof makes one for the longer query. -/
theorem successful_around (h : (p.verify query).successful = true) {step : Step f}
    (hzero : step.path ≠ .zero) :
    ((p.around step).verify (step.path.append query)).successful = true := by
  obtain ⟨hvalid, hincluded⟩ := Bool.and_eq_true_iff.1 h
  obtain ⟨hwf, hascend⟩ := valid_iff.1 hvalid
  obtain ⟨-, value, hleaf⟩ := included_iff.1 hincluded
  obtain ⟨e, he, heq⟩ := Option.map_eq_some_iff.1 hleaf
  have houter : (p.around step).outer = step :: p.outer := List.reverse_concat ..
  have hwf' : (p.around step).Wellformed := by
    refine ⟨by rw [houter]; exact List.cons_ne_nil _ _, ?_⟩
    rw [houter]
    exact List.forall_mem_cons.2 ⟨hzero, hwf.ne_zero⟩
  refine Bool.and_eq_true_iff.2 ⟨valid_iff.2 ⟨hwf', ?_⟩, included_iff.2 ⟨hwf', value, ?_⟩⟩
  · have halgorithm : (p.around step).algorithm = p.algorithm := Step.algorithm_lift ..
    rw [houter, halgorithm, Step.ascend, hascend]
    rfl
  · have hquery : step.path.append query = .ofBits (step.path.bits ++ e.1) := by
      rw [← Path.append_ofBits, Path.ofBits_bits hzero]
      exact congrArg _ (congrArg Prod.fst heq).symm
    rw [houter, Step.leaf_cons step hwf.ne_nil, he, hquery]
    exact congrArg (fun v => some (_, v)) (congrArg Prod.snd heq)

/-! ## Sides -/

/-- Where a verification is successful, each step with key bits is folded on the side that the query
takes at the depth of the step. One without is folded on the right, and the query takes that side
only if the steps within go on to the right. The query has no key bits only if no step has any. A
step without key bits may be put around every successful proof. -/
theorem sides_of_successful (h : (p.verify query).successful = true) :
    (∀ inner step outer, p.steps = inner ++ step :: outer →
      (query.bits[Step.depth outer]? = some step.path.isRight ↔
        step.path ≠ .root ∨ (Step.spelled inner.reverse).head? = some true)) ∧
    (query.bits = [] ↔ ∀ step ∈ p.steps, step.path = .root) ∧
    ∀ sibling, ((p.around ⟨.root, sibling, none⟩).verify query).successful = true := by
  obtain ⟨-, hincluded⟩ := Bool.and_eq_true_iff.1 h
  refine ⟨fun _ _ _ hsteps => side_iff hincluded hsteps, bits_eq_nil_iff hincluded, ?_⟩
  intro sibling
  have haround :=
    successful_around h (show (⟨.root, sibling, none⟩ : Step f).path ≠ .zero from Path.root_ne_zero)
  rwa [Path.root_append] at haround

/-- A leaf at the path `3` under a node at the path `4` has the key `12`. -/
theorem sides_of_leaf_under_node :
    let inner : Step .plain := ⟨⟨3⟩, none, some (.leaf [])⟩
    let outer : Step .plain := ⟨⟨4⟩, none, none⟩
    let p : Proof .plain := (⟨inner.lift .sha256 none, [inner]⟩ : Proof .plain).around outer
    (p.verify ⟨12⟩).successful = true ∧
      (⟨12⟩ : Path).bits[0]? = some outer.path.isRight ∧
      (⟨12⟩ : Path).bits[2]? = some inner.path.isRight := by
  intro inner outer p
  have hleaf :=
    successful_single (f := .plain) .sha256 (show (⟨3⟩ : Path) ≠ .zero by decide) none []
  have h := successful_around hleaf (show outer.path ≠ .zero by decide)
  rw [show outer.path.append ⟨3⟩ = ⟨12⟩ by decide] at h
  obtain ⟨hsides, -, -⟩ := sides_of_successful h
  have hinner := hsides [] inner [outer] rfl
  rw [show Step.depth [outer] = 2 by decide] at hinner
  exact ⟨h, (hsides [inner] outer [] rfl).2 (.inl (by decide)), hinner.2 (.inl (by decide))⟩

/-- The leaf at the path `259`, which is alone in its trie, is also read as one without key bits.
Its sentinel is taken for a bit of the query, which has none. -/
theorem exists_successful_without_bits :
    let step : Step .plain := ⟨.root, none, some (.leaf [0x03])⟩
    let p : Proof .plain := ⟨.ofPair .sha256 none (some (.ofLeaf .sha256 ⟨259⟩ [])), [step]⟩
    (p.verify .root).successful = true ∧ Path.root.bits = [] ∧
      ¬ ∀ inner s outer, p.steps = inner ++ s :: outer →
        Path.root.bits[Step.depth outer]? = some s.path.isRight := by
  intro step p
  have hsuccessful : (p.verify .root).successful = true := by decide +kernel
  refine ⟨hsuccessful, Path.bits_ofBits [], fun h => ?_⟩
  have hside := h [] step [] rfl
  rw [show Path.root.bits = [] from Path.bits_ofBits []] at hside
  cases hside

end Proof

end MerkleTrie
