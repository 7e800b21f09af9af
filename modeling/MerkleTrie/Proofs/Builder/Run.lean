-- SUMMARY: Runs of a builder, the leaves they add, and the forest that a builder represents at every point of a run.
import MerkleTrie.Proofs.Builder.Calculation
import MerkleTrie.Proofs.Builder.Forest

/-! # Runs

A run is any sequence of insertions, accepted or refused, and calculations of
the root. Each operation takes a builder that represents a forest to one that
represents a forest (`Builder.Represents.perform`), so every builder of a run
does, and the keys of the forest are those of the accepted insertions
(`Builder.run_represents`). -/

namespace MerkleTrie

variable {f : Flavour}

/-- An operation on a builder. -/
inductive Operation (f : Flavour) where
  /-- Add a leaf. -/
  | insert (path : Path) (value : f.Value)
  /-- Calculate the root. -/
  | calculateRoot
  deriving DecidableEq

namespace Builder

/-- The builder after an operation: for a leaf the one that comes back, accepted or refused. A
calculation of the root fails at no point of a run, and if it did, the builder would stay as it
is. -/
def perform (b : Builder f) : Operation f → Builder f
  | .insert path value =>
    match (add path value).run b with
    | .ok () b' => b'
    | .error _ b' => b'
  | .calculateRoot =>
    match b.calculateRoot with
    | .ok c => c.builder
    | .error _ => b

/-- The builder after a sequence of operations. -/
def run (b : Builder f) (operations : List (Operation f)) : Builder f :=
  operations.foldl perform b

/-- The leaf that an operation adds, if it is an accepted insertion. -/
def added (b : Builder f) : Operation f → List (Path × f.Value)
  | .insert path value =>
    match b.insert path value with
    | .ok _ => [(path, value)]
    | .error _ => []
  | .calculateRoot => []

/-- The leaves that a sequence of operations adds: the accepted insertions, in order. -/
def accepted (b : Builder f) : List (Operation f) → List (Path × f.Value)
  | [] => []
  | operation :: operations => b.added operation ++ (b.perform operation).accepted operations

/-! ## Calculating the root -/

/-- Hashing one side of a forest yields the hashed form of that side, changes its slots only, and
hashes what had no hashed form. -/
theorem finalizeRootSlot_of_stored {algorithm : Algorithm} {s : Sweep f} {side : Option (Layout f)}
    (h : ∀ L ∈ side, L.Stored algorithm s.slots) (hn : (side.elim [] Layout.indices).Nodup)
    (hsize : (side.elim [] Layout.indices).length ≤ s.slots.size) (link : Link) :
    ∃ s', Sweep.finalizeRootSlot algorithm s (side.map Layout.index) =
        .ok (side.map (Layout.branch algorithm), s') ∧
      (∀ L ∈ side, L.Finalized algorithm s'.slots) ∧
      (∀ j ∉ side.elim [] Layout.indices, s'.slots[j]? = s.slots[j]?) ∧
      s'.slots.size = s.slots.size ∧
      s'.hashed.Perm ((side.elim [] (Layout.unhashed s.slots link)).map (Place.branch algorithm) ++
        s.hashed) := by
  cases side with
  | none =>
    refine ⟨s, rfl, ?_, fun _ _ => rfl, rfl, List.Perm.refl _⟩
    intro L hL
    cases hL
  | some L =>
    have hdepth := Nat.le_trans L.depth_le_length_indices hsize
    obtain ⟨s', hs, hf, hframe, hsize', hhashed⟩ := (h L rfl).finalize hn hdepth
    refine ⟨s', ?_, ?_, hframe, hsize', hhashed link⟩
    · simp only [Option.map_some, Sweep.finalizeRootSlot, hs, bind, Except.bind, pure, Except.pure]
    · intro M hM
      cases hM
      exact hf

end Builder

/-- What calculating the root makes of a builder that represents a forest. -/
structure Calculation.Completes (c : Calculation f) (b : Builder f) (r : Forest f) : Prop where
  /-- The root is the hashed form of the forest. -/
  root : c.root = r.root b.algorithm
  /-- Only the slots of the builder have changed. -/
  builder : c.builder = { b with slots := c.builder.slots }
  /-- Every slot has its hashed form. -/
  finalized : ∀ s, ∀ L ∈ r s, L.Finalized b.algorithm c.builder.slots
  /-- There are as many slots as before. -/
  slots_size : c.builder.slots.size = b.slots.size
  /-- The branches hashed are those that had no hashed form, each of them once. -/
  rehashed : c.rehashed.Perm ((r.unhashed b.slots).map (Place.branch b.algorithm))

namespace Calculation.Completes

variable {c : Calculation f} {b : Builder f} {r : Forest f}

theorem algorithm (h : c.Completes b r) : c.builder.algorithm = b.algorithm := by
  rw [h.builder]

theorem represents (h : c.Completes b r) (hb : b.Represents r) : c.builder.Represents r where
  rootSlot := by
    rw [h.builder]
    exact hb.rootSlot
  stored := by
    intro s L hL
    rw [h.algorithm]
    exact (h.finalized s L hL).stored
  formed := hb.formed
  indices := by
    rw [h.slots_size]
    exact hb.indices
  size := by
    rw [h.builder]
    exact hb.size

end Calculation.Completes

namespace Builder

namespace Represents

variable {b : Builder f} {r : Forest f}

theorem length_indicesOn_le (h : b.Represents r) (s : Bool) :
    (r.indicesOn s).length ≤ b.slots.size := by
  have hl := ((r.indices_perm s).symm.trans h.indices).length_eq
  rw [List.length_append, List.length_range] at hl
  omega

/-- The calculated root is the hashed form of the forest. -/
theorem completes (h : b.Represents r) : ∃ c, b.calculateRoot = .ok c ∧ c.Completes b r := by
  have hleft : b.left = (r false).map Layout.index := h.rootSlot false
  have hright : b.right = (r true).map Layout.index := h.rootSlot true
  obtain ⟨hnl, hdisjoint⟩ := h.nodup false
  obtain ⟨hnr, hdisjoint'⟩ := h.nodup true
  -- The left side is hashed first; its sweep touches no slot of the right side, and conversely.
  obtain ⟨s₁, h₁, hf₁, hframe₁, hsize₁, hhashed₁⟩ :=
    finalizeRootSlot_of_stored (s := { slots := b.slots }) (h.stored false) hnl
      (h.length_indicesOn_le false) (.root false)
  have hother : ∀ L ∈ r true, ∀ j ∈ L.indices, s₁.slots[j]? = b.slots[j]? := by
    intro L hL j hj
    rw [← Forest.indicesOn_of_some hL] at hj
    exact hframe₁ j (hdisjoint' j hj)
  have hstored : ∀ L ∈ r true, L.Stored b.algorithm s₁.slots :=
    fun L hL => (h.stored true L hL).congr (hother L hL)
  obtain ⟨s₂, h₂, hf₂, hframe₂, hsize₂, hhashed₂⟩ :=
    finalizeRootSlot_of_stored hstored hnr (by rw [hsize₁]; exact h.length_indicesOn_le true)
      (.root true)
  refine ⟨⟨r.root b.algorithm, { b with slots := s₂.slots }, s₂.hashed.reverse⟩, ?_, ?_⟩
  · simp only [Builder.calculateRoot, hleft, hright, h₁, h₂, bind, Except.bind, pure, Except.pure]
    rfl
  · refine {
      root := rfl
      builder := rfl
      finalized := ?_
      slots_size := hsize₂.trans hsize₁
      rehashed := ?_ }
    · rw [Bool.forall_bool]
      refine ⟨?_, hf₂⟩
      intro L hL
      refine (hf₁ L hL).congr fun j hj => hframe₂ j ?_
      rw [← Forest.indicesOn_of_some hL] at hj
      exact hdisjoint j hj
    · have hunhashed : (r true).elim [] (Layout.unhashed s₁.slots (.root true)) =
          r.unhashedOn b.slots true := by
        unfold Forest.unhashedOn
        cases hr : r true with
        | none => rfl
        | some L => exact Layout.unhashed_congr (hother L hr)
      rw [hunhashed] at hhashed₂
      calc s₂.hashed.reverse
        _ |>.Perm s₂.hashed := List.reverse_perm _
        _ |>.Perm ((r.unhashedOn b.slots true).map (Place.branch b.algorithm) ++ s₁.hashed) :=
          hhashed₂
        _ |>.Perm ((r.unhashedOn b.slots true).map (Place.branch b.algorithm) ++
            (r.unhashedOn b.slots false).map (Place.branch b.algorithm)) := by
          rw [← List.append_nil ((r.unhashedOn b.slots false).map _)]
          exact hhashed₁.append_left _
        _ |>.Perm ((r.unhashed b.slots).map (Place.branch b.algorithm)) := by
          rw [Forest.unhashed, List.map_append]
          exact List.perm_append_comm

/-- The calculated root is the hashed form of the forest, which stays as it is. -/
theorem calculateRoot (h : b.Represents r) :
    ∃ c, b.calculateRoot = .ok c ∧ c.root = r.root b.algorithm ∧ c.builder.Represents r ∧
      c.builder.algorithm = b.algorithm := by
  obtain ⟨c, hc, hcompletes⟩ := h.completes
  exact ⟨c, hc, hcompletes.root, hcompletes.represents h, hcompletes.algorithm⟩

/-! ## Runs -/

/-- Each operation keeps the builder representing a forest and adds to it what it accepts. -/
theorem perform (h : b.Represents r) (operation : Operation f) :
    ∃ r', (b.perform operation).Represents r' ∧
      (r'.entries.map Entry.leaf).Perm (b.added operation ++ r.entries.map Entry.leaf) ∧
      (b.perform operation).algorithm = b.algorithm := by
  cases operation with
  | insert path value =>
    have hstep := h.insert path value
    cases hm : r.entries.insert path value with
    | error e =>
      rw [hm] at hstep
      simp only [Builder.perform, run_add, added, hstep]
      exact ⟨r, h, List.Perm.refl _, trivial⟩
    | ok m =>
      rw [hm] at hstep
      obtain ⟨b', r', hb, hr', hp, halgorithm⟩ := hstep
      obtain ⟨hne, rfl⟩ := Ledger.eq_cons_of_insert hm
      simp only [Builder.perform, run_add, added, hb]
      refine ⟨r', hr', (hp.map Entry.leaf).trans ?_, halgorithm⟩
      rw [List.map_cons, Entry.leaf, Path.ofBits_bits (Path.ne_zero_of_bits_ne_nil hne)]
      exact List.Perm.refl _
  | calculateRoot =>
    obtain ⟨c, hc, -, hr, halgorithm⟩ := h.calculateRoot
    simp only [Builder.perform, added, hc]
    exact ⟨r, hr, List.Perm.refl _, halgorithm⟩

theorem run (h : b.Represents r) (operations : List (Operation f)) :
    ∃ r', (b.run operations).Represents r' ∧
      (r'.entries.map Entry.leaf).Perm (b.accepted operations ++ r.entries.map Entry.leaf) ∧
      (b.run operations).algorithm = b.algorithm := by
  induction operations generalizing b r with
  | nil => exact ⟨r, h, List.Perm.refl _, rfl⟩
  | cons operation operations ih =>
    obtain ⟨r₁, h₁, hp₁, ha₁⟩ := h.perform operation
    obtain ⟨r₂, h₂, hp₂, ha₂⟩ := ih h₁
    refine ⟨r₂, h₂, ?_, ha₂.trans ha₁⟩
    calc r₂.entries.map Entry.leaf
      _ |>.Perm ((b.perform operation).accepted operations ++ r₁.entries.map Entry.leaf) := hp₂
      _ |>.Perm ((b.perform operation).accepted operations ++
          (b.added operation ++ r.entries.map Entry.leaf)) := hp₁.append_left _
      _ |>.Perm (b.added operation ++ (b.perform operation).accepted operations ++
          r.entries.map Entry.leaf) := by
        rw [← List.append_assoc]
        exact List.perm_append_comm.append_right _

end Represents

/-- Every builder of a run represents a forest, whose keys are the accepted ones. -/
theorem run_represents (algorithm : Algorithm) (operations : List (Operation f)) :
    ∃ r, (({ algorithm } : Builder f).run operations).Represents r ∧
      (r.entries.map Entry.leaf).Perm (({ algorithm } : Builder f).accepted operations) ∧
      (({ algorithm } : Builder f).run operations).algorithm = algorithm := by
  obtain ⟨r, h, hp, ha⟩ := (Represents.empty algorithm).run operations
  refine ⟨r, h, ?_, ha⟩
  rw [← List.append_nil (accepted _ operations)]
  exact hp

/-- After any run the root is calculated, and it is the hashed form of a forest whose keys are the
accepted ones. -/
theorem calculateRoot_run (algorithm : Algorithm) (operations : List (Operation f)) :
    ∃ r : Forest f, ∃ c, (({ algorithm } : Builder f).run operations).calculateRoot = .ok c ∧
      c.root = r.root algorithm ∧ r.Formed ∧
      (r.entries.map Entry.leaf).Perm (({ algorithm } : Builder f).accepted operations) := by
  obtain ⟨r, h, hp, ha⟩ := run_represents algorithm operations
  obtain ⟨c, hc, hroot, -, -⟩ := h.calculateRoot
  rw [ha] at hroot
  exact ⟨r, c, hc, hroot, h.formed, hp⟩

/-- A computation that can be evaluated yields a result that can be tested. -/
theorem exists_ok_of_any {α : Type} {x : Except TrieError α} {P : α → Prop} [DecidablePred P]
    (h : x.toOption.any (fun a => decide (P a)) = true) : ∃ a, x = .ok a ∧ P a := by
  cases x with
  | error e => cases h
  | ok a => exact ⟨a, rfl, of_decide_eq_true h⟩

end Builder

end MerkleTrie
