-- SUMMARY: The shape of a valid proof and its root hash fix everything that it discloses, unless digests collide.
import MerkleTrie.Proofs.Hash.Preimages
import MerkleTrie.Proofs.Root.Prove

/-! # Binding

Two proofs with the same root hash may disclose different things. If they have the
same paths and end in branches of the same kind, then each hash on the way down is
made from a byte string whose parts are told apart: the length of one digest in it
is known, and that tells where the other one begins. So the proofs agree from the
root inwards, step by step (`Step.eq_of_hash`). -/

namespace MerkleTrie

variable {f : Flavour}

/-! ## Shape and contents -/

def Terminal.isLeaf : Terminal f → Bool
  | .leaf _ => true
  | .node _ => false

/-- What of a proof does not count as disclosed. -/
structure Proof.Shape where
  root : Digest
  /-- The path of every step. -/
  paths : List Path
  /-- Whether the first step ends in a leaf, if it ends in a branch at all. -/
  terminalIsLeaf : Option Bool
  deriving DecidableEq

/-- What a proof discloses. -/
structure Proof.Contents (f : Flavour) where
  aggregate : f.Aggregate
  /-- The sibling in every step. -/
  siblings : List (Option (Commitment f))
  /-- The branch in the first step. Those in other steps do not enter the check. -/
  terminal : Option (Terminal f)
  deriving DecidableEq

namespace Proof

def shape (p : Proof f) : Shape where
  root := p.root.hash
  paths := p.steps.map Step.path
  terminalIsLeaf := p.terminal.map Terminal.isLeaf

def contents (p : Proof f) : Contents f where
  aggregate := p.root.aggregate
  siblings := p.steps.map Step.sibling
  terminal := p.terminal

end Proof

/-! ## From the outermost step inwards -/

namespace Step

variable {algorithm : Algorithm} {step step' : Step f} {inner inner' : List (Step f)}

/-- A step takes its branch for one with a digest of the algorithm. -/
theorem map_algorithm_own (step : Step f) (below : Option (Commitment f)) :
    (step.own algorithm below).map (·.hash.algorithm) =
      (step.own algorithm below).map fun _ => algorithm := by
  rcases step with ⟨path, sibling, _ | (value | children)⟩ <;> cases below <;> rfl

/-- Two outermost steps with the same path agree on their branches and on their siblings. -/
theorem own_eq_of_hash
    (hseparated : HashInput.Separated algorithm (inputs algorithm (step :: inner))
      (inputs algorithm (step' :: inner')))
    (hshort : ∀ y ∈ inputs algorithm (step :: inner), y.Short)
    (hpath : step.path = step'.path)
    (hsome : (step.own algorithm (ascend algorithm inner)).isSome =
      (step'.own algorithm (ascend algorithm inner')).isSome)
    (hhash : (step.lift algorithm (ascend algorithm inner)).hash =
      (step'.lift algorithm (ascend algorithm inner')).hash) :
    step.own algorithm (ascend algorithm inner) = step'.own algorithm (ascend algorithm inner') ∧
      step.sibling = step'.sibling := by
  have halgorithm : (step.own algorithm (ascend algorithm inner)).map (·.hash.algorithm) =
      (step'.own algorithm (ascend algorithm inner')).map (·.hash.algorithm) := by
    rw [map_algorithm_own, map_algorithm_own]
    generalize step.own algorithm (ascend algorithm inner) = own at hsome ⊢
    generalize step'.own algorithm (ascend algorithm inner') = own' at hsome ⊢
    cases own <;> cases own' <;> cases hsome <;> rfl
  rw [hash_lift, hash_lift] at hhash
  have hbytes := hseparated _ List.mem_cons_self _ List.mem_cons_self hhash
  rw [← hpath] at hbytes
  exact HashInput.beside_preimage_inj halgorithm (hshort _ List.mem_cons_self) hbytes

/-- Steps with the same path over pairs of children agree on these. -/
theorem below_eq_of_own {below below' : Commitment f}
    (hseparated : HashInput.Separated algorithm (inputs algorithm (step :: inner))
      (inputs algorithm (step' :: inner')))
    (hpath : step.path = step'.path) (hbelow : ascend algorithm inner = some below)
    (hbelow' : ascend algorithm inner' = some below')
    (hown : step.own algorithm (some below) = step'.own algorithm (some below')) :
    below = below' := by
  have hnode := Option.some.inj hown
  have hmem : .node step.path below.hash ∈ inputs algorithm (step :: inner) :=
    mem_inputs_of_ownInput (hbelow ▸ rfl)
  have hmem' : .node step'.path below'.hash ∈ inputs algorithm (step' :: inner') :=
    mem_inputs_of_ownInput (hbelow' ▸ rfl)
  have hbytes := hseparated _ hmem _ hmem' (congrArg Commitment.hash hnode)
  rw [hpath] at hbytes
  exact Commitment.eq_of_ofNode (nodePreimage_right_inj hbytes) hnode

/-- Innermost steps with the same path that end in branches of the same kind agree on these. -/
theorem terminal_eq_of_own
    (hseparated : HashInput.Separated algorithm (inputs algorithm [step])
      (inputs algorithm [step']))
    (hshort : ∀ y ∈ inputs algorithm [step], y.Short)
    (hpath : step.path = step'.path)
    (hkind : step.terminal.map Terminal.isLeaf = step'.terminal.map Terminal.isLeaf)
    (hown : step.own algorithm none = step'.own algorithm none) :
    step.terminal = step'.terminal := by
  rcases step with ⟨path, sibling, _ | (value | children)⟩ <;>
    rcases step' with ⟨path', sibling', _ | (value' | children')⟩ <;> cases hkind
  · rfl
  · have hmem : .leaf path value ∈ inputs algorithm [⟨path, sibling, some (.leaf value)⟩] :=
      mem_inputs_of_ownInput rfl
    have hmem' : .leaf path' value' ∈ inputs algorithm [⟨path', sibling', some (.leaf value')⟩] :=
      mem_inputs_of_ownInput rfl
    have hbytes := hseparated _ hmem _ hmem' (congrArg Commitment.hash (Option.some.inj hown))
    obtain rfl : path = path' := hpath
    rw [show value = value' from leafPreimage_value_inj (hshort _ hmem) hbytes]
  · have hnode := Option.some.inj hown
    have hmem : .node path children.hash ∈
        inputs algorithm [⟨path, sibling, some (.node children)⟩] :=
      mem_inputs_of_ownInput rfl
    have hmem' : .node path' children'.hash ∈
        inputs algorithm [⟨path', sibling', some (.node children')⟩] :=
      mem_inputs_of_ownInput rfl
    have hbytes := hseparated _ hmem _ hmem' (congrArg Commitment.hash hnode)
    obtain rfl : path = path' := hpath
    rw [Commitment.eq_of_ofNode (nodePreimage_right_inj hbytes) hnode]

/-- Innermost steps with the same path that end in branches of the same kind are the same. -/
theorem innermost_eq_of_hash
    (hseparated : HashInput.Separated algorithm (inputs algorithm [step])
      (inputs algorithm [step']))
    (hshort : ∀ y ∈ inputs algorithm [step], y.Short)
    (hpath : step.path = step'.path)
    (hkind : step.terminal.map Terminal.isLeaf = step'.terminal.map Terminal.isLeaf)
    (hhash : (step.lift algorithm none).hash = (step'.lift algorithm none).hash) :
    step = step' := by
  have hsome : (step.own algorithm none).isSome = (step'.own algorithm none).isSome := by
    have hisSome := congrArg Option.isSome hkind
    simpa only [own, Option.isSome_map] using hisSome
  obtain ⟨hown, hsibling⟩ := own_eq_of_hash hseparated hshort hpath hsome hhash
  have hterminal := terminal_eq_of_own hseparated hshort hpath hkind hown
  cases step
  cases step'
  exact congr (congr (congrArg mk hpath) hsibling) hterminal

/-- Steps of one shape that lead up to the same hash disclose the same siblings and the same branch,
and lead up to the same commitment. -/
theorem eq_of_hash {steps steps' : List (Step f)}
    (hseparated : HashInput.Separated algorithm (inputs algorithm steps)
      (inputs algorithm steps'))
    (hshort : ∀ y ∈ inputs algorithm steps, y.Short)
    (hpaths : steps.map path = steps'.map path)
    (hkind : (disclosed steps).map Terminal.isLeaf = (disclosed steps').map Terminal.isLeaf)
    (hhash : (ascend algorithm steps).map Commitment.hash =
      (ascend algorithm steps').map Commitment.hash) :
    ascend algorithm steps = ascend algorithm steps' ∧
      steps.map sibling = steps'.map sibling ∧ disclosed steps = disclosed steps' := by
  induction steps generalizing steps' with
  | nil =>
    obtain rfl : steps' = [] := List.map_eq_nil_iff.1 hpaths.symm
    exact ⟨rfl, rfl, rfl⟩
  | cons step inner ih =>
    obtain ⟨step', inner', rfl⟩ : ∃ step' inner', steps' = step' :: inner' := by
      cases steps' with
      | nil => cases hpaths
      | cons step' inner' => exact ⟨step', inner', rfl⟩
    obtain ⟨hpath, hpaths⟩ := List.cons.inj hpaths
    have hhash := Option.some.inj hhash
    rcases eq_or_ne inner [] with rfl | hinner
    · obtain rfl : inner' = [] := List.map_eq_nil_iff.1 hpaths.symm
      obtain rfl := innermost_eq_of_hash hseparated hshort hpath hkind hhash
      exact ⟨rfl, rfl, rfl⟩
    -- There are steps within on both sides; they lead up to one pair, so they agree in turn.
    · have hinner' : inner' ≠ [] := by
        rintro rfl
        exact hinner (List.map_eq_nil_iff.1 hpaths)
      obtain ⟨below, hbelow⟩ := exists_ascend algorithm hinner
      obtain ⟨below', hbelow'⟩ := exists_ascend algorithm hinner'
      rw [hbelow, hbelow'] at hhash
      obtain ⟨hown, hsibling⟩ := own_eq_of_hash hseparated hshort hpath
        (by rw [hbelow, hbelow']; rfl) (by rw [hbelow, hbelow']; exact hhash)
      rw [hbelow, hbelow'] at hown
      have hsame := below_eq_of_own hseparated hpath hbelow hbelow' hown
      have hsub := inputs_subset_cons algorithm step inner
      rw [disclosed_cons step hinner, disclosed_cons step' hinner'] at hkind ⊢
      obtain ⟨-, hsiblings, hdisclosed⟩ := ih
        (hseparated.of_subset hsub (inputs_subset_cons algorithm step' inner'))
        (fun y hy => hshort y (hsub hy)) hpaths hkind (by rw [hbelow, hbelow', hsame])
      refine ⟨?_, ?_, hdisclosed⟩
      · rw [ascend, ascend, hbelow, hbelow', lift, lift, hown, hsibling, hpath]
      · rw [List.map_cons, List.map_cons, hsibling, hsiblings]

end Step

/-! ## Proofs -/

namespace Proof

/-- Valid proofs of one shape have the same contents, unless digests collide. -/
theorem contents_eq_of_shape {p p' : Proof f}
    (hshort : ∀ y ∈ p.inputs, y.Short) (hshape : p.shape = p'.shape)
    {query query' : Path} (hvalid : (p.verify query).valid = true)
    (hvalid' : (p'.verify query').valid = true) :
    HashInput.Collides p.algorithm (p.inputs ++ p'.inputs) ∨ p.contents = p'.contents := by
  obtain ⟨-, hascend⟩ := valid_iff.1 hvalid
  obtain ⟨-, hascend'⟩ := valid_iff.1 hvalid'
  obtain ⟨hroot, hpaths, hkind⟩ := Shape.mk.inj hshape
  have halgorithm : p'.algorithm = p.algorithm := congrArg Digest.algorithm hroot.symm
  rcases HashInput.collides_or_separated p.algorithm p.inputs p'.inputs with
    hcollides | hseparated
  · exact .inl hcollides
  right
  unfold inputs at hseparated hshort
  rw [halgorithm] at hascend' hseparated
  rw [← disclosed_outer, ← disclosed_outer] at hkind
  obtain ⟨hsame, hsiblings, hdisclosed⟩ := Step.eq_of_hash hseparated hshort
    (by rw [outer, outer, List.map_reverse, List.map_reverse, hpaths]) hkind
    (by rw [hascend, hascend']; exact congrArg some hroot)
  rw [hascend, hascend'] at hsame
  rw [outer, outer, List.map_reverse, List.map_reverse] at hsiblings
  have haggregate := congrArg Commitment.aggregate (Option.some.inj hsame)
  rw [contents, contents, haggregate, List.reverse_inj.1 hsiblings, ← disclosed_outer,
    hdisclosed, disclosed_outer]

end Proof

namespace Builder

/-- The shape of a valid proof fixes its contents, whoever made it, unless digests collide. So
after any run, the proof that the root makes for a query is valid, but one of its shape with other
contents is not, whatever they are checked against. In a sum trie, byte strings must be short
enough for the header of a list. -/
theorem contents_bound (f : Flavour) :
    (∀ p p' : Proof f, (∀ y ∈ p.inputs, y.Short) →
      p.shape = p'.shape → ∀ query query', (p.verify query).valid = true →
        (p'.verify query').valid = true →
          HashInput.Collides p.algorithm (p.inputs ++ p'.inputs) ∨ p.contents = p'.contents) ∧
    ∀ algorithm (operations : List (Operation f)), let start : Builder f := { algorithm }
      ∃ c, (start.run operations).calculateRoot = .ok c ∧ ∀ query, let p := c.root.prove query
        (∀ query', (p.verify query').valid = true) ∧
        ((∀ y ∈ p.inputs, y.Short) →
          ∀ p' : Proof f, p.shape = p'.shape → p.contents ≠ p'.contents → ∀ query',
            HashInput.Collides algorithm (p.inputs ++ p'.inputs) ∨
              (p'.verify query').valid = false) := by
  refine ⟨fun p p' hshort hshape query query' => Proof.contents_eq_of_shape hshort hshape, ?_⟩
  intro algorithm operations start
  obtain ⟨r, c, hc, hroot, hf, -⟩ := calculateRoot_run algorithm operations
  refine ⟨c, hc, ?_⟩
  rw [hroot]
  intro query p
  have hvalid : ∀ query', (p.verify query').valid = true := hf.prove_valid algorithm query
  refine ⟨hvalid, ?_⟩
  intro hshort p' hshape hcontents query'
  by_cases hvalid' : (p'.verify query').valid = true
  · rcases Proof.contents_eq_of_shape hshort hshape (hvalid query) hvalid' with hcollides | heq
    · exact .inl hcollides
    · exact absurd heq hcontents
  · exact .inr (Bool.not_eq_true _ ▸ hvalid')

end Builder

end MerkleTrie
