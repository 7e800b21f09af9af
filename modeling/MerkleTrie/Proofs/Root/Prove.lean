-- SUMMARY: Where a query ends in a trie, what the proof made for it says, and that this is what the trie holds.
import MerkleTrie.Proofs.Builder.Run
import MerkleTrie.Proofs.Proof.Verify
import MerkleTrie.Root.Prove

/-! # Proofs made by a root

The steps made for a query descend from the root, and a check climbs them from
the innermost one. `Layout.descend_spec` ties the two together at every branch
on the way: the steps made under it lead back up to the commitment to it and its
sibling, and they disclose a leaf exactly where the query lands in one. -/

namespace MerkleTrie

variable {f : Flavour}

/-! ## Landing -/

/-- The leaf in which the given bits end, with its key from the branch's parent on. They go on
behind a node only if its whole path is among them and more follows. -/
def Branch.landing : Branch f → List Bool → Option (Entry f)
  | .leaf path value _, _ => some (path.bits, value)
  | .node path left right _ _, bits =>
    if path.bits.isPrefixOf bits then
      match bits.drop path.bits.length with
      | [] => none
      | false :: rest => (left.landing (false :: rest)).map (Entry.under path.bits)
      | true :: rest => (right.landing (true :: rest)).map (Entry.under path.bits)
    else none

/-- The leaf in which a query ends. -/
def Root.landing (r : Root f) (query : Path) : Option (Entry f) :=
  (r.child query.isRight).bind (·.landing query.bits)

/-- Two branches as a pair of children, of which the first is on the given side. -/
def Commitment.beside (algorithm : Algorithm) (isRight : Bool)
    (own sibling : Option (Commitment f)) : Commitment f :=
  if isRight then .ofPair algorithm sibling own else .ofPair algorithm own sibling

theorem Step.lift_eq (algorithm : Algorithm) (step : Step f) (below : Option (Commitment f)) :
    step.lift algorithm below =
      .beside algorithm step.path.isRight (step.own algorithm below) step.sibling := rfl

namespace Layout

variable {algorithm : Algorithm} {index : Nat} {segment : List Bool} {children : Bool → Layout f}
  {side : Bool} {sibling : Option (Commitment f)}

/-- The commitment to the pair of children of a node. -/
def pair (algorithm : Algorithm) (children : Bool → Layout f) : Commitment f :=
  .ofPair algorithm (some ((children false).branch algorithm).commitment)
    (some ((children true).branch algorithm).commitment)

theorem beside_eq_pair (s : Bool) :
    Commitment.beside algorithm s (some ((children s).branch algorithm).commitment)
      (some ((children (!s)).branch algorithm).commitment) = pair algorithm children := by
  cases s <;> rfl

/-! ## A node on the way -/

/-- Bits that run beyond the path of a node land where they land in its child. -/
theorem landing_beyond (s : Bool) (rest : List Bool) :
    ((node index segment children).branch algorithm).landing (segment ++ s :: rest) =
      (((children s).branch algorithm).landing (s :: rest)).map (Entry.under segment) := by
  cases s <;> simp [branch, Branch.ofNode, Branch.landing]

/-- Bits that do not run beyond the path of a node land in no leaf. -/
theorem landing_stop {bits : List Bool} (h : ∀ s rest, bits ≠ segment ++ s :: rest) :
    ((node index segment children).branch algorithm).landing bits = none := by
  simp only [branch, Branch.ofNode, Branch.landing, Path.bits_ofBits]
  split
  · rename_i hp
    obtain ⟨rest, rfl⟩ := List.isPrefixOf_iff_prefix.1 hp
    cases rest with
    | nil => simp
    | cons s rest => exact absurd rfl (h s rest)
  · rfl

/-- A query that runs beyond the path of a node goes on in its child. -/
theorem descend_beyond (s : Bool) (rest : List Bool) :
    ((node index segment children).branch algorithm).descend (.ofBits (segment ++ s :: rest))
        sibling =
      ⟨.ofBits segment, sibling, none⟩ ::
        ((children s).branch algorithm).descend (.ofBits (s :: rest))
          (some ((children (!s)).branch algorithm).commitment) := by
  cases s <;> simp [branch, Branch.ofNode, Branch.descend, CommonPrefix.of_ofBits,
    CommonPrefix.sharedList_append_right, Path.skip_ofBits]

/-- A query that does not run beyond the path of a node stops there. -/
theorem descend_stop (hne : segment ≠ []) {query : Path}
    (h : ∀ s rest, query.bits ≠ segment ++ s :: rest) :
    ((node index segment children).branch algorithm).descend query sibling =
      [⟨.ofBits segment, sibling, some (.node (pair algorithm children))⟩] := by
  simp only [branch, Branch.ofNode, Branch.descend]
  rw [if_pos]
  · rfl
  · rcases eq_or_ne query .zero with rfl | hzero
    -- A query without a sentinel shares no bits with the node, whose path is not empty.
    · rw [CommonPrefix.path_of_zero]
      exact .inl fun heq => hne (Path.ofBits_inj.1 heq).symm
    · rw [← Path.ofBits_bits hzero, CommonPrefix.of_ofBits]
      rcases prefix_or_beyond_or_fork query.bits segment with
        ⟨tail, htail⟩ | ⟨s, rest, hrest⟩ | ⟨common, s, rest, tail, hquery, hsegment⟩
      · rw [htail, CommonPrefix.sharedList_append_left, Path.skip_ofBits (Nat.le_refl _)]
        cases tail with
        | nil => simp
        | cons t tail => simp [Path.ofBits_inj]
      · exact absurd hrest (h s rest)
      · rw [hquery, hsegment, CommonPrefix.sharedList_fork]
        simp [Path.ofBits_inj]

/-! ## The steps under a branch -/

/-- What the steps made under a branch say of it: they lead up to the commitment to the branch and
its sibling, and disclose the leaf where the query lands. -/
structure Shows (algorithm : Algorithm) (side : Bool) (L : Layout f)
    (sibling : Option (Commitment f)) (bits : List Bool) (steps : List (Step f)) : Prop where
  /-- There is a step. -/
  ne_nil : steps ≠ []
  /-- Every path has its sentinel. -/
  ne_zero : ∀ step ∈ steps, step.path ≠ .zero
  /-- The steps lead up to the branch beside its sibling. -/
  ascend : Step.ascend algorithm steps =
    some (.beside algorithm side (some (L.branch algorithm).commitment) sibling)
  /-- The steps disclose the leaf where the query lands, and spell its key. -/
  leaf : Step.leaf steps = (L.branch algorithm).landing bits

/-- The steps made for a query under a branch show the branch. -/
theorem descend_spec {L : Layout f} (hf : L.Formed side) (algorithm : Algorithm) (query : Path)
    (sibling : Option (Commitment f)) :
    L.Shows algorithm side sibling query.bits ((L.branch algorithm).descend query sibling) := by
  induction L generalizing side query sibling with
  | leaf index segment value =>
    refine ⟨by simp [branch, Branch.ofLeaf, Branch.descend], ?_, ?_, ?_⟩
    · simp [branch, Branch.ofLeaf, Branch.descend, Path.ofBits_ne_zero]
    · obtain ⟨rest, rfl⟩ := List.head?_eq_some_iff.1 hf
      simp only [branch, Branch.ofLeaf, Branch.descend, Step.ascend, Step.lift_eq,
        Path.isRight_cons]
      rfl
    · simp [branch, Branch.ofLeaf, Branch.descend, Branch.landing, Step.leaf, Step.disclosed,
        Step.spelled]
  | node index segment children ih =>
    obtain ⟨hseg, hc⟩ := hf
    obtain ⟨tail, htail⟩ := List.head?_eq_some_iff.1 hseg
    have hne : segment ≠ [] := by simp [htail]
    have hside : (Path.ofBits segment).isRight = side := by rw [htail, Path.isRight_cons]
    rcases beyond_or_stop query.bits segment with ⟨s, rest, hquery⟩ | hstop
    · have hq : query = .ofBits (segment ++ s :: rest) :=
        Path.eq_ofBits_of_bits hquery (by simp)
      obtain ⟨inner_ne, inner_zero, inner_ascend, inner_leaf⟩ :=
        ih s (hc s) (.ofBits (s :: rest))
          (some ((children (!s)).branch algorithm).commitment)
      rw [hquery, hq, descend_beyond]
      refine ⟨by simp, ?_, ?_, ?_⟩
      · intro step hstep
        rcases List.mem_cons.1 hstep with rfl | hstep
        · exact Path.ofBits_ne_zero segment
        · exact inner_zero step hstep
      -- The steps under a child lead up to the pair of both children, whichever side it is on.
      · rw [Step.ascend, Step.lift_eq, inner_ascend, beside_eq_pair, hside]
        rfl
      · rw [Step.leaf_cons _ inner_ne, inner_leaf, Path.bits_ofBits, Path.bits_ofBits,
          landing_beyond]
    · rw [descend_stop hne hstop]
      refine ⟨by simp, ?_, ?_, ?_⟩
      · simp [Path.ofBits_ne_zero]
      · rw [Step.ascend, Step.lift_eq, hside]
        rfl
      · rw [landing_stop hstop]
        rfl

end Layout

/-! ## The proof made for a query -/

namespace Forest

variable {r : Forest f}

theorem child_root (r : Forest f) (algorithm : Algorithm) (s : Bool) :
    (r.root algorithm).child s = (r s).map (Layout.branch algorithm) := by
  cases s <;> rfl

theorem child_of_some {s : Bool} {L : Layout f} (h : r s = some L) (algorithm : Algorithm) :
    (r.root algorithm).child s = some (L.branch algorithm) := by
  rw [child_root, h]
  rfl

theorem child_of_none {s : Bool} (h : r s = none) (algorithm : Algorithm) :
    (r.root algorithm).child s = none := by
  rw [child_root, h]
  rfl

/-- The steps for a query are those under the branch on the side of the query. -/
theorem descend_of_some {query : Path} {L : Layout f} (h : r query.isRight = some L)
    (algorithm : Algorithm) :
    (r.root algorithm).descend query = (L.branch algorithm).descend query
      (((r.root algorithm).child (!query.isRight)).map Branch.commitment) := by
  unfold Root.descend
  rw [child_of_some h]

/-- A query that begins with an empty slot of the root ends there. -/
theorem descend_of_none {query : Path} (h : r query.isRight = none) (algorithm : Algorithm) :
    (r.root algorithm).descend query =
      [⟨Root.vacantPath query, ((r.root algorithm).child (!query.isRight)).map Branch.commitment,
        none⟩] := by
  unfold Root.descend
  rw [child_of_none h]

theorem commitment_root (r : Forest f) (algorithm : Algorithm) (s : Bool) :
    (r.root algorithm).commitment =
      .beside algorithm s (((r.root algorithm).child s).map Branch.commitment)
        (((r.root algorithm).child (!s)).map Branch.commitment) := by
  cases s <;> rfl

theorem isRight_vacantPath (query : Path) : (Root.vacantPath query).isRight = query.isRight := by
  unfold Root.vacantPath
  split
  · rename_i hzero
    have hcode : query.code = 0 := by simpa [Path.isZero] using hzero
    rw [Path.isRight_cons]
    simp [Path.isRight, hcode]
  · rfl

theorem vacantPath_ne_zero (query : Path) : Root.vacantPath query ≠ .zero := by
  unfold Root.vacantPath
  split
  · exact Path.ofBits_ne_zero _
  · rename_i hzero
    rintro rfl
    exact hzero rfl

/-- The proof made for any query leads up to the root, and discloses the leaf where the query
lands. -/
theorem Formed.prove_spec (hf : r.Formed) (algorithm : Algorithm) (query : Path) :
    let p := (r.root algorithm).prove query
    p.Wellformed ∧ Step.ascend p.algorithm p.outer = some p.root ∧
      Step.leaf p.outer = (r.root algorithm).landing query := by
  intro p
  have halgorithm : p.algorithm = algorithm := rfl
  have hroot : p.root = (r.root algorithm).commitment := rfl
  have houter : p.outer = (r.root algorithm).descend query := List.reverse_reverse _
  rw [halgorithm, hroot, houter, r.commitment_root algorithm query.isRight, Root.landing]
  cases hL : r query.isRight with
  | none =>
    rw [descend_of_none hL, child_of_none hL]
    refine ⟨⟨?_, ?_⟩, ?_, rfl⟩
    · rw [houter, descend_of_none hL]
      exact List.cons_ne_nil _ _
    · rw [houter, descend_of_none hL]
      simp [vacantPath_ne_zero]
    · rw [Step.ascend, Step.lift_eq, isRight_vacantPath]
      rfl
  | some L =>
    have hshows := Layout.descend_spec (hf _ L hL) algorithm query
      (((r.root algorithm).child (!query.isRight)).map Branch.commitment)
    rw [descend_of_some hL, child_of_some hL]
    refine ⟨⟨?_, ?_⟩, hshows.ascend, hshows.leaf⟩
    · rw [houter, descend_of_some hL]
      exact hshows.ne_nil
    · rw [houter, descend_of_some hL]
      exact hshows.ne_zero

/-- The proof made for any query is valid, whatever it is checked against. -/
theorem Formed.prove_valid (hf : r.Formed) (algorithm : Algorithm) (query query' : Path) :
    (((r.root algorithm).prove query).verify query').valid = true := by
  obtain ⟨hwf, hascend, -⟩ := hf.prove_spec algorithm query
  exact Proof.valid_iff.2 ⟨hwf, hascend⟩

end Forest

end MerkleTrie
