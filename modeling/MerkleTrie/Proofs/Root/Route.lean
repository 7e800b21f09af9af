-- SUMMARY: What the steps made for a query disclose: the nodes that the query runs beyond, and the branch that it meets behind the last of them.
import MerkleTrie.Proofs.Root.Sites

/-! # The route of a query

Which branches a query passes on its way can be said of all branches of a trie at
once, with no descent: they are the nodes whose whole key is a proper prefix of
the query's bits (`Site.PassedBy`). The steps made for a query stand for exactly
these, from the root inwards, and then for the branch that comes next on the
query's side (`Layout.Formed.descend_eq`). -/

namespace MerkleTrie

variable {f : Flavour}

/-- What a proof that ends in the branch discloses of it. -/
def Branch.terminal : Branch f → Terminal f
  | .leaf _ value _ => .leaf value
  | .node _ _ _ children _ => .node children

namespace Site

/-- The branch is a node whose whole key is a proper prefix of the bits. -/
def PassedBy (bits : List Bool) (p : Site f) : Prop :=
  p.branch.isLeaf = false ∧ p.key <+: bits ∧ p.key ≠ bits

instance (bits : List Bool) (p : Site f) : Decidable (p.PassedBy bits) :=
  inferInstanceAs (Decidable (_ ∧ _ ∧ _))

/-- The step of a branch that is passed. -/
def passage (p : Site f) : Step f := ⟨p.branch.path, p.sibling, none⟩

/-- The step of a branch in which a query ends. -/
def disclosure (p : Site f) : Step f := ⟨p.branch.path, p.sibling, some p.branch.terminal⟩

/-- The branch that bits meet behind a list of passed nodes: the child of the last node on the side
of the next bit, or the one at the start if no node is passed. -/
def after (bits : List Bool) (start : Option (Site f)) (passed : List (Site f)) :
    Option (Site f) :=
  match passed.getLast? with
  | none => start
  | some p => bits[p.key.length]?.bind p.child

theorem after_cons (bits : List Bool) (start : Option (Site f)) (p : Site f)
    (passed : List (Site f)) :
    after bits start (p :: passed) = after bits (bits[p.key.length]?.bind p.child) passed := by
  cases passed <;> rfl

/-- Bits that pass a branch go on behind its key. -/
theorem PassedBy.exists_eq {bits : List Bool} {p : Site f} (h : p.PassedBy bits) :
    ∃ s rest, bits = p.key ++ s :: rest := by
  obtain ⟨-, ⟨tail, htail⟩, hne⟩ := h
  cases tail with
  | nil => exact absurd (by simpa using htail) hne
  | cons s rest => exact ⟨s, rest, htail.symm⟩

end Site

namespace Root

/-- The nodes that a query passes, from the root inwards. -/
def passed (r : Root f) (query : Path) : List (Site f) :=
  r.sites.filter (·.PassedBy query.bits)

/-- The branch on the side of a query behind the last node that it passes, or at the root. -/
def next (r : Root f) (query : Path) : Option (Site f) :=
  Site.after query.bits (r.site query.isRight) (r.passed query)

/-- The step for an empty slot of the root. -/
def vacancy (r : Root f) (query : Path) : Step f :=
  ⟨vacantPath query, (r.child (!query.isRight)).map Branch.commitment, none⟩

end Root

/-! ## Under a branch -/

namespace Layout

variable {algorithm : Algorithm} {above : List Bool} {side : Bool}
  {sibling : Option (Commitment f)}

section Node

variable {index : Nat} {segment : List Bool} {children : Bool → Layout f}

/-- Bits that do not run beyond the path of a node pass no branch from the node inwards. -/
theorem not_passedBy_of_stop {bits : List Bool} (h : ∀ s rest, bits ≠ segment ++ s :: rest)
    {p : Site f}
    (hp : p ∈ ((node index segment children).site algorithm above side sibling).inward) :
    ¬ p.PassedBy (above ++ bits) := by
  intro hpassed
  obtain ⟨t, more, hbits⟩ := hpassed.exists_eq
  obtain ⟨tail, htail⟩ := segment_prefix_key_site hp
  rw [← htail, List.append_assoc, List.append_assoc, List.append_cancel_left_eq] at hbits
  cases tail with
  | nil => exact h t more hbits
  | cons s tail => exact h s (tail ++ t :: more) hbits

/-- Bits that run beyond the path of a node pass the node and what they pass from its child on. -/
theorem passed_of_beyond (hf : (node index segment children).Formed side) (s : Bool)
    (rest : List Bool) :
    ((node index segment children).site algorithm above side sibling).inward.filter
        (·.PassedBy (above ++ segment ++ s :: rest)) =
      (node index segment children).site algorithm above side sibling ::
        (childSite algorithm above segment children s).inward.filter
          (·.PassedBy (above ++ segment ++ s :: rest)) := by
  have htop : ((node index segment children).site algorithm above side sibling).PassedBy
      (above ++ segment ++ s :: rest) := by
    refine ⟨rfl, ?_, ?_⟩
    · rw [key_site]
      exact List.prefix_append _ _
    · rw [key_site]
      simp [Layout.segment]
  have hother : (childSite algorithm above segment children (!s)).inward.filter
      (·.PassedBy (above ++ segment ++ s :: rest)) = [] := by
    refine List.filter_eq_nil_iff.2 fun p hp hpassed => ?_
    refine not_prefix_of_other_side (above ++ segment) ((hf.2 !s).prefix_key hp) ?_
      (of_decide_eq_true hpassed).2.1
    simp
  rw [inward_node, List.filter_cons_of_pos (by simpa using htop),
    filter_of_other_side (fun t => (childSite algorithm above segment children t).inward) hother]

/-- Behind a node comes its child on the side of the next bit. -/
theorem after_node (s : Bool) (rest : List Bool) (start : Option (Site f))
    (passed : List (Site f)) :
    Site.after (above ++ segment ++ s :: rest) start
        ((node index segment children).site algorithm above side sibling :: passed) =
      Site.after (above ++ segment ++ s :: rest)
        (some (childSite algorithm above segment children s)) passed := by
  have hnext : (above ++ segment ++ s :: rest)[(above ++ segment).length]? = some s := by
    simp
  rw [Site.after_cons, key_site, Layout.segment, hnext, Option.bind_some, child_site]

end Node

/-- The steps made under a branch are those of the nodes passed, from the branch inwards, and that
of the branch that the query meets behind the last of them. -/
theorem Formed.descend_eq {L : Layout f} (hf : L.Formed side) (algorithm : Algorithm)
    (above : List Bool) (query : Path) (sibling : Option (Commitment f)) :
    let top := L.site algorithm above side sibling
    let passed := top.inward.filter (·.PassedBy (above ++ query.bits))
    ∃ last, Site.after (above ++ query.bits) (some top) passed = some last ∧
      ¬ last.PassedBy (above ++ query.bits) ∧
      (L.branch algorithm).descend query sibling =
        passed.map Site.passage ++ [last.disclosure] := by
  intro top passed
  induction L generalizing above side query sibling with
  | leaf index segment value =>
    have hleaf : ¬ top.PassedBy (above ++ query.bits) := fun h => Bool.noConfusion h.1
    have hpassed : passed = [] := List.filter_cons_of_neg fun h => hleaf (of_decide_eq_true h)
    rw [hpassed]
    exact ⟨top, rfl, hleaf, rfl⟩
  | node index segment children ih =>
    rcases beyond_or_stop query.bits segment with ⟨s, rest, hquery⟩ | hstop
    · have hq : query = .ofBits (segment ++ s :: rest) := Path.eq_ofBits_of_bits hquery (by simp)
      have hbits : above ++ query.bits = above ++ segment ++ s :: rest := by
        rw [hquery, List.append_assoc]
      obtain ⟨last, hlast, hends, hsteps⟩ := ih s (hf.2 s) (above ++ segment) (.ofBits (s :: rest))
        (some ((children (!s)).branch algorithm).commitment)
      rw [Path.bits_ofBits] at hlast hends hsteps
      have hpassed : passed = top :: (childSite algorithm above segment children s).inward.filter
          (·.PassedBy (above ++ segment ++ s :: rest)) := by
        rw [← passed_of_beyond hf s rest, ← hbits]
      refine ⟨last, ?_, ?_, ?_⟩
      · rw [hpassed, hbits, after_node]
        exact hlast
      · rwa [hbits]
      · rw [hpassed, List.map_cons, List.cons_append, hq, descend_beyond, hsteps]
        rfl
    · have hne : segment ≠ [] := hf.segment_ne_nil
      have hnone : ∀ p ∈ top.inward, ¬ p.PassedBy (above ++ query.bits) :=
        fun p hp => not_passedBy_of_stop hstop hp
      have hpassed : passed = [] := List.filter_eq_nil_iff.2 (by simpa using hnone)
      rw [hpassed, descend_stop hne hstop]
      exact ⟨top, rfl, hnone top (mem_inward_node.2 (.inl rfl)), rfl⟩

/-- The nodes passed under a branch stand ever further inwards. -/
theorem Formed.pairwise_passed {L : Layout f} (hf : L.Formed side) (algorithm : Algorithm)
    (above bits : List Bool) (sibling : Option (Commitment f)) :
    ((L.site algorithm above side sibling).inward.filter (·.PassedBy (above ++ bits))).Pairwise
      fun p q => p.key.length < q.key.length := by
  induction L generalizing above side bits sibling with
  | leaf => exact (List.pairwise_singleton _ _).filter _
  | node index segment children ih =>
    rcases beyond_or_stop bits segment with ⟨s, rest, rfl⟩ | hstop
    · rw [← List.append_assoc, passed_of_beyond hf s rest, List.pairwise_cons]
      refine ⟨fun q hq => ?_, ih s (hf.2 s) (above ++ segment) (s :: rest) _⟩
      have hkey := ((hf.2 s).prefix_key (List.mem_filter.1 hq).1).length_le
      rw [List.length_append, List.length_singleton] at hkey
      rwa [key_site, Layout.segment]
    · rw [List.filter_eq_nil_iff.2 fun p hp hpassed =>
        not_passedBy_of_stop hstop hp (of_decide_eq_true hpassed)]
      exact .nil

/-- Every node passed leaves a leaf behind on its other side, so there are no more steps than
leaves. -/
theorem Formed.length_descend_le_entries {L : Layout f} (hf : L.Formed side)
    (algorithm : Algorithm) (query : Path) (sibling : Option (Commitment f)) :
    ((L.branch algorithm).descend query sibling).length ≤ L.entries.length := by
  induction L generalizing side query sibling with
  | leaf => exact Nat.le_refl 1
  | node index segment children ih =>
    have hne : segment ≠ [] := hf.segment_ne_nil
    rcases beyond_or_stop query.bits segment with ⟨s, rest, hquery⟩ | hstop
    · have hinner := ih s (hf.2 s) (.ofBits (s :: rest))
        (some ((children (!s)).branch algorithm).commitment)
      have hother := List.length_pos_iff.2 (children (!s)).entries_ne_nil
      rw [Path.eq_ofBits_of_bits hquery (by simp), descend_beyond, List.length_cons,
        (entries_node_perm index segment children s).length_eq, List.length_map, List.length_append]
      exact Nat.add_le_add hinner hother
    · rw [descend_stop hne hstop]
      exact List.length_pos_iff.2 (entries_ne_nil _)

/-- Every node passed takes a bit off the query and leaves one, so there are no more steps than
bits, or one step. -/
theorem Formed.length_descend_le_bits {L : Layout f} (hf : L.Formed side) (algorithm : Algorithm)
    (query : Path) (sibling : Option (Commitment f)) :
    ((L.branch algorithm).descend query sibling).length ≤ max 1 query.bits.length := by
  induction L generalizing side query sibling with
  | leaf => exact Nat.le_max_left ..
  | node index segment children ih =>
    have hne : segment ≠ [] := hf.segment_ne_nil
    rcases beyond_or_stop query.bits segment with ⟨s, rest, hquery⟩ | hstop
    · have hinner := ih s (hf.2 s) (.ofBits (s :: rest))
        (some ((children (!s)).branch algorithm).commitment)
      have hsegment := List.length_pos_iff.2 hne
      rw [Path.bits_ofBits, List.length_cons] at hinner
      rw [hquery, Path.eq_ofBits_of_bits hquery (by simp), descend_beyond, List.length_cons,
        List.length_append, List.length_cons]
      omega
    · rw [descend_stop hne hstop]
      exact Nat.le_max_left ..

end Layout

/-! ## From the root -/

namespace Forest

variable {r : Forest f}

/-- A query passes nodes on its own side only. -/
theorem Formed.passed_eq (hf : r.Formed) (algorithm : Algorithm) (query : Path) :
    (r.root algorithm).passed query =
      ((r.root algorithm).sitesOn query.isRight).filter (·.PassedBy query.bits) := by
  refine filter_of_other_side (r.root algorithm).sitesOn ?_
  refine List.filter_eq_nil_iff.2 fun p hp hpassed => ?_
  have hkey := hf.head_key_site hp
  have hprefix := (of_decide_eq_true hpassed).2.1
  have hne : query.bits ≠ [] := by
    intro hnil
    rw [hnil] at hprefix
    cases List.prefix_nil.1 (hkey.trans hprefix)
  have hhead : query.bits.head? = some (!!query.isRight) := by
    rw [Path.head?_bits hne, Bool.not_not]
  exact not_prefix_of_other_side [] hkey hhead hprefix

/-- The nodes that a query passes stand ever further inwards. -/
theorem Formed.pairwise_passed (hf : r.Formed) (algorithm : Algorithm) (query : Path) :
    ((r.root algorithm).passed query).Pairwise fun p q => p.key.length < q.key.length := by
  rw [hf.passed_eq]
  cases hL : r query.isRight with
  | none =>
    rw [sitesOn_of_none hL]
    exact .nil
  | some L =>
    rw [sitesOn_of_some hL]
    exact (hf _ L hL).pairwise_passed algorithm [] query.bits _

/-- The steps made for a query are those of the nodes that it passes, and that of the branch that
it meets behind the last of them, or of an empty slot of the root. -/
theorem Formed.descend_eq (hf : r.Formed) (algorithm : Algorithm) (query : Path) :
    let R := r.root algorithm
    ∃ last, R.descend query = (R.passed query).map Site.passage ++ [last] ∧
      ((∃ p, R.next query = some p ∧ ¬ p.PassedBy query.bits ∧ last = p.disclosure) ∨
        R.next query = none ∧ R.passed query = [] ∧ last = R.vacancy query) ∧
      (last.terminal = none ↔ R.child query.isRight = none) := by
  intro R
  have hpassed := hf.passed_eq algorithm query
  cases hL : r query.isRight with
  | none =>
    have hchild : R.child query.isRight = none := child_of_none hL algorithm
    have hnone : R.passed query = [] := by rw [hpassed, sitesOn_of_none hL, List.filter_nil]
    refine ⟨R.vacancy query, ?_, .inr ⟨?_, hnone, rfl⟩, fun _ => hchild, fun _ => rfl⟩
    · rw [descend_of_none hL, hnone]
      rfl
    · rw [Root.next, hnone, site_of_none hL]
      rfl
  | some L =>
    rw [sitesOn_of_some hL] at hpassed
    obtain ⟨last, hlast, hends, hsteps⟩ := (hf _ L hL).descend_eq algorithm [] query
      (((r.root algorithm).child (!query.isRight)).map Branch.commitment)
    rw [List.nil_append] at hlast hends hsteps
    have hchild : R.child query.isRight ≠ none := by simp [R, child_of_some hL]
    refine ⟨last.disclosure, ?_, .inl ⟨last, ?_, hends, rfl⟩, ?_⟩
    · rw [descend_of_some hL, hsteps, hpassed]
    · rw [Root.next, hpassed, site_of_some hL]
      exact hlast
    · exact iff_of_false (Option.some_ne_none _) hchild

/-- There are no more steps than leaves and no more than bits of the query, or one step. -/
theorem Formed.length_descend_le (hf : r.Formed) (algorithm : Algorithm) (query : Path) :
    ((r.root algorithm).descend query).length ≤
      max 1 (min (r.root algorithm).leaves.length query.length) := by
  rw [leaves_root, ← Path.length_bits]
  cases hL : r query.isRight with
  | none =>
    rw [descend_of_none hL]
    exact Nat.le_max_left ..
  | some L =>
    have hentries := (r.entries_perm query.isRight).length_eq
    rw [entriesOn_of_some hL, List.length_append] at hentries
    have hleaves := (hf _ L hL).length_descend_le_entries algorithm query
      (((r.root algorithm).child (!query.isRight)).map Branch.commitment)
    have hbits := (hf _ L hL).length_descend_le_bits algorithm query
      (((r.root algorithm).child (!query.isRight)).map Branch.commitment)
    rw [descend_of_some hL]
    omega

end Forest

/-! ## Runs -/

namespace Builder

/-- After any run, the steps made for a query are, from the root inwards, those of the nodes whose
keys are proper prefixes of the query's bits, and then that of the branch that comes next on the
query's side, which is disclosed. Only for an empty slot of the root nothing is disclosed, and then
there is one step. There are no more steps than leaves and no more than bits of the query, or one
step. -/
theorem prove_follows_query (algorithm : Algorithm) (operations : List (Operation f)) :
    let start : Builder f := { algorithm }
    ∃ c, (start.run operations).calculateRoot = .ok c ∧ ∀ query,
      ∃ first outer, (c.root.prove query).steps = first :: outer ∧
        (∀ step ∈ first :: outer, step.path ≠ .zero) ∧
        (∀ step ∈ outer, step.terminal = none) ∧
        outer.reverse = (c.root.passed query).map Site.passage ∧
        (c.root.passed query).Pairwise (fun p q => p.key.length < q.key.length) ∧
        ((∃ p, c.root.next query = some p ∧ ¬ p.PassedBy query.bits ∧ first = p.disclosure) ∨
          c.root.next query = none ∧ first = c.root.vacancy query ∧ outer = []) ∧
        (first.terminal = none ↔ c.root.child query.isRight = none) ∧
        (first :: outer).length ≤ max 1 (min c.root.leaves.length query.length) := by
  intro start
  obtain ⟨r, c, hc, hroot, hf, -⟩ := calculateRoot_run algorithm operations
  refine ⟨c, hc, fun query => ?_⟩
  rw [hroot]
  obtain ⟨last, hsteps, hlast, hterminal⟩ := hf.descend_eq algorithm query
  have hprove : ((r.root algorithm).prove query).steps =
      last :: (((r.root algorithm).passed query).map Site.passage).reverse := by
    rw [Root.prove, hsteps, List.reverse_append, List.reverse_singleton, List.singleton_append]
  have hlength := hf.length_descend_le algorithm query
  rw [hsteps, List.length_append, List.length_singleton] at hlength
  refine ⟨last, _, hprove, ?_, ?_, List.reverse_reverse _,
    hf.pairwise_passed algorithm query, ?_, hterminal, ?_⟩
  · intro step hstep
    refine (hf.prove_spec algorithm query).1.ne_zero step ?_
    rw [Proof.outer, hprove]
    exact List.mem_reverse.2 hstep
  · intro step hstep
    obtain ⟨p, -, rfl⟩ := List.mem_map.1 (List.mem_reverse.1 hstep)
    rfl
  · rcases hlast with hnext | ⟨hnext, hpassed, hvacant⟩
    · exact .inl hnext
    · refine .inr ⟨hnext, hvacant, ?_⟩
      rw [hpassed]
      rfl
  · rwa [List.length_cons, List.length_reverse]

end Builder

end MerkleTrie
