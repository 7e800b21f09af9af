-- SUMMARY: The branches of a hashed trie, each with the key bits above it, its side and its sibling, and which accepted keys lie under it.
import MerkleTrie.Proofs.Root.Canonical
import MerkleTrie.Proofs.Root.Prove

/-! # Sites

A hashed branch knows the bits from its parent only. A site is a branch together
with what the way down to it adds: the bits above it, the side on which it hangs
and the commitment to the branch beside it. The list of all sites lets a property
of the branches of a trie be stated by whole keys. In the trie of a forest the
sites stand for layouts, and the keys under a site are those that begin with the
key of the site (`Forest.Formed.entries_at`). -/

namespace MerkleTrie

variable {f : Flavour}

/-- A branch of a hashed trie and where it stands. -/
structure Site (f : Flavour) where
  /-- The key bits from the root to the parent of the branch. -/
  above : List Bool
  /-- The side of the parent on which the branch hangs. -/
  isRight : Bool
  branch : Branch f
  /-- The commitment to the other branch under the same parent. -/
  sibling : Option (Commitment f)

/-- All branches from a branch inwards, each before those under it, where the given bits lie above
the branch and it hangs on the given side. -/
def Branch.sites (above : List Bool) (isRight : Bool) (sibling : Option (Commitment f)) :
    Branch f → List (Site f)
  | b@(.leaf ..) => [⟨above, isRight, b, sibling⟩]
  | b@(.node path left right _ _) =>
    ⟨above, isRight, b, sibling⟩ ::
      (left.sites (above ++ path.bits) false (some right.commitment) ++
        right.sites (above ++ path.bits) true (some left.commitment))

namespace Site

/-- The whole key of the branch, its own bits included. -/
def key (p : Site f) : List Bool := p.above ++ p.branch.path.bits

/-- The child of a node on a side. A leaf has none. -/
def child (p : Site f) (s : Bool) : Option (Site f) :=
  match p.branch with
  | .leaf .. => none
  | .node _ left right _ _ =>
    if s then some ⟨p.key, true, right, some left.commitment⟩
    else some ⟨p.key, false, left, some right.commitment⟩

/-- The sites from this one inwards. -/
def inward (p : Site f) : List (Site f) := p.branch.sites p.above p.isRight p.sibling

end Site

namespace Root

/-- The branch on a side of the root. -/
def site (r : Root f) (s : Bool) : Option (Site f) :=
  (r.child s).map fun branch => ⟨[], s, branch, (r.child (!s)).map Branch.commitment⟩

/-- The sites on a side of the root. -/
def sitesOn (r : Root f) (s : Bool) : List (Site f) := (r.site s).elim [] Site.inward

/-- All branches of a trie, each before those under it. -/
def sites (r : Root f) : List (Site f) := r.sitesOn false ++ r.sitesOn true

end Root

/-! ## The two sides -/

/-- If nothing on the other side passes a test, what passes on both is what passes on this side. -/
theorem filter_of_other_side {α : Type} (on : Bool → List α) {test : α → Bool} {s : Bool}
    (h : (on !s).filter test = []) : (on false ++ on true).filter test = (on s).filter test := by
  rw [List.filter_append]
  cases s with
  | false => exact (congrArg _ h).trans (List.append_nil _)
  | true => exact (congrArg (· ++ _) h).trans (List.nil_append _)

/-- Bits that lead to one side are no prefix of bits that lead to the other. -/
theorem not_prefix_of_other_side (common : List Bool) {bits key : List Bool} {s : Bool}
    (hkey : common ++ [s] <+: key) (hbits : bits.head? = some (!s)) : ¬ key <+: common ++ bits := by
  have hapart : Apart [s] bits := Apart.of_head_ne rfl hbits (by simp)
  intro hprefix
  exact hapart.1 ((List.prefix_append_right_inj common).1 (hkey.trans hprefix))

/-! ## Sites of a layout -/

namespace Layout

variable {algorithm : Algorithm} {above : List Bool} {side : Bool}
  {sibling : Option (Commitment f)} {p : Site f}

/-- The site of the topmost branch of a layout that hangs under the given bits. -/
def site (algorithm : Algorithm) (above : List Bool) (side : Bool)
    (sibling : Option (Commitment f)) (L : Layout f) : Site f :=
  ⟨above, side, L.branch algorithm, sibling⟩

theorem path_branch (L : Layout f) (algorithm : Algorithm) :
    (L.branch algorithm).path = .ofBits L.segment := by
  cases L <;> rfl

theorem key_site (L : Layout f) :
    (L.site algorithm above side sibling).key = above ++ L.segment := by
  simp only [Site.key, site, path_branch, Path.bits_ofBits]

section Node

variable {index : Nat} {segment : List Bool} {children : Bool → Layout f}

/-- The site of a child of a node. -/
def childSite (algorithm : Algorithm) (above segment : List Bool) (children : Bool → Layout f)
    (s : Bool) : Site f :=
  (children s).site algorithm (above ++ segment) s
    (some ((children (!s)).branch algorithm).commitment)

theorem child_site (s : Bool) :
    ((node index segment children).site algorithm above side sibling).child s =
      some (childSite algorithm above segment children s) := by
  cases s <;>
    simp [Site.child, Site.key, site, childSite, branch, Branch.ofNode, Branch.path]

theorem inward_node :
    ((node index segment children).site algorithm above side sibling).inward =
      (node index segment children).site algorithm above side sibling ::
        ((childSite algorithm above segment children false).inward ++
          (childSite algorithm above segment children true).inward) := by
  simp [Site.inward, site, childSite, branch, Branch.ofNode, Branch.sites]

theorem mem_inward_node :
    p ∈ ((node index segment children).site algorithm above side sibling).inward ↔
      p = (node index segment children).site algorithm above side sibling ∨
        ∃ s, p ∈ (childSite algorithm above segment children s).inward := by
  simp only [inward_node, List.mem_cons, List.mem_append, Bool.exists_bool]

end Node

theorem mem_inward_leaf {index : Nat} {segment : List Bool} {value : f.Value} :
    p ∈ ((leaf index segment value).site algorithm above side sibling).inward ↔
      p = (leaf index segment value).site algorithm above side sibling :=
  List.mem_singleton

theorem prefix_key_site (L : Layout f) :
    above ++ L.segment <+: (L.site algorithm above side sibling).key :=
  ⟨[], by rw [key_site, List.append_nil]⟩

/-- The keys of all sites begin with the key of the topmost one. -/
theorem segment_prefix_key_site {L : Layout f}
    (hp : p ∈ (L.site algorithm above side sibling).inward) : above ++ L.segment <+: p.key := by
  induction L generalizing above side sibling with
  | leaf =>
    rw [mem_inward_leaf.1 hp]
    exact prefix_key_site _
  | node index segment children ih =>
    rcases mem_inward_node.1 hp with rfl | ⟨s, hs⟩
    · exact prefix_key_site _
    · exact (List.prefix_append _ _).trans (ih s hs)

/-- The keys of all sites go on to the side of the topmost one. -/
theorem Formed.prefix_key {L : Layout f} (hf : L.Formed side)
    (hp : p ∈ (L.site algorithm above side sibling).inward) : above ++ [side] <+: p.key := by
  have hsegment := segment_prefix_key_site hp
  obtain ⟨tail, htail⟩ := List.head?_eq_some_iff.1 hf.head_segment
  rw [htail] at hsegment
  exact ((List.prefix_append_right_inj above).2 (List.prefix_append [side] tail)).trans hsegment

/-- The branch at a site is the hashed form of a layout. -/
theorem exists_branch_eq {L : Layout f} (hp : p ∈ (L.site algorithm above side sibling).inward) :
    ∃ M : Layout f, p.branch = M.branch algorithm := by
  induction L generalizing above side sibling with
  | leaf index segment value => exact ⟨_, congrArg Site.branch (mem_inward_leaf.1 hp)⟩
  | node index segment children ih =>
    rcases mem_inward_node.1 hp with rfl | ⟨s, hs⟩
    · exact ⟨_, rfl⟩
    · exact ih s hs

/-- All keys under a branch begin with its key. -/
theorem entries_at_top (L : Layout f) (algorithm : Algorithm) (above : List Bool) (side : Bool)
    (sibling : Option (Commitment f)) :
    (L.entries.map (Entry.under above)).filter
        (fun e => (L.site algorithm above side sibling).key <+: e.1) =
      (L.site algorithm above side sibling).branch.leaves.map (Entry.under above) := by
  rw [key_site, site, leaves_branch]
  refine List.filter_eq_self.2 fun e he => ?_
  obtain ⟨e', he', rfl⟩ := List.mem_map.1 he
  simpa using segment_prefix_key he'

/-- The keys under a site are those that begin with its key. -/
theorem Formed.entries_at {L : Layout f} (hf : L.Formed side)
    (hp : p ∈ (L.site algorithm above side sibling).inward) :
    (L.entries.map (Entry.under above)).filter (fun e => p.key <+: e.1) =
      p.branch.leaves.map (Entry.under p.above) := by
  induction L generalizing above side sibling with
  | leaf =>
    rw [mem_inward_leaf.1 hp]
    exact entries_at_top ..
  | node index segment children ih =>
    rcases mem_inward_node.1 hp with rfl | ⟨s, hs⟩
    · exact entries_at_top ..
    · have hother : ((children (!s)).entries.map (Entry.under (above ++ segment))).filter
          (fun e => p.key <+: e.1) = [] := by
        refine List.filter_eq_nil_iff.2 fun e he => ?_
        obtain ⟨e', he', rfl⟩ := List.mem_map.1 he
        have hpart := not_prefix_of_other_side (above ++ segment) ((hf.2 s).prefix_key hs)
          ((hf.2 !s).head_key he')
        simpa using hpart
      have hunder : (node index segment children).entries.map (Entry.under above) =
          (children false).entries.map (Entry.under (above ++ segment)) ++
            (children true).entries.map (Entry.under (above ++ segment)) := by
        rw [entries, List.map_map, List.map_append]
        simp only [Function.comp_def, ← Entry.under_append]
      rw [hunder, filter_of_other_side
        (fun t => (children t).entries.map (Entry.under (above ++ segment))) hother]
      exact ih s (hf.2 s) hs

end Layout

/-! ## Sites of a forest -/

namespace Forest

variable {algorithm : Algorithm} {r : Forest f} {p : Site f}

theorem site_of_some {s : Bool} {L : Layout f} (h : r s = some L) (algorithm : Algorithm) :
    (r.root algorithm).site s = some (L.site algorithm [] s
      (((r.root algorithm).child (!s)).map Branch.commitment)) := by
  rw [Root.site, child_of_some h]
  rfl

theorem site_of_none {s : Bool} (h : r s = none) (algorithm : Algorithm) :
    (r.root algorithm).site s = none := by
  rw [Root.site, child_of_none h]
  rfl

theorem sitesOn_of_some {s : Bool} {L : Layout f} (h : r s = some L) (algorithm : Algorithm) :
    (r.root algorithm).sitesOn s = (L.site algorithm [] s
      (((r.root algorithm).child (!s)).map Branch.commitment)).inward := by
  rw [Root.sitesOn, site_of_some h]
  rfl

theorem sitesOn_of_none {s : Bool} (h : r s = none) (algorithm : Algorithm) :
    (r.root algorithm).sitesOn s = [] := by
  rw [Root.sitesOn, site_of_none h]
  rfl

theorem mem_sites :
    p ∈ (r.root algorithm).sites ↔ ∃ s, p ∈ (r.root algorithm).sitesOn s := by
  rw [Root.sites, List.mem_append, Bool.exists_bool]

theorem exists_of_mem_sitesOn {s : Bool} (hp : p ∈ (r.root algorithm).sitesOn s) :
    ∃ L, r s = some L := by
  cases hL : r s with
  | none =>
    rw [sitesOn_of_none hL] at hp
    cases hp
  | some L => exact ⟨L, rfl⟩

/-- The branch at a site is the hashed form of a layout. -/
theorem exists_branch_eq (hp : p ∈ (r.root algorithm).sites) :
    ∃ M : Layout f, p.branch = M.branch algorithm := by
  obtain ⟨s, hs⟩ := mem_sites.1 hp
  obtain ⟨L, hL⟩ := exists_of_mem_sitesOn hs
  rw [sitesOn_of_some hL] at hs
  exact Layout.exists_branch_eq hs

/-- The keys of the sites on a side begin with the bit of the side. -/
theorem Formed.head_key_site (hf : r.Formed) {s : Bool} (hp : p ∈ (r.root algorithm).sitesOn s) :
    [s] <+: p.key := by
  obtain ⟨L, hL⟩ := exists_of_mem_sitesOn hp
  rw [sitesOn_of_some hL] at hp
  exact (hf s L hL).prefix_key hp

/-- The keys under a site are those that begin with its key. -/
theorem Formed.entries_at (hf : r.Formed) (hp : p ∈ (r.root algorithm).sites) :
    r.entries.filter (fun e => p.key <+: e.1) = p.branch.leaves.map (Entry.under p.above) := by
  obtain ⟨s, hs⟩ := mem_sites.1 hp
  obtain ⟨L, hL⟩ := exists_of_mem_sitesOn hs
  have hother : (r.entriesOn !s).filter (fun e => p.key <+: e.1) = [] := by
    refine List.filter_eq_nil_iff.2 fun e he => ?_
    have hpart := not_prefix_of_other_side [] (hf.head_key_site hs) (hf.head_key he)
    simpa using hpart
  rw [entries, filter_of_other_side r.entriesOn hother, entriesOn_of_some hL]
  rw [sitesOn_of_some hL] at hs
  have hentries := (hf s L hL).entries_at hs
  have hunder : L.entries.map (Entry.under []) = L.entries := List.map_id _
  rwa [hunder] at hentries

end Forest

end MerkleTrie
