-- SUMMARY: When a valid proof that does not include a query shows that the trie has no leaf there: the proof must answer the query.
import MerkleTrie.Proofs.Proof.Ascent
import MerkleTrie.Proofs.Proof.Honest

/-! # Non-inclusion

The check of a proof compares the steps with the query only where it compares
whole keys. A valid proof that does not include a query may stand in quite
another part of the trie, and then it says nothing of the query.
`Step.answers` is the missing comparison, step by step: that the paths lead
along the query, and that the innermost step stands where the query would have
to go on. Where a proof answers a query and its digests do not mislead, it
discloses the leaf that the trie has there (`Forest.Formed.leaf_of_answers`). -/

namespace MerkleTrie

variable {f : Flavour}

/-! ## Answering a query -/

namespace Step

/-- Whether the innermost step stands where the remaining bits lead: on their side, and not at a
node that they run beyond. -/
def meets (step : Step f) (bits : List Bool) : Bool :=
  match bits with
  | [] => true
  | s :: _ =>
    step.path.isRight == s &&
      match step.terminal with
      | some (.node _) => !(step.path.bits.isPrefixOf bits && step.path.bits.length < bits.length)
      | _ => true

/-- Whether steps lead along the given bits, the outermost step first. -/
def answers : List (Step f) → List Bool → Bool
  | [], _ => false
  | [step], bits => step.meets bits
  | step :: inner, bits =>
    step.path.bits.isPrefixOf bits && answers inner (bits.drop step.path.bits.length)

theorem answers_cons (step : Step f) {inner : List (Step f)} (h : inner ≠ []) (bits : List Bool) :
    answers (step :: inner) bits =
      (step.path.bits.isPrefixOf bits && answers inner (bits.drop step.path.bits.length)) := by
  cases inner with
  | nil => exact absurd rfl h
  | cons _ _ => rfl

/-- Steps that disclose a leaf lead along its key. -/
theorem answers_of_leaf {steps : List (Step f)} {e : Entry f} (h : leaf steps = some e) :
    answers steps e.1 = true := by
  induction steps generalizing e with
  | nil => cases h
  | cons step inner ih =>
    rcases eq_or_ne inner [] with rfl | hinner
    · rcases step with ⟨path, sibling, _ | (value | children)⟩
      · cases h
      · obtain rfl := Option.some.inj h
        simp only [answers, meets, spelled, List.flatMap_cons, List.flatMap_nil, List.append_nil]
        split
        · rfl
        · rename_i s rest hbits
          rw [Path.eq_ofBits_of_bits_cons hbits, Path.isRight_cons]
          simp
      · cases h
    · rw [leaf_cons step hinner, Option.map_eq_some_iff] at h
      obtain ⟨e', he', rfl⟩ := h
      rw [answers_cons step hinner, Entry.under_key, List.drop_left, ih he', Bool.and_true,
        List.isPrefixOf_iff_prefix]
      exact List.prefix_append _ _

end Step

/-- Whether a proof leads to where a query would have to be. -/
def Proof.answers (p : Proof f) (query : Path) : Bool := Step.answers p.outer query.bits

/-- A proof that includes a query answers it. -/
theorem Proof.answers_of_included {p : Proof f} {query : Path}
    (h : (p.verify query).included = true) : p.answers query = true := by
  obtain ⟨-, value, hleaf⟩ := Proof.included_iff.1 h
  obtain ⟨e, he, heq⟩ := Option.map_eq_some_iff.1 hleaf
  have hquery : query = .ofBits e.1 := (congrArg Prod.fst heq).symm
  unfold Proof.answers
  rw [hquery, Path.bits_ofBits]
  exact Step.answers_of_leaf he

/-! ## Steps that lead up to a forest -/

namespace Forest

variable {algorithm : Algorithm} {r : Forest f}

/-- The innermost step discloses the leaf, if it stands where the key leads. -/
theorem Formed.leaf_of_meets (hf : r.Formed) {step : Step f}
    (hfaithful : HashInput.Faithful algorithm (r.root algorithm).inputs
      (Step.inputs algorithm [step]))
    (hascend : Step.ascend algorithm [step] = some (r.root algorithm).commitment) {e : Entry f}
    (he : e ∈ r.entries) (hmeets : step.meets e.1 = true) : Step.leaf [step] = some e := by
  obtain ⟨s, L, hL, he⟩ := mem_entries.1 he
  obtain ⟨rest, hkey⟩ := List.head?_eq_some_iff.1 ((hf s L hL).head_key he)
  unfold Step.meets at hmeets
  rw [hkey] at hmeets
  obtain ⟨hside, hterminal⟩ := Bool.and_eq_true_iff.1 hmeets
  have hown := own_of_hash hfaithful (congrArg Commitment.hash (Option.some.inj hascend))
  rw [eq_of_beq hside, hL] at hown
  have hinput := ownInput_of_own hfaithful hL hown
  rcases step with ⟨path, sibling, _ | (value | pair)⟩
  · cases hown
  · cases L with
    | leaf index segment value' =>
      obtain rfl := List.mem_singleton.1 he
      cases hinput
      simp [Step.leaf, Step.disclosed, Step.spelled]
    | node => cases hinput
  · cases L with
    | leaf => cases hinput
    | node index segment children =>
      -- All keys under a node run beyond its path, and there the step does not meet them.
      injection hinput with hinput
      injection hinput with hpath
      subst hpath
      obtain ⟨t, e', he', rfl⟩ := Layout.mem_entries_node.1 he
      obtain ⟨rest', hrest'⟩ := List.head?_eq_some_iff.1 (((hf s _ hL).2 t).head_key he')
      rw [← hkey, Entry.under_key, hrest'] at hterminal
      have hbeyond : segment.isPrefixOf (segment ++ t :: rest') = true :=
        List.isPrefixOf_iff_prefix.2 (List.prefix_append _ _)
      simp [hbeyond] at hterminal

/-- A step that is not the innermost stands for a node, and if its path leads along the key of a
leaf, the leaf is under that node. -/
theorem Formed.node_of_passes (hf : r.Formed) {step : Step f} {inner : List (Step f)}
    (hinner : inner ≠ [])
    (hfaithful : HashInput.Faithful algorithm (r.root algorithm).inputs
      (Step.inputs algorithm (step :: inner)))
    (hascend : Step.ascend algorithm (step :: inner) = some (r.root algorithm).commitment)
    {e : Entry f} (he : e ∈ r.entries) (hlead : step.path.bits <+: e.1) :
    ∃ s index segment children e', r s = some (.node index segment children) ∧
      step.path = .ofBits segment ∧
      Step.ascend algorithm inner = some ((ofChildren children).root algorithm).commitment ∧
      e' ∈ (ofChildren children).entries ∧ e'.under segment = e := by
  obtain ⟨index, segment, children, hM, hpath, hinnerascend⟩ :=
    node_of_ascend hinner hfaithful (congrArg Commitment.hash (Option.some.inj hascend))
  -- The key begins with the path of this node, so its leaf is on this side and under this node.
  rw [hpath, Path.bits_ofBits] at hlead
  obtain ⟨tail, htail⟩ := hlead
  obtain ⟨t, L, hL, heL⟩ := mem_entries.1 he
  have hseg : segment.head? = some step.path.isRight := (hf _ _ hM).head_segment
  have hside : step.path.isRight = t := by
    have hhead := (hf t L hL).head_key heL
    rw [← htail, List.head?_append, hseg] at hhead
    exact Option.some.inj hhead
  rw [hside, hL] at hM
  obtain rfl := Option.some.inj hM
  obtain ⟨u, e', he', hunder⟩ := Layout.mem_entries_node.1 heL
  exact ⟨t, index, segment, children, e', hL, hpath, hinnerascend,
    Layout.mem_entries_ofChildren.2 ⟨u, he'⟩, hunder⟩

/-- If digests do not mislead, steps that lead up to a forest along the key of one of its leaves
disclose that leaf. -/
theorem Formed.leaf_of_answers (hf : r.Formed) {steps : List (Step f)}
    (hfaithful : HashInput.Faithful algorithm (r.root algorithm).inputs
      (Step.inputs algorithm steps))
    (hascend : Step.ascend algorithm steps = some (r.root algorithm).commitment) {e : Entry f}
    (he : e ∈ r.entries) (hanswers : Step.answers steps e.1 = true) :
    Step.leaf steps = some e := by
  induction steps generalizing r e with
  | nil => cases hascend
  | cons step inner ih =>
    rcases eq_or_ne inner [] with rfl | hinner
    · exact hf.leaf_of_meets hfaithful hascend he hanswers
    · rw [Step.answers_cons step hinner] at hanswers
      obtain ⟨hlead, hanswers⟩ := Bool.and_eq_true_iff.1 hanswers
      obtain ⟨s, index, segment, children, e', hL, hpath, hinnerascend, he', rfl⟩ :=
        hf.node_of_passes hinner hfaithful hascend he (List.isPrefixOf_iff_prefix.1 hlead)
      rw [hpath, Path.bits_ofBits, Entry.under_key, List.drop_left] at hanswers
      have hdeeper := ih (hf s _ hL).ofChildren (faithful_ofChildren hfaithful hL) hinnerascend he'
        hanswers
      rw [Step.leaf_cons step hinner, hdeeper, hpath, Path.bits_ofBits]
      rfl

end Forest

/-! ## Honest proofs answer their own query -/

theorem Step.meets_of_stop {segment bits : List Bool} {side : Bool}
    {sibling : Option (Commitment f)} {terminal : Option (Terminal f)}
    (hseg : segment.head? = some side) (hside : ∀ s rest, bits = s :: rest → s = side)
    (hstop : ∀ children, terminal = some (.node children) →
      ∀ s rest, bits ≠ segment ++ s :: rest) :
    Step.meets ⟨.ofBits segment, sibling, terminal⟩ bits = true := by
  obtain ⟨tail, rfl⟩ := List.head?_eq_some_iff.1 hseg
  cases bits with
  | nil => rfl
  | cons s rest =>
    simp only [Step.meets, Path.isRight_cons, hside s rest rfl, beq_self_eq_true, Bool.true_and,
      Path.bits_ofBits]
    rcases terminal with _ | (value | children)
    · rfl
    · rfl
    · by_cases hp : side :: tail <+: side :: rest
      · obtain ⟨more, hmore⟩ := hp
        rw [← hmore]
        cases more with
        | nil => simp
        | cons t more =>
          obtain rfl := hside s rest rfl
          exact absurd hmore.symm (hstop children rfl t more)
      · rw [← List.isPrefixOf_iff_prefix, Bool.not_eq_true] at hp
        rw [hp]
        rfl

theorem Layout.answers_descend {algorithm : Algorithm} {L : Layout f} {side : Bool}
    (hf : L.Formed side) (query : Path) (sibling : Option (Commitment f))
    (hside : ∀ s rest, query.bits = s :: rest → s = side) :
    Step.answers ((L.branch algorithm).descend query sibling) query.bits = true := by
  induction L generalizing side query sibling with
  | leaf index segment value =>
    apply Step.meets_of_stop hf hside
    intro children hterminal
    cases hterminal
  | node index segment children ih =>
    obtain ⟨hseg, hc⟩ := hf
    rcases beyond_or_stop query.bits segment with ⟨s, rest, hquery⟩ | hstop
    · have hq : query = .ofBits (segment ++ s :: rest) :=
        Path.eq_ofBits_of_bits hquery (by simp)
      have hinner := ih s (hc s) (.ofBits (s :: rest))
        (some ((children (!s)).branch algorithm).commitment) (by simp)
      have hshows := descend_spec (hc s) algorithm (.ofBits (s :: rest))
        (some ((children (!s)).branch algorithm).commitment)
      rw [Path.bits_ofBits] at hinner
      rw [hq, descend_beyond, Step.answers_cons _ hshows.ne_nil]
      simp only [Path.bits_ofBits, List.drop_left, hinner, Bool.and_true,
        List.isPrefixOf_iff_prefix]
      exact List.prefix_append _ _
    · have hne : segment ≠ [] := by
        rintro rfl
        cases hseg
      rw [descend_stop hne hstop]
      exact Step.meets_of_stop hseg hside fun _ _ => hstop

/-- The proof that a root makes for a query answers it. -/
theorem Forest.Formed.answers_prove {r : Forest f} (hf : r.Formed) (algorithm : Algorithm)
    (query : Path) : ((r.root algorithm).prove query).answers query = true := by
  have houter : ((r.root algorithm).prove query).outer = (r.root algorithm).descend query :=
    List.reverse_reverse _
  have hside : ∀ s rest, query.bits = s :: rest → s = query.isRight := by
    intro s rest hbits
    rw [Path.eq_ofBits_of_bits_cons hbits, Path.isRight_cons]
  rw [Proof.answers, houter, Root.descend, child_root]
  cases hL : r query.isRight with
  | none =>
    simp only [Option.map_none, Step.answers, Step.meets]
    cases hbits : query.bits with
    | nil => rfl
    | cons s rest => simp [isRight_vacantPath, ← hside s rest hbits]
  | some L => exact L.answers_descend (hf _ L hL) query _ hside

/-- The proof for a query on one side is valid and includes no query on the other side. -/
theorem Forest.Formed.prove_other_side {r : Forest f} (hf : r.Formed) (algorithm : Algorithm)
    {query : Path} {s : Bool} (hquery : query.bits.head? = some s) :
    ((r.root algorithm).prove (.ofBits [!s])).verify query = ⟨true, false⟩ := by
  obtain ⟨-, -, hleaf⟩ := hf.prove_spec algorithm (.ofBits [!s])
  have hvalid := hf.prove_valid algorithm (.ofBits [!s]) query
  have hexcluded : ¬ (((r.root algorithm).prove (.ofBits [!s])).verify query).included = true := by
    rw [Proof.included_iff, hleaf]
    rintro ⟨-, value, hlanding⟩
    obtain ⟨e, he, heq⟩ := Option.map_eq_some_iff.1 hlanding
    obtain ⟨L, hL, heL⟩ := mem_of_landing he
    have hkey : query = .ofBits e.1 := (congrArg Prod.fst heq).symm
    have hhead := (hf _ L hL).head_key heL
    rw [hkey, Path.bits_ofBits, hhead, Path.isRight_cons] at hquery
    cases s <;> cases hquery
  generalize Proof.verify _ query = verdict at hvalid hexcluded ⊢
  rcases verdict with ⟨valid, included⟩
  simp_all

/-! ## Runs -/

namespace Builder

/-- After any run, a valid proof that does not include a query shows that no leaf is there exactly
if it answers the query or no leaf is there anyway, unless digests mislead. The proof that the root
makes for a query answers it. But for every leaf the root also makes a proof, for another query,
that is valid and does not include the leaf. -/
theorem nonInclusion_iff_answers (algorithm : Algorithm) (operations : List (Operation f)) :
    let start : Builder f := { algorithm }
    ∃ c, (start.run operations).calculateRoot = .ok c ∧
      (∀ p : Proof f, p.root = c.root.commitment → ∀ query, (p.verify query).valid = true →
        HashInput.Collides algorithm (c.root.inputs ++ p.inputs) ∨
          HashInput.Ambiguous c.root.inputs p.inputs ∨
          (((p.verify query).included = false →
              ∀ value, (query, value) ∉ start.accepted operations) ↔
            p.answers query = true ∨ ∀ value, (query, value) ∉ start.accepted operations)) ∧
      (∀ query, (c.root.prove query).answers query = true) ∧
      ∀ query value, (query, value) ∈ start.accepted operations →
        ∃ query', (c.root.prove query').verify query = ⟨true, false⟩ := by
  intro start
  obtain ⟨r, h, hp, ha⟩ := run_represents algorithm operations
  obtain ⟨c, hc, hroot, -, -⟩ := h.calculateRoot
  rw [ha] at hroot
  refine ⟨c, hc, ?_, ?_, ?_⟩
  · intro p hproot query hvalid
    obtain ⟨hwf, hascend⟩ := Proof.valid_iff.1 hvalid
    have halgorithm : p.algorithm = algorithm := by
      unfold Proof.algorithm
      rw [hproot, hroot]
      rfl
    rw [halgorithm, hproot, hroot] at hascend
    unfold Proof.inputs
    rw [halgorithm, hroot]
    rcases HashInput.faithful_or algorithm (r.root algorithm).inputs
      (Step.inputs algorithm p.outer) with hcollides | hambiguous | hfaithful
    · exact .inl hcollides
    · exact .inr (.inl hambiguous)
    refine .inr (.inr ⟨?_, ?_⟩)
    · intro hsound
      by_cases hincluded : (p.verify query).included = true
      · exact .inl (Proof.answers_of_included hincluded)
      · exact .inr (hsound (Bool.not_eq_true _ ▸ hincluded))
    · rintro (hanswers | hnone) hexcluded value
      · intro hmem
        obtain ⟨e, he, heq⟩ := List.mem_map.1 (hp.mem_iff.2 hmem)
        have hquery : query = .ofBits e.1 := (congrArg Prod.fst heq).symm
        unfold Proof.answers at hanswers
        rw [hquery, Path.bits_ofBits] at hanswers
        have hleaf := h.formed.leaf_of_answers hfaithful hascend he hanswers
        have hincluded : (p.verify query).included = true :=
          Proof.included_iff.2 ⟨hwf, value, by rw [hleaf, Option.map_some, heq]⟩
        rw [hincluded] at hexcluded
        cases hexcluded
      · exact hnone value
  · intro query
    rw [hroot]
    exact h.formed.answers_prove algorithm query
  · intro query value hmem
    obtain ⟨e, he, heq⟩ := List.mem_map.1 (hp.mem_iff.2 hmem)
    obtain ⟨s, L, hL, heL⟩ := Forest.mem_entries.1 he
    have hquery : query = .ofBits e.1 := (congrArg Prod.fst heq).symm
    refine ⟨.ofBits [!s], ?_⟩
    rw [hroot]
    apply h.formed.prove_other_side algorithm
    rw [hquery, Path.bits_ofBits]
    exact (h.formed s L hL).head_key heL

/-- In a trie with one leaf the proof for a path on the other side is valid and does not include the
leaf, although no digest misleads. -/
theorem exists_nonInclusion_of_leaf :
    let start : Builder .plain := {}
    let operations : List (Operation .plain) := [.insert ⟨2⟩ [0xaa]]
    ∃ c, (start.run operations).calculateRoot = .ok c ∧
      (c.root.prove ⟨3⟩).root = c.root.commitment ∧
      (c.root.prove ⟨3⟩).verify ⟨2⟩ = ⟨true, false⟩ ∧
      ((⟨2⟩, [0xaa]) : Path × Flavour.plain.Value) ∈ start.accepted operations ∧
      ¬ HashInput.Collides .sha256 (c.root.inputs ++ (c.root.prove ⟨3⟩).inputs) ∧
      ¬ HashInput.Ambiguous c.root.inputs (c.root.prove ⟨3⟩).inputs :=
  exists_ok_of_any (by decide +kernel)

-- An ambiguity cannot be left out: the bytes of a short path and its value are those of a longer
-- path without a value, and a proof for the longer path answers the shorter one.
example :
    let start : Builder .plain := {}
    ∃ c, (start.run [.insert ⟨2⟩ [4]]).calculateRoot = .ok c ∧
      let p : Proof .plain := ⟨c.root.commitment, [⟨⟨516⟩, none, some (.leaf [])⟩]⟩
      p.verify ⟨2⟩ = ⟨true, false⟩ ∧ p.answers ⟨2⟩ = true ∧
        ¬ HashInput.Collides .sha256 (c.root.inputs ++ p.inputs) :=
  exists_ok_of_any (by decide +kernel)

end Builder

end MerkleTrie
