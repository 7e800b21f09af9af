-- SUMMARY: Which inputs of a hash have a byte string in common, and that otherwise a byte string says what it was put together from.
import MerkleTrie.Proofs.Hash.Inputs
import MerkleTrie.Proofs.Rlp.Codec

/-! # Byte strings and what they are put together from

The byte strings of a sum trie are lists, except for those of nodes; the fields of
a list are told apart. The parts of all other byte strings follow one another
without a mark, and are told apart only as far as the length of a digest is known.
So a leaf may have the bytes of a node in either flavour, and in the plain one
also those of another leaf. `HashInput.eq_or_confusable` says that there is
nothing else: `Kind.Confusable` is the list of all cases. -/

namespace MerkleTrie

variable {f : Flavour}

/-! ## Digests and paths -/

theorem Algorithm.digestLength_inj {a a' : Algorithm} :
    a.digestLength = a'.digestLength ↔ a = a' := by
  cases a <;> cases a' <;> decide

namespace Digest

/-- No two algorithms have digests of one length, so the bytes of a digest say all. -/
theorem eq_of_bytes {d d' : Digest} (h : d.bytes = d'.bytes) : d = d' := by
  have halgorithm : d.algorithm = d'.algorithm := by
    rw [← Algorithm.digestLength_inj, ← d.length_bytes, h, d'.length_bytes]
  cases d
  cases d'
  simp_all

theorem one_lt_length_bytes (d : Digest) : 1 < d.bytes.length := by
  rw [d.length_bytes]
  cases d.algorithm <;> decide

theorem length_bytes_eq {d d' : Digest} (h : d.algorithm = d'.algorithm) :
    d.bytes.length = d'.bytes.length := by
  rw [d.length_bytes, d'.length_bytes, h]

end Digest

namespace Path

theorem toNat_toBytes (p : Path) : p.toBytes.toNat = p.code := by
  unfold toBytes
  split
  · rename_i h
    rw [h]
    rfl
  · exact Bytes.toNat_ofNat p.code

theorem toBytes_inj {p q : Path} : p.toBytes = q.toBytes ↔ p = q := by
  refine ⟨fun h => ?_, congrArg toBytes⟩
  have hcode := congrArg Bytes.toNat h
  rw [toNat_toBytes, toNat_toBytes] at hcode
  cases p
  cases q
  exact congrArg mk hcode

theorem toBytes_ne_nil (p : Path) : p.toBytes ≠ [] := by
  unfold toBytes
  split
  · exact List.cons_ne_nil _ _
  · rename_i h
    exact Bytes.ofNat_ne_nil (Nat.pos_of_ne_zero h)

/-- A path whose first byte has its highest bit set fills whole bytes together with its sentinel. -/
theorem length_of_toBytes {p : Path} {b : UInt8} {rest : Bytes} (h : p.toBytes = b :: rest)
    (hb : 0x80 ≤ b.toNat) : p.length = 8 * rest.length + 7 := by
  rw [length, ← p.toNat_toBytes, h, Bytes.log2_toNat_cons hb]

end Path

/-! ## Nodes and leaves -/

/-- The path and the hash of a node are told apart if the algorithm of the hash is known. -/
theorem nodePreimage_inj {path path' : Path} {d d' : Digest} (ha : d.algorithm = d'.algorithm)
    (h : nodePreimage path d = nodePreimage path' d') : path = path' ∧ d = d' := by
  obtain ⟨hpath, hbytes⟩ := List.append_inj' h (Digest.length_bytes_eq ha)
  exact ⟨Path.toBytes_inj.1 hpath, Digest.eq_of_bytes hbytes⟩

/-- Nodes with the same path are told apart by their hashes. -/
theorem nodePreimage_right_inj {path : Path} {d d' : Digest}
    (h : nodePreimage path d = nodePreimage path d') : d = d' :=
  Digest.eq_of_bytes (List.append_cancel_left h)

/-- A leaf of a sum trie is a list of three strings. -/
theorem leafPreimage_sum_eq (path : Path) (v : Flavour.sum.Value) :
    Flavour.leafPreimage path v =
      Rlp.encodeStrings [Bytes.ofNat path.code, v.value, Bytes.ofNat v.counter] := by
  change Rlp.encodeList (Rlp.encodeNat path.code ++ Rlp.encodeString v.value
    ++ Rlp.encodeNat v.counter) = _
  simp only [Rlp.encodeStrings_eq, Rlp.encodeNat, List.flatMap_cons, List.flatMap_nil,
    List.append_assoc, List.append_nil]

/-- The path, the value and the counter of a leaf of a sum trie are told apart. -/
theorem leafPreimage_sum_inj {path path' : Path} {v v' : Flavour.sum.Value}
    (hsize : (Flavour.leafPreimage path v).length < 2 ^ 64)
    (h : Flavour.leafPreimage path v = Flavour.leafPreimage path' v') : path = path' ∧ v = v' := by
  rw [leafPreimage_sum_eq] at hsize
  rw [leafPreimage_sum_eq, leafPreimage_sum_eq] at h
  have hfields := Rlp.encodeStrings_inj hsize h
  simp only [List.cons.injEq, Bytes.ofNat_inj, and_true] at hfields
  obtain ⟨hpath, hvalue, hcounter⟩ := hfields
  cases path
  cases path'
  cases v
  cases v'
  exact ⟨congrArg Path.mk hpath, congr (congrArg CountedValue.mk hvalue) hcounter⟩

/-- The byte string is short enough for the header of a list, if it is one of a sum trie. -/
def HashInput.Short (x : HashInput f) : Prop := f = .sum → x.preimage.length < 2 ^ 64

/-- Leaves with the same path are told apart by their values. -/
theorem leafPreimage_value_inj {path : Path} {v v' : f.Value}
    (hshort : (HashInput.leaf path v).Short)
    (h : Flavour.leafPreimage path v = Flavour.leafPreimage path v') : v = v' := by
  cases f with
  | plain => exact List.append_cancel_left h
  | sum => exact (leafPreimage_sum_inj (hshort rfl) h).2

/-! ## Pairs of children -/

namespace Commitment

theorem part_inj {c c' : Option (Commitment f)} : part c = part c' ↔ c = c' := by
  refine ⟨fun h => ?_, congrArg part⟩
  have hbytes := congrArg Prod.fst h
  have hlength := congrArg List.length hbytes
  -- The marker of an absent child is shorter than any digest.
  rcases c with _ | ⟨d, aggregate⟩ <;> rcases c' with _ | ⟨d', aggregate'⟩
  · rfl
  · exact absurd hlength (Nat.ne_of_lt d'.one_lt_length_bytes)
  · exact absurd hlength (Nat.ne_of_gt d.one_lt_length_bytes)
  · obtain rfl : d = d' := Digest.eq_of_bytes hbytes
    obtain rfl : aggregate = aggregate' := congrArg Prod.snd h
    rfl

/-- A pair of children of a sum trie is a list of four strings. -/
theorem pairPreimage_sum_eq (l r : Option (Commitment .sum)) :
    pairPreimage l r = Rlp.encodeStrings
      [(part l).1, Bytes.ofNat (part l).2, (part r).1, Bytes.ofNat (part r).2] := by
  change Rlp.encodeList (Rlp.encodeString (part l).1 ++ Rlp.encodeNat (part l).2
    ++ Rlp.encodeString (part r).1 ++ Rlp.encodeNat (part r).2) = _
  simp only [Rlp.encodeStrings_eq, Rlp.encodeNat, List.flatMap_cons, List.flatMap_nil,
    List.append_assoc, List.append_nil]

/-- Pairs of children of a sum trie are told apart. -/
theorem pairPreimage_sum_inj {l r l' r' : Option (Commitment .sum)}
    (hsize : (pairPreimage l r).length < 2 ^ 64) (h : pairPreimage l r = pairPreimage l' r') :
    l = l' ∧ r = r' := by
  rw [pairPreimage_sum_eq] at hsize
  rw [pairPreimage_sum_eq, pairPreimage_sum_eq] at h
  have hfields := Rlp.encodeStrings_inj hsize h
  simp only [List.cons.injEq, and_true] at hfields
  obtain ⟨hl, hlc, hr, hrc⟩ := hfields
  exact ⟨part_inj.1 (Prod.ext hl (Bytes.ofNat_inj.1 hlc)),
    part_inj.1 (Prod.ext hr (Bytes.ofNat_inj.1 hrc))⟩

/-- Children of a plain trie are told apart by their bytes. -/
theorem eq_of_bytes_part {c c' : Option (Commitment .plain)} (h : (part c).1 = (part c').1) :
    c = c' :=
  part_inj.1 (Prod.ext h rfl)

theorem one_le_length_part (c : Option (Commitment f)) : 1 ≤ (part c).1.length := by
  rcases c with _ | c
  · exact Nat.le_refl 1
  · exact Nat.le_of_lt c.hash.one_lt_length_bytes

theorem eq_none_of_length_part {c : Option (Commitment f)} (h : (part c).1.length = 1) :
    c = none := by
  rcases c with _ | c
  · rfl
  · exact absurd h (Nat.ne_of_gt c.hash.one_lt_length_bytes)

theorem length_part_eq {c c' : Option (Commitment f)}
    (h : c.map (·.hash.algorithm) = c'.map (·.hash.algorithm)) :
    (part c).1.length = (part c').1.length := by
  rcases c with _ | c <;> rcases c' with _ | c'
  · rfl
  · cases h
  · cases h
  · exact Digest.length_bytes_eq (Option.some.inj h)

end Commitment

namespace HashInput

/-- A pair of children of a sum trie is told apart, from whichever side it is seen. -/
theorem beside_preimage_sum_inj {s : Bool} {own own' sibling sibling' : Option (Commitment .sum)}
    (hsize : (beside s own sibling).preimage.length < 2 ^ 64)
    (h : (beside s own sibling).preimage = (beside s own' sibling').preimage) :
    own = own' ∧ sibling = sibling' := by
  cases s with
  | false => exact Commitment.pairPreimage_sum_inj hsize h
  | true => exact (Commitment.pairPreimage_sum_inj hsize h).symm

/-- Seen from a side on which the algorithm of the digest is known, if there is any, a pair of
children is told apart. -/
theorem beside_preimage_inj {s : Bool} {own own' sibling sibling' : Option (Commitment f)}
    (hown : own.map (·.hash.algorithm) = own'.map (·.hash.algorithm))
    (hshort : (beside s own sibling).Short)
    (h : (beside s own sibling).preimage = (beside s own' sibling').preimage) :
    own = own' ∧ sibling = sibling' := by
  have hlength := Commitment.length_part_eq hown
  cases f with
  | plain =>
    cases s with
    | false =>
      obtain ⟨ho, hs⟩ := List.append_inj h hlength
      exact ⟨Commitment.eq_of_bytes_part ho, Commitment.eq_of_bytes_part hs⟩
    | true =>
      obtain ⟨hs, ho⟩ := List.append_inj' h hlength
      exact ⟨Commitment.eq_of_bytes_part ho, Commitment.eq_of_bytes_part hs⟩
  | sum => exact beside_preimage_sum_inj (hshort rfl) h

/-! ## Kinds of inputs -/

/-- What sort of thing is hashed. Of a pair it is said which children there are. -/
inductive Kind where
  | leaf
  | node
  | pair (left right : Bool)
  deriving DecidableEq

def kind : HashInput f → Kind
  | .leaf .. => .leaf
  | .node .. => .node
  | .pair left right => .pair left.isSome right.isSome

/-- The kinds of two different inputs that may have one byte string. -/
inductive Kind.Confusable : Flavour → Kind → Kind → Prop where
  /-- The bytes of a leaf end in those of a digest, and begin with those of a path. -/
  | leafNode (f : Flavour) : Confusable f .leaf .node
  | nodeLeaf (f : Flavour) : Confusable f .node .leaf
  /-- The bytes of two leaves are cut into a path and a value at different places. -/
  | leaves : Confusable .plain .leaf .leaf
  /-- The marker of an absent child is taken for the end of a digest, on either side. -/
  | opposite (s : Bool) : Confusable .plain (.pair s !s) (.pair (!s) s)

/-- All digests in an input are of the algorithm. -/
def Native (algorithm : Algorithm) : HashInput f → Prop
  | .leaf .. => True
  | .node _ childrenHash => childrenHash.algorithm = algorithm
  | .pair left right =>
    (∀ c ∈ left, c.hash.algorithm = algorithm) ∧ ∀ c ∈ right, c.hash.algorithm = algorithm

/-- An input has a digest of the algorithm in it, unless it is a leaf. -/
def Anchored (algorithm : Algorithm) : HashInput f → Prop
  | .leaf .. => True
  | .node _ childrenHash => childrenHash.algorithm = algorithm
  | .pair left right =>
    (∃ c ∈ left, c.hash.algorithm = algorithm) ∨ ∃ c ∈ right, c.hash.algorithm = algorithm

variable {algorithm : Algorithm}

theorem native_beside {s : Bool} {own sibling : Option (Commitment f)} :
    (beside s own sibling).Native algorithm ↔
      (∀ c ∈ own, c.hash.algorithm = algorithm) ∧ ∀ c ∈ sibling, c.hash.algorithm = algorithm := by
  cases s with
  | false => exact Iff.rfl
  | true => exact and_comm

theorem length_preimage_beside (s : Bool) (own sibling : Option (Commitment .plain)) :
    (beside s own sibling).preimage.length =
      (Commitment.part own).1.length + (Commitment.part sibling).1.length := by
  cases s with
  | false => exact List.length_append
  | true => exact List.length_append.trans (Nat.add_comm ..)

/-- A pair of a plain trie with a child on a side has the bytes of no other pair, except for that of
a single child on the other side. -/
theorem beside_eq_or_opposite {s : Bool} {own sibling sibling' : Option (Commitment .plain)}
    {c : Commitment .plain} (hc : c.hash.algorithm = algorithm)
    (hnative : (beside s own sibling).Native algorithm)
    (h : (beside s own sibling).preimage = (beside s (some c) sibling').preimage) :
    beside s own sibling = beside s (some c) sibling' ∨
      Kind.Confusable .plain (beside s own sibling).kind (beside s (some c) sibling').kind := by
  obtain ⟨hown, hsibling⟩ := native_beside.1 hnative
  rcases own with _ | d
  · have hlength := congrArg List.length h
    rw [length_preimage_beside, length_preimage_beside] at hlength
    have hlong : 1 < (Commitment.part (some c)).1.length := c.hash.one_lt_length_bytes
    have hrest := Commitment.one_le_length_part sibling'
    have hmarker : (Commitment.part (none : Option (Commitment .plain))).1.length = 1 := rfl
    rcases sibling with _ | e
    · omega
    -- Both have one child, of the same length, so the other pair has none beside its own.
    · have hsame : (Commitment.part (some e)).1.length = (Commitment.part (some c)).1.length :=
        Digest.length_bytes_eq ((hsibling e rfl).trans hc.symm)
      obtain rfl : sibling' = none := Commitment.eq_none_of_length_part (by omega)
      right
      cases s with
      | false => exact Kind.Confusable.opposite false
      | true => exact Kind.Confusable.opposite true
  · left
    have halgorithm : (some d).map (·.hash.algorithm) = (some c).map (·.hash.algorithm) :=
      congrArg some ((hown d rfl).trans hc.symm)
    obtain ⟨ho, hs⟩ := beside_preimage_inj halgorithm (fun hf => by cases hf) h
    rw [ho, hs]

/-- Inputs with the same bytes are the same, or of kinds that may be confused. One side has digests
of the algorithm only, and on the other some digest of each input is of the algorithm. -/
theorem eq_or_confusable {x y : HashInput f} (hx : x.Native algorithm) (hy : y.Anchored algorithm)
    (hpair : x.isPair = y.isPair) (hshort : y.Short)
    (h : x.preimage = y.preimage) : x = y ∨ Kind.Confusable f x.kind y.kind := by
  have hsize : f = .sum → x.preimage.length < 2 ^ 64 := by
    rw [h]
    exact hshort
  cases x with
  | leaf path value =>
    cases y with
    | leaf path' value' =>
      cases f with
      | plain => exact .inr .leaves
      | sum =>
        obtain ⟨rfl, rfl⟩ := leafPreimage_sum_inj (hsize rfl) h
        exact .inl rfl
    | node => exact .inr (.leafNode f)
    | pair => cases hpair
  | node path childrenHash =>
    cases y with
    | leaf => exact .inr (.nodeLeaf f)
    | node path' childrenHash' =>
      obtain ⟨rfl, rfl⟩ := nodePreimage_inj (hx.trans hy.symm) h
      exact .inl rfl
    | pair => cases hpair
  | pair left right =>
    cases y with
    | leaf => cases hpair
    | node => cases hpair
    | pair left' right' =>
      cases f with
      | plain =>
        -- The pairs are compared from the side where the digest is known.
        rcases hy with ⟨c, hmem, hc⟩ | ⟨c, hmem, hc⟩
        · obtain rfl := hmem
          exact beside_eq_or_opposite (s := false) hc hx h
        · obtain rfl := hmem
          exact beside_eq_or_opposite (s := true) hc hx h
      | sum =>
        obtain ⟨rfl, rfl⟩ := Commitment.pairPreimage_sum_inj (hsize rfl) h
        exact .inl rfl

/-- A byte string is hashed on both sides, as two different inputs of kinds that may be confused. -/
def Misread (inputs inputs' : List (HashInput f)) : Prop :=
  ∃ x ∈ inputs, ∃ y ∈ inputs',
    Kind.Confusable f x.kind y.kind ∧ x ≠ y ∧ x.preimage = y.preimage

/-- Digests mislead only by a collision, or where a byte string is misread. -/
theorem faithful_or_misread {inputs inputs' : List (HashInput f)}
    (hx : ∀ x ∈ inputs, x.Native algorithm) (hy : ∀ y ∈ inputs', y.Anchored algorithm)
    (hshort : ∀ y ∈ inputs', y.Short) :
    Collides algorithm (inputs ++ inputs') ∨ Misread inputs inputs' ∨
      Faithful algorithm inputs inputs' := by
  rcases collides_or_separated algorithm inputs inputs' with hc | hseparated
  · exact .inl hc
  by_cases hm : Misread inputs inputs'
  · exact .inr (.inl hm)
  refine .inr (.inr ?_)
  intro x hxmem y hymem hpair hd
  have hpreimage := hseparated x hxmem y hymem hd
  rcases eq_or_confusable (hx x hxmem) (hy y hymem) hpair (hshort y hymem) hpreimage with
    heq | hconfusable
  · exact heq
  · refine Decidable.byContradiction fun hne => hm ?_
    exact ⟨x, hxmem, y, hymem, hconfusable, hne, hpreimage⟩

/-- A leaf of a sum trie has the bytes of a node only if the path of the node fills whole bytes
together with its sentinel. -/
theorem length_path_of_leafPreimage {path path' : Path} {v : Flavour.sum.Value} {d : Digest}
    (hsize : (Flavour.leafPreimage path v).length < 2 ^ 64)
    (h : Flavour.leafPreimage path v = nodePreimage path' d) : path'.length % 8 = 7 := by
  obtain ⟨b, rest, hlist, hb⟩ :=
    Rlp.encodeList_eq_cons (Nat.lt_of_le_of_lt (Rlp.length_le_encodeList _) hsize)
  obtain ⟨b', rest', hpath⟩ := List.exists_cons_of_ne_nil (path'.toBytes_ne_nil)
  have hfirst : b = b' := by
    have hbytes := hlist.symm.trans h
    rw [nodePreimage, hpath] at hbytes
    exact (List.cons.inj hbytes).1
  rw [Path.length_of_toBytes hpath (hfirst ▸ hb)]
  omega

/-- Where a byte string of a sum trie is misread, the path of some node fills whole bytes together
with its sentinel. -/
theorem Misread.exists_node {inputs inputs' : List (HashInput .sum)}
    (hshort : ∀ y ∈ inputs', y.Short) (h : Misread inputs inputs') :
    ∃ path d, .node path d ∈ inputs ++ inputs' ∧ path.length % 8 = 7 := by
  obtain ⟨x, hx, y, hy, hkinds, -, heq⟩ := h
  have hlength := hshort y hy rfl
  cases x with
  | leaf path v =>
    cases y with
    | node path' d =>
      rw [← heq] at hlength
      exact ⟨path', d, List.mem_append_right _ hy, length_path_of_leafPreimage hlength heq⟩
    | leaf => cases hkinds
    | pair => cases hkinds
  | node path d =>
    cases y with
    | leaf path' v =>
      exact ⟨path, d, List.mem_append_left _ hx, length_path_of_leafPreimage hlength heq.symm⟩
    | node => cases hkinds
    | pair => cases hkinds
  | pair =>
    cases y with
    | leaf => cases hkinds
    | node => cases hkinds
    | pair => cases hkinds

end HashInput

end MerkleTrie
