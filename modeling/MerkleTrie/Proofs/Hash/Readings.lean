-- SUMMARY: What the byte strings of leaves and of pairs of children say: in a sum trie all that they were made of, in a plain one all but the side of some single children.
import MerkleTrie.Proofs.Hash.Preimages

/-! # Readings

The byte string of a leaf of a sum trie is a list of three strings and that of a
pair of children a list of four, so it is read in one way only
(`HashInput.readings_unique`). In a plain trie the digests of the children stand
side by side, with a zero byte for an absent one. A zero byte at the end of a digest
may be taken for this mark. So a single child on the left may have the bytes of one
on the right, and that is the only case in which a pair of plain children is read
in two ways (`Commitment.pairPreimage_plain_eq_iff`). -/

namespace MerkleTrie

/-! ## Lists -/

/-- A leaf of a sum trie has three fields and a pair of children four. -/
theorem leafPreimage_ne_pairPreimage {path : Path} {v : Flavour.sum.Value}
    {l r : Option (Commitment .sum)} (hsize : (Flavour.leafPreimage path v).length < 2 ^ 64) :
    Flavour.leafPreimage path v ≠ Commitment.pairPreimage l r := by
  rw [leafPreimage_sum_eq] at hsize ⊢
  rw [Commitment.pairPreimage_sum_eq]
  intro h
  have hlength := congrArg List.length (Rlp.encodeStrings_inj hsize h)
  simp only [List.length_cons, List.length_nil] at hlength
  omega

/-- The byte strings of leaves and of pairs of children of a sum trie say what they were made of:
leaves the path, the value and the counter, pairs on each side whether there is a child, its digest
and its counter, and both which of the two they are. Byte strings have less than `2 ^ 64` bytes, so
that their lengths are machine words. -/
theorem HashInput.readings_unique :
    (∀ (path path' : Path) (v v' : Flavour.sum.Value),
      (Flavour.leafPreimage path v).length < 2 ^ 64 →
      Flavour.leafPreimage path v = Flavour.leafPreimage path' v' → path = path' ∧ v = v') ∧
    (∀ l r l' r' : Option (Commitment .sum), (Commitment.pairPreimage l r).length < 2 ^ 64 →
      Commitment.pairPreimage l r = Commitment.pairPreimage l' r' → l = l' ∧ r = r') ∧
    ∀ (path : Path) (v : Flavour.sum.Value) (l r : Option (Commitment .sum)),
      (Flavour.leafPreimage path v).length < 2 ^ 64 →
      Flavour.leafPreimage path v ≠ Commitment.pairPreimage l r :=
  ⟨fun _ _ _ _ => leafPreimage_sum_inj, fun _ _ _ _ => Commitment.pairPreimage_sum_inj,
    fun _ _ _ _ => leafPreimage_ne_pairPreimage⟩

/-- A value and a counter that are cut at another place make other bytes, and no pair has them. -/
theorem HashInput.readings_of_cut_leaf :
    let v : Flavour.sum.Value := (⟨[0x01], 512⟩ : CountedValue)
    let v' : Flavour.sum.Value := (⟨[0x01, 0x02], 0⟩ : CountedValue)
    (Flavour.leafPreimage ⟨2⟩ v).length < 2 ^ 64 ∧
      Flavour.leafPreimage ⟨2⟩ v ≠ Flavour.leafPreimage ⟨2⟩ v' ∧
      ∀ l r : Option (Commitment .sum),
        Flavour.leafPreimage ⟨2⟩ v ≠ Commitment.pairPreimage l r := by
  intro v v'
  obtain ⟨hleaf, -, hpair⟩ := readings_unique
  have hsize : (Flavour.leafPreimage ⟨2⟩ v).length < 2 ^ 64 := by decide +kernel
  have hne : v ≠ v' := fun h => absurd (congrArg CountedValue.counter h) (by decide)
  exact ⟨hsize, fun h => hne (hleaf _ _ _ _ hsize h).2, fun l r => hpair _ _ l r hsize⟩

/-! ## Digests side by side -/

namespace Commitment

variable {algorithm : Algorithm} {l r l' r' : Option (Commitment .plain)}

/-- One pair has a child on the left only and the other on the right only, and the digests are the
same but for a zero byte, which the one begins with and the other ends in. -/
def Mistakable (l r l' r' : Option (Commitment .plain)) : Prop :=
  ∃ c c' middle, l = some c ∧ r = none ∧ l' = none ∧ r' = some c' ∧
    c.hash.bytes = 0 :: middle ∧ c'.hash.bytes = middle ++ [0]

theorem Mistakable.pairPreimage_eq (h : Mistakable l r l' r') :
    pairPreimage l r = pairPreimage l' r' := by
  obtain ⟨c, c', middle, rfl, rfl, rfl, rfl, hleft, hright⟩ := h
  change c.hash.bytes ++ [0] = [0] ++ c'.hash.bytes
  rw [hleft, hright]
  rfl

/-- A pair with a left child has the bytes of one without only if both pairs have a single child. -/
theorem mistakable_of_left {c : Commitment .plain}
    (h : (HashInput.pair (some c) r).Native algorithm)
    (h' : (HashInput.pair none r').Native algorithm)
    (heq : pairPreimage (some c) r = pairPreimage none r') :
    Mistakable (some c) r none r' := by
  have hlong := c.hash.one_lt_length_bytes
  have hlength := congrArg List.length heq
  change (c.hash.bytes ++ (part r).1).length = ([0] ++ (part r').1).length at hlength
  rw [List.length_append, List.length_append, List.length_singleton] at hlength
  cases r' with
  | none =>
    have hmarker : (part (none : Option (Commitment .plain))).1.length = 1 := rfl
    have hr := one_le_length_part r
    omega
  | some c' =>
    have hsame : (part (some c')).1.length = c.hash.bytes.length :=
      Digest.length_bytes_eq ((h'.2 c' rfl).trans (h.1 c rfl).symm)
    obtain rfl : r = none := eq_none_of_length_part (by omega)
    -- The mark behind the left digest is the last byte of the right one, and conversely.
    change c.hash.bytes ++ [0] = 0 :: c'.hash.bytes at heq
    obtain ⟨b, middle, hbytes⟩ := List.exists_cons_of_length_pos (Nat.zero_lt_of_lt hlong)
    rw [hbytes, List.cons_append] at heq
    obtain ⟨rfl, hmiddle⟩ := List.cons.inj heq
    exact ⟨c, c', middle, rfl, rfl, rfl, rfl, hbytes, hmiddle.symm⟩

/-- Pairs of children of a plain trie whose digests are of one algorithm have the same bytes if and
only if they are the same pair, or single children on opposite sides whose digests are the same but
for a zero byte at the ends. -/
theorem pairPreimage_plain_eq_iff (h : (HashInput.pair l r).Native algorithm)
    (h' : (HashInput.pair l' r').Native algorithm) :
    pairPreimage l r = pairPreimage l' r' ↔
      (l = l' ∧ r = r') ∨ Mistakable l r l' r' ∨ Mistakable l' r' l r := by
  constructor
  · intro heq
    -- Where both pairs have a left child or both have none, the bytes are cut at the same place.
    have hcut : l.map (·.hash.algorithm) = l'.map (·.hash.algorithm) → l = l' ∧ r = r' :=
      fun hl => HashInput.beside_preimage_inj (s := false) hl (fun hf => by cases hf) heq
    cases l with
    | none =>
      cases l' with
      | none => exact .inl (hcut rfl)
      | some c' => exact .inr (.inr (mistakable_of_left h' h heq.symm))
    | some c =>
      cases l' with
      | none => exact .inr (.inl (mistakable_of_left h h' heq))
      | some c' => exact .inl (hcut (congrArg some ((h.1 c rfl).trans (h'.1 c' rfl).symm)))
  · rintro (⟨rfl, rfl⟩ | hleft | hright)
    · rfl
    · exact hleft.pairPreimage_eq
    · exact hright.pairPreimage_eq.symm

/-- Digests of zero bytes only. -/
theorem pairPreimage_zeros_eq_iff :
    let c : Commitment .plain := ⟨⟨.sha256, List.replicate 32 0, rfl⟩, ()⟩
    (HashInput.pair (some c) none).Native .sha256 ∧
      (HashInput.pair none (some c)).Native .sha256 ∧
      (pairPreimage (some c) none = pairPreimage none (some c) ↔
        (some c = none ∧ none = some c) ∨ Mistakable (some c) none none (some c) ∨
          Mistakable none (some c) (some c) none) := by
  intro c
  have hleft : (HashInput.pair (some c) none).Native .sha256 := by simp [HashInput.Native, c]
  have hright : (HashInput.pair none (some c)).Native .sha256 := by simp [HashInput.Native, c]
  exact ⟨hleft, hright, pairPreimage_plain_eq_iff hleft hright⟩

/-- The hash of a leaf at the path `2` begins with a zero byte. The pair with this leaf alone on the
left has the bytes of a pair with another digest alone on the right, and a proof that takes it for
this one finds the slot of the leaf empty and is valid. -/
theorem exists_empty_slot_of_leaf :
    let leaf : Commitment .plain := .ofLeaf .sha256 ⟨2⟩ [0x02, 0x04]
    let other : Commitment .plain :=
      ⟨⟨.sha256,
        [0xfd, 0x3d, 0xa8, 0x0f, 0x6d, 0xfb, 0xbe, 0x8c,
          0x47, 0x5c, 0x80, 0x1b, 0x41, 0x64, 0x1b, 0xbe,
          0xa0, 0x3d, 0xcb, 0x21, 0x3f, 0xfb, 0x79, 0x5c,
          0x25, 0x55, 0x4d, 0x43, 0x45, 0xe4, 0xe0, 0x00], rfl⟩, ()⟩
    let p : Proof .plain := ⟨.ofPair .sha256 (some leaf) none, [⟨⟨2⟩, some other, none⟩]⟩
    pairPreimage (some leaf) none = pairPreimage none (some other) ∧
      (some leaf, none) ≠ ((none, some other) : Option (Commitment .plain) × Option _) ∧
      p.verify ⟨2⟩ = ⟨true, false⟩ := by
  decide +kernel

end Commitment

end MerkleTrie
