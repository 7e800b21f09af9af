-- SUMMARY: The common prefix of two paths is the longest list of key bits that both begin with, and each path is put together again from it and its remainder.
import MerkleTrie.Proofs.Path.Prefix

/-! # The longest common prefix

Two paths are compared bit by bit from the low end (`CommonPrefix.agreement`), and
the count stops below the lower of the two sentinels. So what the count leaves is the
longest list of bits that both paths begin with (`LongestCommon`), a sentinel is never
compared with a key bit, and the remainders of two paths that part go on with
different bits. -/

namespace MerkleTrie

/-- The longest list that two lists of bits both begin with. -/
structure LongestCommon (common as bs : List Bool) : Prop where
  left : common <+: as
  right : common <+: bs
  longest {other : List Bool} : other <+: as → other <+: bs → other <+: common

namespace LongestCommon

variable {common common' as bs : List Bool}

theorem symm (h : LongestCommon common as bs) : LongestCommon common bs as :=
  ⟨h.right, h.left, fun hb ha => h.longest ha hb⟩

/-- Two lists of bits have one longest common prefix only. -/
theorem unique (h : LongestCommon common as bs) (h' : LongestCommon common' as bs) :
    common = common' := by
  have hle : common <+: common' := h'.longest h.left h.right
  have hge : common' <+: common := h.longest h'.left h'.right
  exact hle.eq_of_length_le hge.length_le

theorem eq_left_iff (h : LongestCommon common as bs) : common = as ↔ as <+: bs := by
  constructor
  · rintro rfl
    exact h.right
  · intro hprefix
    have hle : as <+: common := h.longest (List.prefix_refl as) hprefix
    exact h.left.eq_of_length_le hle.length_le

end LongestCommon

/-- Lists of bits that are apart go on with different bits behind what they share. -/
theorem Apart.exists_fork {as bs : List Bool} (h : Apart as bs) :
    ∃ common s rest tail, as = common ++ s :: rest ∧ bs = common ++ (!s) :: tail := by
  rcases prefix_or_beyond_or_fork as bs with ⟨tail, rfl⟩ | ⟨s, rest, rfl⟩ | hfork
  · exact absurd (List.prefix_append as tail) h.1
  · exact absurd (List.prefix_append bs (s :: rest)) h.2
  · exact hfork

namespace Path

/-- A path has a key bit at an index if there is a bit above it, which may be the sentinel. -/
theorem lt_bitLength_iff (p : Path) (index : Nat) :
    index + 1 < p.bitLength ↔ 1 < p.code >>> index := by
  have hshift : 1 < p.code >>> index ↔ 2 ^ (index + 1) ≤ p.code := by
    rw [Nat.shiftRight_eq_div_pow, Nat.pow_succ, Nat.mul_comm]
    exact Nat.le_div_iff_mul_le (Nat.two_pow_pos index)
  rw [hshift, bitLength]
  split
  · rename_i hzero
    have := Nat.two_pow_pos (index + 1)
    omega
  · rename_i hne
    rw [← Nat.le_log2 hne]
    omega

end Path

namespace CommonPrefix

/-! ## Counting -/

/-- Count on from an index while both paths have a key bit there, and the same one. -/
def agreement (a b : Path) (index : Nat) : Nat :=
  if index + 1 < a.bitLength ∧ index + 1 < b.bitLength ∧
      a.code.testBit index = b.code.testBit index then
    agreement a b (index + 1)
  else index
termination_by a.bitLength - index
decreasing_by omega

/-- Counting goes on at an index if and only if comparing goes on with what the paths have from
there on. -/
theorem goesOn_iff (a b : Path) (index : Nat) :
    (index + 1 < a.bitLength ∧ index + 1 < b.bitLength ∧
        a.code.testBit index = b.code.testBit index) ↔
      1 < a.code >>> index ∧ 1 < b.code >>> index ∧
        a.code >>> index % 2 = b.code >>> index % 2 := by
  have hbit : a.code.testBit index = b.code.testBit index ↔
      a.code >>> index % 2 = b.code >>> index % 2 := by
    simp only [Nat.testBit_eq_decide_div_mod_eq, Nat.shiftRight_eq_div_pow, decide_eq_decide]
    omega
  rw [a.lt_bitLength_iff, b.lt_bitLength_iff, hbit]

theorem agreement_eq (a b : Path) (index : Nat) :
    agreement a b index = sharedBits (a.code >>> index) (b.code >>> index) + index := by
  fun_induction agreement a b index with
  | case1 index h ih =>
    rw [ih, Nat.shiftRight_succ, Nat.shiftRight_succ, sharedBits.eq_def (a.code >>> index),
      if_pos ((goesOn_iff a b index).1 h)]
    omega
  | case2 index h =>
    rw [sharedBits, if_neg (mt (goesOn_iff a b index).2 h), Nat.zero_add]

/-- The common prefix of two paths is counted bit by bit, and then cut out with a mask and put
under a sentinel. -/
theorem of_eq_agreement (a b : Path) :
    of a b =
      ⟨⟨1 <<< agreement a b 0 ||| a.code &&& (1 <<< agreement a b 0 - 1)⟩, agreement a b 0⟩ := by
  have hcount : sharedBits a.code b.code = agreement a b 0 := (agreement_eq a b 0).symm
  have hor := Path.sentinel_or_of_lt (Path.mod_lt_sentinel a.code (agreement a b 0))
  simp only [of, hcount, ← Path.mod_eq_and_mask, hor]

/-! ## Key bits -/

theorem of_eq_root {a b : Path} (h : a.code ≤ 1 ∨ b.code ≤ 1) : of a b = ⟨.root, 0⟩ := by
  have hnone : sharedBits a.code b.code = 0 := by
    rw [sharedBits, if_neg (by omega)]
  simp only [of, hnone, Nat.shiftLeft_zero, Nat.mod_one]
  rfl

@[simp] theorem of_zero_left (b : Path) : of .zero b = ⟨.root, 0⟩ :=
  of_eq_root (.inl (Nat.zero_le 1))

@[simp] theorem of_zero_right (a : Path) : of a .zero = ⟨.root, 0⟩ :=
  of_eq_root (.inr (Nat.zero_le 1))

/-- The common prefix of two paths is that of their key bits. A path without a sentinel has none. -/
theorem of_eq_sharedList (a b : Path) :
    of a b = ⟨.ofBits (sharedList a.bits b.bits), (sharedList a.bits b.bits).length⟩ := by
  by_cases ha : a = .zero
  · subst ha
    rw [of_zero_left, Path.bits_zero]
    rfl
  by_cases hb : b = .zero
  · subst hb
    rw [of_zero_right, Path.bits_zero]
    cases a.bits <;> rfl
  have h := of_ofBits a.bits b.bits
  rwa [Path.ofBits_bits ha, Path.ofBits_bits hb] at h

theorem longestCommon_sharedList (as bs : List Bool) : LongestCommon (sharedList as bs) as bs where
  left := sharedList_prefix_left as bs
  right := sharedList_prefix_right as bs
  longest := prefix_sharedList

theorem of_comm (a b : Path) : of a b = of b a := by
  have hcomm : sharedList a.bits b.bits = sharedList b.bits a.bits :=
    (longestCommon_sharedList a.bits b.bits).unique (longestCommon_sharedList b.bits a.bits).symm
  rw [of_eq_sharedList, of_eq_sharedList, hcomm]

/-- The common prefix is the whole of a path with a sentinel if the other path begins with it. -/
theorem path_of_eq_left_iff (a b : Path) : (of a b).path = a ↔ a ≠ .zero ∧ a.bits <+: b.bits := by
  rw [of_eq_sharedList, ← (longestCommon_sharedList a.bits b.bits).eq_left_iff]
  constructor
  · intro h
    have hbits := congrArg Path.bits h
    rw [Path.bits_ofBits] at hbits
    exact ⟨h ▸ Path.ofBits_ne_zero _, hbits⟩
  · rintro ⟨hne, hbits⟩
    rw [hbits, Path.ofBits_bits hne]

/-! ## Remainders -/

/-- The remainder of a path behind the common prefix has the key bits that are left. -/
theorem skip_of {a : Path} (ha : a ≠ .zero) (b : Path) :
    a.skip (of a b).length = .ofBits (a.bits.drop (sharedList a.bits b.bits).length) := by
  have hprefix := sharedList_prefix_left a.bits b.bits
  rw [of_eq_sharedList, ← Path.skip_ofBits hprefix.length_le, Path.ofBits_bits ha]

/-- A path is the common prefix with another followed by its remainder. -/
theorem withSuffix?_skip_of (a b : Path) :
    (of a b).path.withSuffix? (a.skip (of a b).length) = some a := by
  by_cases ha : a = .zero
  · subst ha
    rw [of_zero_left]
    exact congrArg some (Path.root_append .zero)
  · have hjoin := List.prefix_iff_eq_append.1 (sharedList_prefix_left a.bits b.bits)
    rw [skip_of ha, of_eq_sharedList, Path.withSuffix?, Path.isZero_ofBits,
      if_neg Bool.false_ne_true, Path.append_ofBits, hjoin, Path.ofBits_bits ha]

/-- A path that goes on behind a common prefix has a remainder that begins there. -/
theorem isRight_skip_of {a b : Path} {common rest tail : List Bool} {s : Bool}
    (ha : a.bits = common ++ s :: rest) (hb : b.bits = common ++ (!s) :: tail) :
    (a.skip (of a b).length).isRight = s := by
  have hzero : a ≠ .zero := Path.ne_zero_of_bits_ne_nil (by simp [ha])
  rw [skip_of hzero, ha, hb, sharedList_fork, List.drop_left, Path.isRight_cons]

/-- The remainders of two paths that part go on to different sides. -/
theorem isRight_skip_of_ne {a b : Path} (h : Apart a.bits b.bits) :
    (a.skip (of a b).length).isRight ≠ (b.skip (of a b).length).isRight := by
  obtain ⟨common, s, rest, tail, ha, hb⟩ := h.exists_fork
  have hleft := isRight_skip_of ha hb
  have hright : (b.skip (of b a).length).isRight = !s :=
    isRight_skip_of hb (by rw [ha, Bool.not_not])
  rw [of_comm b a] at hright
  rw [hleft, hright]
  cases s <;> decide

/-! ## The common prefix of two paths -/

/-- The common prefix of two paths, a path without a sentinel taken for one without key bits: it is
the longest list of bits that both begin with, under a sentinel and with its length; the order of
the paths does not matter; it is a path itself if and only if that path has a sentinel and the other
begins with its bits; with the remainder of a path it makes up the path; and the remainders of two
paths that part go on to different sides. It is found by counting from the lowest bit, and cut out
of the first path with a mask. -/
theorem of_longestCommon (a b : Path) :
    (∃ common, LongestCommon common a.bits b.bits ∧ of a b = ⟨.ofBits common, common.length⟩) ∧
    of a b = of b a ∧
    ((of a b).path = a ↔ a ≠ .zero ∧ a.bits <+: b.bits) ∧
    (of a b).path.withSuffix? (a.skip (of a b).length) = some a ∧
    (Apart a.bits b.bits →
      (a.skip (of a b).length).isRight ≠ (b.skip (of a b).length).isRight) ∧
    of a b =
      ⟨⟨1 <<< agreement a b 0 ||| a.code &&& (1 <<< agreement a b 0 - 1)⟩, agreement a b 0⟩ :=
  ⟨⟨sharedList a.bits b.bits, longestCommon_sharedList _ _, of_eq_sharedList a b⟩,
    of_comm a b, path_of_eq_left_iff a b, withSuffix?_skip_of a b, isRight_skip_of_ne,
    of_eq_agreement a b⟩

/-- Two paths of eight key bits that differ in the last one. -/
theorem longestCommon_of_last_bit :
    let a : Path := ⟨0b110010000⟩
    let b : Path := ⟨0b100010000⟩
    of a b = ⟨⟨0b10010000⟩, 7⟩ ∧ Apart a.bits b.bits ∧
      (a.skip 7).isRight ≠ (b.skip 7).isRight := by
  intro a b
  have ha : a.bits = [false, false, false, false, true, false, false, true] :=
    Path.bits_ofBits [false, false, false, false, true, false, false, true]
  have hb : b.bits = [false, false, false, false, true, false, false, false] :=
    Path.bits_ofBits [false, false, false, false, true, false, false, false]
  have hof : of a b = ⟨⟨0b10010000⟩, 7⟩ := by decide +kernel
  have hapart : Apart a.bits b.bits := by
    rw [ha, hb]
    exact ⟨by decide, by decide⟩
  obtain ⟨-, -, -, -, hsides, -⟩ := of_longestCommon a b
  have hne := hsides hapart
  rw [hof] at hne
  exact ⟨hof, hapart, hne⟩

end CommonPrefix

end MerkleTrie
