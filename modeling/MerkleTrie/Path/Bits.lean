-- SUMMARY: Paths as lists of key bits: what each operation on paths does to the bits.
import MerkleTrie.Path.CommonPrefix

/-! # Paths as lists of bits

Every path with a sentinel is `ofBits` of its key bits, and of no other list
(`bits_ofBits`, `ofBits_bits`). The laws here say what each operation is on a
path in that form: `skip` drops bits, `append` appends lists, and the common
prefix of two paths is that of their bits. -/

namespace MerkleTrie

namespace Path

/-! ## Codes -/

theorem bitsOf_of_le {n : Nat} (h : n ≤ 1) : bitsOf n = [] := by
  rw [bitsOf, if_neg (by omega)]

theorem bitsOf_of_lt {n : Nat} (h : 1 < n) : bitsOf n = n.testBit 0 :: bitsOf (n / 2) := by
  rw [bitsOf, if_pos h]

theorem code_ofBits_pos (bs : List Bool) : 0 < (ofBits bs).code := by
  induction bs with
  | nil => decide
  | cons b bs ih => simp only [ofBits]; omega

theorem code_cons (b : Bool) (bs : List Bool) :
    (ofBits (b :: bs)).code = 2 * (ofBits bs).code + b.toNat := rfl

theorem one_lt_code_cons (b : Bool) (bs : List Bool) : 1 < (ofBits (b :: bs)).code := by
  have := code_ofBits_pos bs
  simp only [ofBits]
  omega

theorem code_cons_div_two (b : Bool) (bs : List Bool) :
    (ofBits (b :: bs)).code / 2 = (ofBits bs).code := by
  have hbit := b.toNat_lt
  simp only [ofBits]
  omega

theorem code_cons_mod_two (b : Bool) (bs : List Bool) :
    (ofBits (b :: bs)).code % 2 = b.toNat := by
  have hbit := b.toNat_lt
  simp only [ofBits]
  omega

theorem testBit_code_cons (b : Bool) (bs : List Bool) :
    (ofBits (b :: bs)).code.testBit 0 = b := by
  rw [Nat.testBit_zero, code_cons_mod_two]
  cases b <;> rfl

/-! ## Bits and back -/

@[simp] theorem bits_ofBits (bs : List Bool) : (ofBits bs).bits = bs := by
  induction bs with
  | nil => exact bitsOf_of_le (by decide)
  | cons b bs ih =>
    rw [bits, bitsOf_of_lt (one_lt_code_cons b bs), testBit_code_cons, code_cons_div_two]
    exact congrArg (b :: ·) ih

theorem ofBits_bitsOf {n : Nat} (h : n ≠ 0) : ofBits (bitsOf n) = ⟨n⟩ := by
  induction n using Nat.strongRecOn with
  | ind n ih =>
    by_cases hn : 1 < n
    · rw [bitsOf_of_lt hn, ofBits, ih (n / 2) (by omega) (by omega), Nat.testBit_zero]
      congr 1
      rcases Nat.mod_two_eq_zero_or_one n with h2 | h2 <;> simp [h2] <;> omega
    · obtain rfl : n = 1 := by omega
      rw [bitsOf_of_le (Nat.le_refl 1)]
      rfl

theorem ofBits_bits {p : Path} (h : p ≠ zero) : ofBits p.bits = p :=
  ofBits_bitsOf fun hc => h (by cases p; simp_all [zero])

theorem ofBits_ne_zero (bs : List Bool) : ofBits bs ≠ zero := fun h => by
  have := code_ofBits_pos bs
  rw [h] at this
  exact absurd this (by decide)

/-! ## Shape -/

@[simp] theorem length_ofBits (bs : List Bool) : (ofBits bs).length = bs.length := by
  induction bs with
  | nil => exact (by decide : Nat.log2 1 = 0)
  | cons b bs ih =>
    rw [length, Nat.log2_def, if_pos (show 2 ≤ _ from one_lt_code_cons b bs), code_cons_div_two]
    exact congrArg (· + 1) ih

theorem length_bits (p : Path) : p.bits.length = p.length := by
  by_cases h : p = zero
  · subst h
    rw [bits, bitsOf_of_le (by decide)]
    simp [length, zero]
  · conv => rhs; rw [← ofBits_bits h]
    exact (length_ofBits _).symm

@[simp] theorem isRight_cons (b : Bool) (bs : List Bool) : (ofBits (b :: bs)).isRight = b :=
  testBit_code_cons b bs

@[simp] theorem isZero_ofBits (bs : List Bool) : (ofBits bs).isZero = false := by
  have := code_ofBits_pos bs
  simp only [isZero, beq_eq_false_iff_ne]
  omega

@[simp] theorem isEmpty_ofBits (bs : List Bool) : (ofBits bs).isEmpty = bs.isEmpty := by
  rw [isEmpty, length_ofBits]
  cases bs <;> rfl

@[simp] theorem isRoot_ofBits (bs : List Bool) : (ofBits bs).isRoot = bs.isEmpty := by
  cases bs with
  | nil => rfl
  | cons b bs =>
    have := one_lt_code_cons b bs
    simp only [isRoot, List.isEmpty_cons, beq_eq_false_iff_ne]
    omega

theorem ofBits_inj {as bs : List Bool} : ofBits as = ofBits bs ↔ as = bs :=
  ⟨fun h => by rw [← bits_ofBits as, h, bits_ofBits], congrArg ofBits⟩

/-! ## Cutting and joining -/

theorem skip_ofBits {bs : List Bool} {n : Nat} (h : n ≤ bs.length) :
    (ofBits bs).skip n = ofBits (bs.drop n) := by
  induction n generalizing bs with
  | zero => rfl
  | succ n ih =>
    cases bs with
    | nil => simp at h
    | cons b bs =>
      rw [List.drop_succ_cons, ← ih (by simpa using h)]
      simp only [skip, Nat.shiftRight_eq_div_pow, Nat.pow_succ', ← Nat.div_div_eq_div_mul,
        code_cons_div_two]

theorem skip_ofBits_of_lt {bs : List Bool} {n : Nat} (h : bs.length < n) :
    (ofBits bs).skip n = zero := by
  obtain ⟨k, rfl⟩ : ∃ k, n = bs.length + (1 + k) := ⟨n - bs.length - 1, by omega⟩
  have hroot : (ofBits bs).code >>> bs.length = 1 := by
    have hskip := skip_ofBits (Nat.le_refl bs.length)
    rw [List.drop_length] at hskip
    exact congrArg code hskip
  rw [skip, Nat.shiftRight_add, hroot, Nat.shiftRight_add]
  exact congrArg mk (Nat.zero_shiftRight k)

theorem append_ofBits (as bs : List Bool) :
    (ofBits as).append (ofBits bs) = ofBits (as ++ bs) := by
  rw [append, length_ofBits, Nat.shiftLeft_eq, Nat.one_shiftLeft]
  induction as with
  | nil => simp [ofBits, root]
  | cons a as ih =>
    have half : (ofBits as).code % 2 ^ as.length * 2 + a.toNat
        = (ofBits (a :: as)).code % 2 ^ (a :: as).length := by
      rw [List.length_cons, Nat.pow_succ', Nat.mod_mul, code_cons_mod_two, code_cons_div_two]
      omega
    rw [← half, List.cons_append, ofBits, ← ih, List.length_cons, Nat.pow_succ']
    simp only [Path.mk.injEq]
    rw [← Nat.mul_assoc, Nat.mul_comm _ 2, Nat.mul_assoc]
    omega

end Path

namespace CommonPrefix

open MerkleTrie.Path (ofBits)

/-- The longest common prefix of two lists of bits. -/
def sharedList : List Bool → List Bool → List Bool
  | a :: as, b :: bs => if a = b then a :: sharedList as bs else []
  | _, _ => []

theorem sharedBits_ofBits (as bs : List Bool) :
    sharedBits (ofBits as).code (ofBits bs).code = (sharedList as bs).length := by
  induction as generalizing bs with
  | nil => rw [sharedBits]; simp [ofBits, Path.root, sharedList]
  | cons a as ih =>
    cases bs with
    | nil => rw [sharedBits]; simp [ofBits, Path.root, sharedList]
    | cons b bs =>
      have eq : (ofBits (a :: as)).code % 2 = (ofBits (b :: bs)).code % 2 ↔ a = b := by
        rw [Path.code_cons_mod_two, Path.code_cons_mod_two]
        cases a <;> cases b <;> decide
      rw [sharedBits, sharedList]
      simp only [Path.one_lt_code_cons, true_and, eq, Path.code_cons_div_two, ih]
      split <;> rfl

theorem sharedList_eq_take (as bs : List Bool) :
    sharedList as bs = as.take (sharedList as bs).length := by
  induction as generalizing bs with
  | nil => cases bs <;> simp [sharedList]
  | cons a as ih =>
    cases bs with
    | nil => simp [sharedList]
    | cons b bs =>
      rw [sharedList]
      split
      · rw [List.length_cons, List.take_succ_cons, ← ih]
      · rfl

theorem code_ofBits_take (bs : List Bool) {n : Nat} (h : n ≤ bs.length) :
    1 <<< n + (ofBits bs).code % 1 <<< n = (ofBits (bs.take n)).code := by
  rw [Nat.one_shiftLeft]
  induction n generalizing bs with
  | zero => simp [ofBits, Path.root, Nat.mod_one]
  | succ n ih =>
    cases bs with
    | nil => simp at h
    | cons b bs =>
      rw [List.take_succ_cons, Path.code_cons b (bs.take n), ← ih bs (by simpa using h),
        Nat.pow_succ', Nat.mod_mul, Path.code_cons_mod_two, Path.code_cons_div_two]
      omega

theorem of_ofBits (as bs : List Bool) :
    of (ofBits as) (ofBits bs) = ⟨ofBits (sharedList as bs), (sharedList as bs).length⟩ := by
  have short : (sharedList as bs).length ≤ as.length := by
    rw [sharedList_eq_take]
    simp only [List.length_take]
    omega
  simp only [of, sharedBits_ofBits, code_ofBits_take as short, ← sharedList_eq_take]

end CommonPrefix

end MerkleTrie
