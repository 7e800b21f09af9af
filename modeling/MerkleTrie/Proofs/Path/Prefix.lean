-- SUMMARY: How two lists of key bits compare, and what the common prefix of two paths is in each case.
import MerkleTrie.Path.Bits

/-! # Prefixes of key bits

Of two lists of bits the first is a prefix of the second, or runs beyond it, or
they part at some bit. The descent of a path decides between the three by the
common prefix, and everything about it is proved in these three cases. -/

namespace MerkleTrie

/-- Neither of two lists of bits is a prefix of the other. -/
def Apart (as bs : List Bool) : Prop := ¬ as <+: bs ∧ ¬ bs <+: as

namespace Apart

theorem symm {as bs : List Bool} (h : Apart as bs) : Apart bs as := ⟨h.2, h.1⟩

theorem ne {as bs : List Bool} (h : Apart as bs) : as ≠ bs := by
  rintro rfl
  exact h.1 (List.prefix_refl as)

@[simp] theorem append_left_iff {common as bs : List Bool} :
    Apart (common ++ as) (common ++ bs) ↔ Apart as bs := by
  simp only [Apart, List.prefix_append_right_inj]

/-- Lists that begin with different bits are apart. -/
theorem of_head_ne {as bs : List Bool} {s t : Bool} (ha : as.head? = some s)
    (hb : bs.head? = some t) (h : s ≠ t) : Apart as bs := by
  obtain ⟨as, rfl⟩ := List.head?_eq_some_iff.1 ha
  obtain ⟨bs, rfl⟩ := List.head?_eq_some_iff.1 hb
  refine ⟨?_, ?_⟩
  · intro hp
    exact h (List.cons_prefix_cons.1 hp).1
  · intro hp
    exact h (List.cons_prefix_cons.1 hp).1.symm

end Apart

/-- Of two lists of bits the first is a prefix of the second, runs beyond it, or parts from it. -/
theorem prefix_or_beyond_or_fork (as bs : List Bool) :
    (∃ tail, bs = as ++ tail) ∨ (∃ s rest, as = bs ++ s :: rest) ∨
      ∃ common s rest tail, as = common ++ s :: rest ∧ bs = common ++ (!s) :: tail := by
  -- The induction is on the first list, and goes on as long as the heads agree.
  induction as generalizing bs with
  | nil => exact .inl ⟨bs, rfl⟩
  | cons a as ih =>
    cases bs with
    | nil => exact .inr (.inl ⟨a, as, rfl⟩)
    | cons b bs =>
      by_cases hab : b = a
      · subst hab
        rcases ih bs with ⟨tail, rfl⟩ | ⟨s, rest, rfl⟩ | ⟨common, s, rest, tail, rfl, rfl⟩
        · exact .inl ⟨tail, rfl⟩
        · exact .inr (.inl ⟨s, rest, rfl⟩)
        · exact .inr (.inr ⟨b :: common, s, rest, tail, rfl, rfl⟩)
      · have hb : b = !a := by cases a <;> cases b <;> simp_all
        exact .inr (.inr ⟨[], a, as, bs, rfl, by rw [hb]; rfl⟩)

/-- A list of bits runs beyond another, or it does not. -/
theorem beyond_or_stop (as bs : List Bool) :
    (∃ s rest, as = bs ++ s :: rest) ∨ ∀ s rest, as ≠ bs ++ s :: rest := by
  rcases Classical.em (∃ s rest, as = bs ++ s :: rest) with h | h
  · exact .inl h
  · exact .inr fun s rest heq => h ⟨s, rest, heq⟩

namespace CommonPrefix

theorem sharedList_append_left (as tail : List Bool) : sharedList as (as ++ tail) = as := by
  induction as with
  | nil => cases tail <;> rfl
  | cons a as ih => simp [sharedList, ih]

theorem sharedList_append_right (bs rest : List Bool) : sharedList (bs ++ rest) bs = bs := by
  induction bs with
  | nil => cases rest <;> rfl
  | cons b bs ih => simp [sharedList, ih]

theorem sharedList_fork (common : List Bool) (s : Bool) (rest tail : List Bool) :
    sharedList (common ++ s :: rest) (common ++ (!s) :: tail) = common := by
  induction common with
  | nil => simp [sharedList]
  | cons c common ih => simp [sharedList, ih]

theorem sharedList_prefix_left (as bs : List Bool) : sharedList as bs <+: as := by
  rw [sharedList_eq_take]
  exact List.take_prefix _ _

theorem sharedList_prefix_right (as bs : List Bool) : sharedList as bs <+: bs := by
  rcases prefix_or_beyond_or_fork as bs with ⟨tail, rfl⟩ | ⟨s, rest, rfl⟩ |
    ⟨common, s, rest, tail, rfl, rfl⟩
  · rw [sharedList_append_left]
    exact List.prefix_append _ _
  · simpa only [sharedList_append_right] using List.prefix_refl bs
  · rw [sharedList_fork]
    exact List.prefix_append _ _

/-- The shared bits are the longest list that is a prefix of both. -/
theorem prefix_sharedList {p as bs : List Bool} (ha : p <+: as) (hb : p <+: bs) :
    p <+: sharedList as bs := by
  induction p generalizing as bs with
  | nil => exact List.nil_prefix
  | cons c p ih =>
    obtain ⟨as, rfl⟩ := ha
    obtain ⟨bs, rfl⟩ := hb
    simp only [List.cons_append, sharedList, if_true, List.cons_prefix_cons, true_and]
    exact ih (List.prefix_append _ _) (List.prefix_append _ _)

/-- A path without a sentinel shares no bits with another. -/
theorem path_of_zero (p : Path) : (of .zero p).path = .ofBits [] := by
  have hnone : sharedBits 0 p.code = 0 := by
    rw [sharedBits]
    simp
  simp [of, hnone, Path.zero, Path.ofBits, Path.root]

end CommonPrefix

namespace Path

/-- A path with bits put in front of its key bits has a larger code. -/
theorem code_ofBits_lt_append (b : Bool) (as bs : List Bool) :
    (ofBits bs).code < (ofBits (b :: as ++ bs)).code := by
  have hpos := code_ofBits_pos bs
  induction as generalizing b with
  | nil =>
    simp only [List.singleton_append, code_cons]
    omega
  | cons a as ih =>
    have := ih a
    rw [List.cons_append, code_cons]
    omega

@[simp] theorem bits_zero : zero.bits = [] := bitsOf_of_le (by decide)

theorem isEmpty_eq (p : Path) : p.isEmpty = p.bits.isEmpty := by
  rw [isEmpty, ← length_bits]
  cases p.bits <;> rfl

/-- A path that has key bits has a sentinel above them. -/
theorem ne_zero_of_bits_ne_nil {p : Path} (h : p.bits ≠ []) : p ≠ zero := by
  rintro rfl
  exact h bits_zero

theorem eq_ofBits_of_bits {p : Path} {bs : List Bool} (h : p.bits = bs) (hne : bs ≠ []) :
    p = ofBits bs := by
  subst h
  exact (ofBits_bits (ne_zero_of_bits_ne_nil hne)).symm

theorem eq_ofBits_of_bits_cons {p : Path} {s : Bool} {rest : List Bool} (h : p.bits = s :: rest) :
    p = ofBits (s :: rest) :=
  eq_ofBits_of_bits h (List.cons_ne_nil s rest)

/-- The first of the key bits says the side. -/
theorem head?_bits {p : Path} (h : p.bits ≠ []) : p.bits.head? = some p.isRight := by
  obtain ⟨s, rest, hbits⟩ := List.exists_cons_of_ne_nil h
  rw [hbits, eq_ofBits_of_bits_cons hbits, isRight_cons, List.head?_cons]

theorem root_ne_zero : root ≠ zero := by decide

/-- The bits below a sentinel are a remainder, or what a mask leaves. -/
theorem mod_eq_and_mask (code index : Nat) :
    code % 1 <<< index = code &&& (1 <<< index - 1) := by
  rw [Nat.one_shiftLeft, Nat.and_two_pow_sub_one_eq_mod]

theorem mod_lt_sentinel (code index : Nat) : code % 1 <<< index < 1 <<< index := by
  rw [Nat.one_shiftLeft]
  exact Nat.mod_lt code (Nat.two_pow_pos index)

/-- A sentinel is put above smaller bits by addition. -/
theorem sentinel_or_of_lt {index low : Nat} (h : low < 1 <<< index) :
    1 <<< index ||| low = 1 <<< index + low := by
  rw [Nat.one_shiftLeft] at h ⊢
  have hor := Nat.two_pow_add_eq_or_of_lt h 1
  rw [Nat.mul_one] at hor
  exact hor.symm

/-- The root path adds no bits in front of others. -/
theorem root_append (q : Path) : root.append q = q := by
  have hlength : root.length = 0 := length_ofBits []
  rw [append, hlength, Nat.shiftLeft_zero, Nat.shiftLeft_zero, Nat.mod_one, Nat.add_zero]

/-- Only the root path has a sentinel and no key bits. -/
theorem bits_eq_nil_iff {p : Path} (h : p ≠ zero) : p.bits = [] ↔ p = root := by
  constructor
  · intro hbits
    rw [← ofBits_bits h, hbits]
    rfl
  · rintro rfl
    exact bits_ofBits []

end Path

end MerkleTrie
