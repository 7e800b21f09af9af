-- SUMMARY: Paths with a sentinel are the lists of key bits, and they form the free monoid on a bit with the root path as its unit.
import Mathlib.Algebra.FreeMonoid.Basic
import MerkleTrie.Proofs.Path.Prefix

/-! # The monoid of paths

A path with a sentinel is a list of key bits and nothing else, whatever zero bits the
list ends in (`Path.Sealed.bitsEquiv`). Shifts and masks on the numbers are cuts and
concatenations of the lists, so the paths with a sentinel are the free monoid on a bit
(`Path.Sealed.freeMonoidEquiv`). -/

namespace MerkleTrie.Path

/-! ## Setting bits -/

/-- Set or clear the bit of a number at an index. -/
def setBit (code index : Nat) (b : Bool) : Nat :=
  if b then code ||| 1 <<< index
  else if code.testBit index then code - 1 <<< index
  else code

/-- Set the bits from an index on, the first bit first, and a sentinel above them. -/
def setBits (code index : Nat) : List Bool → Nat
  | [] => setBit code index true
  | b :: bs => setBits (setBit code index b) (index + 1) bs

/-- A bit that is set above all others is added. -/
theorem setBit_of_lt {code index : Nat} (h : code < 2 ^ index) (b : Bool) :
    setBit code index b = code + 2 ^ index * b.toNat := by
  cases b with
  | false => simp [setBit, Nat.testBit_lt_two_pow h]
  | true =>
    rw [← Nat.one_shiftLeft] at h ⊢
    rw [setBit, if_pos rfl, Nat.or_comm, sentinel_or_of_lt h, Bool.toNat_true, Nat.mul_one,
      Nat.add_comm]

theorem setBits_of_lt {code index : Nat} (h : code < 2 ^ index) (bs : List Bool) :
    setBits code index bs = code + 2 ^ index * (ofBits bs).code := by
  induction bs generalizing code index with
  | nil => exact setBit_of_lt h true
  | cons b bs ih =>
    have hbit := b.toNat_lt
    have hnext : setBit code index b < 2 ^ (index + 1) := by
      have hle : 2 ^ index * b.toNat ≤ 2 ^ index * 1 := Nat.mul_le_mul_left _ (by omega)
      rw [setBit_of_lt h, Nat.pow_succ]
      omega
    rw [setBits, ih hnext, setBit_of_lt h, code_cons, Nat.pow_succ, Nat.mul_add, Nat.mul_assoc]
    omega

/-- A path is made of its key bits by setting one after the other, and then the sentinel. -/
theorem ofBits_eq_setBits (bs : List Bool) : ofBits bs = ⟨setBits 0 0 bs⟩ := by
  rw [setBits_of_lt Nat.one_pos, Nat.zero_add, Nat.pow_zero, Nat.one_mul]

/-! ## Paths with a sentinel -/

theorem withSuffix?_eq_none_iff {p q : Path} : p.withSuffix? q = none ↔ p = zero := by
  unfold withSuffix?
  split
  · rename_i hzero
    have hcode : p.code = 0 := eq_of_beq hzero
    exact iff_of_true rfl (congrArg mk hcode)
  · rename_i hzero
    refine iff_of_false (Option.some_ne_none _) ?_
    rintro rfl
    exact hzero rfl

/-- A path with a sentinel. -/
abbrev Sealed := {p : Path // p ≠ zero}

namespace Sealed

variable {p q : Sealed}

/-- The key bits of a path with a sentinel, which are all there is to it. -/
def bits (p : Sealed) : List Bool := p.1.bits

/-- The path of a list of key bits, with a sentinel above them. -/
def ofBits (bs : List Bool) : Sealed := ⟨Path.ofBits bs, ofBits_ne_zero bs⟩

@[simp] theorem bits_ofBits (bs : List Bool) : (ofBits bs).bits = bs := Path.bits_ofBits bs

@[simp] theorem ofBits_bits (p : Sealed) : ofBits p.bits = p := Subtype.ext (Path.ofBits_bits p.2)

/-- Paths with a sentinel are lists of key bits. -/
def bitsEquiv : Sealed ≃ List Bool := ⟨bits, ofBits, ofBits_bits, bits_ofBits⟩

theorem ext_bits (h : p.bits = q.bits) : p = q := bitsEquiv.injective h

/-! ## Concatenation -/

theorem append_eq (p q : Sealed) : p.1.append q.1 = .ofBits (p.bits ++ q.bits) := by
  rw [← append_ofBits, bits, bits, Path.ofBits_bits p.2, Path.ofBits_bits q.2]

instance : Mul Sealed :=
  ⟨fun p q => ⟨p.1.append q.1, append_eq p q ▸ ofBits_ne_zero _⟩⟩

instance : One Sealed := ⟨⟨root, root_ne_zero⟩⟩

@[simp] theorem bits_mul (p q : Sealed) : (p * q).bits = p.bits ++ q.bits := by
  have hmul : p * q = ofBits (p.bits ++ q.bits) := Subtype.ext (append_eq p q)
  rw [hmul, bits_ofBits]

@[simp] theorem bits_one : (1 : Sealed).bits = [] := Path.bits_ofBits []

instance : Monoid Sealed where
  mul_assoc p q r := ext_bits (by simp only [bits_mul, List.append_assoc])
  one_mul p := ext_bits (by rw [bits_mul, bits_one, List.nil_append])
  mul_one p := ext_bits (by rw [bits_mul, bits_one, List.append_nil])

/-- Paths with a sentinel are the free monoid on a bit. -/
def freeMonoidEquiv : FreeMonoid Bool ≃* Sealed where
  toFun bs := ofBits bs.toList
  invFun p := .ofList p.bits
  left_inv bs := congrArg FreeMonoid.ofList (bits_ofBits bs.toList)
  right_inv p := ofBits_bits p
  map_mul' as bs := ext_bits (by simp only [FreeMonoid.toList_mul, bits_ofBits, bits_mul])

/-- What is put after a path with a sentinel is multiplied to it. -/
theorem withSuffix?_eq (p q : Sealed) : p.1.withSuffix? q.1 = some (p * q).1 := by
  have hzero : p.1.isZero = false := by
    rw [← ofBits_bits p]
    exact isZero_ofBits _
  rw [withSuffix?, hzero]
  rfl

/-! ## Cutting -/

/-- Skipping drops key bits as long as there are any, and then the sentinel too. -/
theorem skip_eq (p : Sealed) (n : Nat) :
    p.1.skip n = if n ≤ p.1.length then .ofBits (p.bits.drop n) else .zero := by
  have hp : p.1 = .ofBits p.bits := (Path.ofBits_bits p.2).symm
  have hlength : p.1.length = p.bits.length := (length_bits p.1).symm
  rw [hlength]
  split
  · rename_i hle
    rw [hp, skip_ofBits hle]
  · rename_i hlt
    rw [hp, skip_ofBits_of_lt (Nat.lt_of_not_le hlt)]

end Sealed

/-! ## Paths are lists of bits -/

/-- Paths with a sentinel are lists of key bits: each is made of one list only, by setting its bits
and a sentinel above them. In these terms the length is that of the list, the side is its first bit,
to skip is to drop, and one path put after another appends the lists. So these paths are a monoid
with the root path as its unit, and it is the free one. Nothing is put after a path without a
sentinel. -/
theorem sealed_bitLists :
    (Function.Bijective Sealed.ofBits ∧ (∀ p : Sealed, .ofBits p.bits = p) ∧
      ∀ bs, (Sealed.ofBits bs).bits = bs ∧ (Sealed.ofBits bs).1 = ⟨setBits 0 0 bs⟩) ∧
    (∀ p : Sealed, p.1.length = p.bits.length ∧
      (p.bits ≠ [] → p.bits.head? = some p.1.isRight) ∧
      ∀ n, p.1.skip n = if n ≤ p.1.length then .ofBits (p.bits.drop n) else .zero) ∧
    (∀ p s : Sealed, p.1.withSuffix? s.1 = some (p * s).1 ∧
      (p * s).1 = .ofBits (p.bits ++ s.bits)) ∧
    (1 : Sealed).1 = root ∧
    (∃ e : FreeMonoid Bool ≃* Sealed, ∀ bs, e bs = .ofBits bs.toList) ∧
    ∀ p s : Path, p.withSuffix? s = none ↔ p = zero := by
  refine ⟨⟨Sealed.bitsEquiv.symm.bijective, Sealed.ofBits_bits, fun bs => ?_⟩, fun p => ?_,
    fun p s => ⟨p.withSuffix?_eq s, p.append_eq s⟩, rfl, ⟨Sealed.freeMonoidEquiv, fun _ => rfl⟩,
    fun _ _ => withSuffix?_eq_none_iff⟩
  · exact ⟨Sealed.bits_ofBits bs, ofBits_eq_setBits bs⟩
  · exact ⟨(length_bits p.1).symm, head?_bits, p.skip_eq⟩

/-- The path of three zero bits, which nothing but the sentinel tells from no bits. -/
theorem bitLists_of_zero_bits :
    let p : Sealed := ⟨⟨8⟩, by decide⟩
    p.bits = [false, false, false] ∧ p.bits ≠ [] ∧ p.bits.head? = some p.1.isRight ∧
      p.1.skip 1 = .ofBits (p.bits.drop 1) := by
  intro p
  have hbits : p.bits = [false, false, false] := Path.bits_ofBits [false, false, false]
  have hne : p.bits ≠ [] := hbits ▸ List.cons_ne_nil false [false, false]
  obtain ⟨-, hshape, -⟩ := sealed_bitLists
  obtain ⟨hlength, hside, hskip⟩ := hshape p
  have hle : 1 ≤ p.1.length := by
    rw [hlength, hbits]
    decide
  exact ⟨hbits, hne, hside hne, (hskip 1).trans (if_pos hle)⟩

end MerkleTrie.Path
