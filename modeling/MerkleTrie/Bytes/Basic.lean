-- SUMMARY: Byte strings and the numbers they stand for, the highest byte first.
import MerkleTrie.Numeral.Digits

/-! # Byte strings

A byte string stands for a number with its highest byte first. `Bytes.ofNat`
writes a number in as few bytes as possible, so zero is the empty string;
`Bytes.fixed` writes it in a given number of bytes. -/

namespace MerkleTrie

abbrev Bytes := List UInt8

namespace Bytes

/-- The number a byte string stands for, the highest byte first. -/
def toNat (bytes : Bytes) : Nat :=
  Numeral.ofDigits 256 (bytes.map UInt8.toNat).reverse

/-- The shortest byte string that stands for a number. -/
def ofNat (n : Nat) : Bytes :=
  ((Numeral.digits 256 n).map UInt8.ofNat).reverse

/-- A number in exactly `width` bytes; what does not fit is cut off at the top. -/
def fixed : Nat → Nat → Bytes
  | 0, _ => []
  | width + 1, n => fixed width (n / 256) ++ [UInt8.ofNat n]

/-- Cut a byte string into pieces of `size` bytes, the last of which may be shorter. -/
def chunks (size : Nat) (bytes : Bytes) : List Bytes :=
  if 0 < size ∧ 0 < bytes.length then bytes.take size :: chunks size (bytes.drop size) else []
termination_by bytes.length
decreasing_by
  simp only [List.length_drop]
  omega

/-! ## Laws -/

@[simp] theorem ofNat_zero : ofNat 0 = [] := by simp [ofNat]

@[simp] theorem toNat_nil : toNat [] = 0 := rfl

@[simp] theorem length_fixed (width n : Nat) : (fixed width n).length = width := by
  induction width generalizing n with
  | zero => rfl
  | succ width ih => simp [fixed, ih]

theorem toNat_ofNat (n : Nat) : toNat (ofNat n) = n := by
  have h : ((Numeral.digits 256 n).map UInt8.ofNat).map UInt8.toNat = Numeral.digits 256 n := by
    rw [List.map_map]
    refine (List.map_congr_left fun d hd => ?_).trans (List.map_id _)
    exact UInt8.toNat_ofNat_of_lt (Numeral.lt_of_mem_digits (by decide) hd)
  simp [toNat, ofNat, List.map_reverse, h, Numeral.ofDigits_digits]

end Bytes

end MerkleTrie
