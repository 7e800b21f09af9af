-- SUMMARY: Numbers and their digits and bytes determine one another, in the shortest form and in a fixed width.
import Mathlib.Algebra.Order.Ring.Nat
import Mathlib.Data.List.Induction
import MerkleTrie.Bytes.Basic

/-! # Numbers and their bytes

Digits without a zero at the top, and so bytes that do not begin with a zero byte,
are the only ones of their kind for the number that they stand for
(`Bytes.ofNat_toNat`). In a given width every byte string is the only one for its
number (`Bytes.fixed_toNat`). -/

namespace MerkleTrie

namespace Numeral

theorem digits_ne_nil {base n : Nat} (hb : 1 < base) (hn : 0 < n) : digits base n ≠ [] := by
  rw [digits_of_pos hb hn]
  exact List.cons_ne_nil _ _

/-- No zero stands at the top. -/
theorem getLast?_digits_ne_zero {base : Nat} (hb : 1 < base) (n : Nat) :
    (digits base n).getLast? ≠ some 0 := by
  induction n using Nat.strongRecOn with
  | ind n ih =>
    by_cases hn : 0 < n
    · rw [digits_of_pos hb hn]
      by_cases hdiv : 0 < n / base
      · rw [List.getLast?_cons_of_ne_nil (digits_ne_nil hb hdiv)]
        exact ih _ (Nat.div_lt_self hn hb)
      -- Below the base the number is its own digit.
      · have hzero : n / base = 0 := Nat.eq_zero_of_not_pos hdiv
        have hlt : n < base := (Nat.div_eq_zero_iff_lt (by omega)).1 hzero
        rw [hzero, digits_zero, List.getLast?_singleton, Nat.mod_eq_of_lt hlt]
        intro h
        have := Option.some.inj h
        omega
    · obtain rfl : n = 0 := by omega
      simp

theorem length_digits_le {base n k : Nat} (hb : 1 < base) (h : n < base ^ k) :
    (digits base n).length ≤ k := by
  induction k generalizing n with
  | zero =>
    obtain rfl : n = 0 := by simpa using h
    simp
  | succ k ih =>
    by_cases hn : 0 < n
    · rw [digits_of_pos hb hn, List.length_cons]
      apply Nat.succ_le_succ
      apply ih
      rw [Nat.pow_succ, Nat.mul_comm] at h
      exact Nat.div_lt_of_lt_mul h
    · obtain rfl : n = 0 := by omega
      simp

theorem ofDigits_append_singleton (base : Nat) (ds : List Nat) (d : Nat) :
    ofDigits base (ds ++ [d]) = ofDigits base ds + base ^ ds.length * d := by
  induction ds with
  | nil => simp [ofDigits]
  | cons e ds ih =>
    rw [List.cons_append, ofDigits, ih, ofDigits, List.length_cons, Nat.pow_succ', Nat.mul_add,
      Nat.add_assoc, Nat.mul_assoc]

theorem ofDigits_lt {base : Nat} {ds : List Nat} (h : ∀ d ∈ ds, d < base) :
    ofDigits base ds < base ^ ds.length := by
  induction ds with
  | nil => exact Nat.one_pos
  | cons d ds ih =>
    have hd := h d List.mem_cons_self
    have hds := ih fun e he => h e (List.mem_cons_of_mem _ he)
    rw [ofDigits, List.length_cons, Nat.pow_succ']
    calc d + base * ofDigits base ds
      _ < base + base * ofDigits base ds := Nat.add_lt_add_right hd _
      _ = base * (ofDigits base ds + 1) := by rw [Nat.mul_succ, Nat.add_comm]
      _ ≤ base * base ^ ds.length := Nat.mul_le_mul_left base hds

theorem ofDigits_pos {base : Nat} (hb : 0 < base) {ds : List Nat} (hne : ds ≠ [])
    (htop : ds.getLast? ≠ some 0) : 0 < ofDigits base ds := by
  induction ds with
  | nil => exact absurd rfl hne
  | cons d ds ih =>
    rw [ofDigits]
    cases ds with
    | nil =>
      have : d ≠ 0 := fun hzero => htop (by rw [hzero, List.getLast?_singleton])
      omega
    | cons e ds =>
      have := Nat.mul_pos hb (ih (List.cons_ne_nil e ds) htop)
      omega

/-- Digits without a zero at the top are those of the number they stand for. -/
theorem digits_ofDigits {base : Nat} (hb : 1 < base) {ds : List Nat} (h : ∀ d ∈ ds, d < base)
    (htop : ds.getLast? ≠ some 0) : digits base (ofDigits base ds) = ds := by
  have hpos : 0 < base := Nat.zero_lt_of_lt hb
  induction ds with
  | nil => exact digits_zero base
  | cons d ds ih =>
    have hd := h d List.mem_cons_self
    have htop' : ds.getLast? ≠ some 0 := by
      cases ds with
      | nil => simp
      | cons e ds => exact htop
    rw [digits_of_pos hb (ofDigits_pos hpos (List.cons_ne_nil d ds) htop), ofDigits,
      Nat.add_mul_mod_self_left, Nat.mod_eq_of_lt hd, Nat.add_mul_div_left _ _ hpos,
      Nat.div_eq_of_lt hd, Nat.zero_add, ih (fun e he => h e (List.mem_cons_of_mem _ he)) htop']

end Numeral

namespace Bytes

theorem ofNat_inj {m n : Nat} : ofNat m = ofNat n ↔ m = n := by
  constructor
  · intro h
    rw [← toNat_ofNat m, h, toNat_ofNat]
  · exact congrArg ofNat

theorem length_ofNat_le {n k : Nat} (h : n < 256 ^ k) : (ofNat n).length ≤ k := by
  rw [ofNat, List.length_reverse, List.length_map]
  exact Numeral.length_digits_le (by decide) h

theorem ofNat_ne_nil {n : Nat} (h : 0 < n) : ofNat n ≠ [] := by
  simp [ofNat, Numeral.digits_ne_nil (by decide : 1 < 256) h]

/-- The shortest bytes of a number do not begin with a zero byte. -/
theorem head?_ofNat_ne_zero (n : Nat) : (ofNat n).head? ≠ some 0 := by
  intro h
  rw [ofNat, List.head?_reverse, List.getLast?_map, Option.map_eq_some_iff] at h
  obtain ⟨d, hd, hzero⟩ := h
  have hlt := Numeral.lt_of_mem_digits (by decide) (List.mem_of_getLast? hd)
  have : d = 0 := by
    have := congrArg UInt8.toNat hzero
    rwa [UInt8.toNat_ofNat_of_lt' hlt] at this
  subst this
  exact Numeral.getLast?_digits_ne_zero (by decide) n hd

theorem toNat_cons (b : UInt8) (bytes : Bytes) :
    toNat (b :: bytes) = toNat bytes + 256 ^ bytes.length * b.toNat := by
  rw [toNat, List.map_cons, List.reverse_cons, Numeral.ofDigits_append_singleton,
    List.length_reverse, List.length_map]
  rfl

theorem lt_of_mem_digits (bytes : Bytes) : ∀ d ∈ (bytes.map UInt8.toNat).reverse, d < 256 := by
  intro d hd
  obtain ⟨b, -, rfl⟩ := List.mem_map.1 (List.mem_reverse.1 hd)
  exact b.toNat_lt

theorem toNat_lt (bytes : Bytes) : toNat bytes < 256 ^ bytes.length := by
  have hlt := Numeral.ofDigits_lt (lt_of_mem_digits bytes)
  rwa [List.length_reverse, List.length_map] at hlt

/-- A number whose first byte has its highest bit set fills all of its bytes. -/
theorem log2_toNat_cons {b : UInt8} (h : 0x80 ≤ b.toNat) (bytes : Bytes) :
    (toNat (b :: bytes)).log2 = 8 * bytes.length + 7 := by
  have hrest := toNat_lt bytes
  have hb : b.toNat < 256 := b.toNat_lt
  have hlow : 256 ^ bytes.length * 128 = 2 ^ (8 * bytes.length + 7) := by
    rw [Nat.pow_add, Nat.pow_mul]
  have hhigh : 256 ^ bytes.length * 256 = 2 ^ (8 * bytes.length + 7 + 1) := by
    rw [Nat.pow_add, Nat.pow_add, Nat.pow_mul, Nat.mul_assoc]
  rw [toNat_cons]
  generalize 256 ^ bytes.length = m at *
  have hmin : m * 128 ≤ m * b.toNat := Nat.mul_le_mul_left m h
  have hmax : m * b.toNat ≤ m * 255 := Nat.mul_le_mul_left m (Nat.le_of_lt_succ hb)
  rw [Nat.log2_eq_iff (by omega)]
  omega

/-- Bytes that do not begin with a zero byte are the shortest that stand for their number. -/
theorem ofNat_toNat {bytes : Bytes} (h : bytes.head? ≠ some 0) : ofNat (toNat bytes) = bytes := by
  have htop : (bytes.map UInt8.toNat).reverse.getLast? ≠ some 0 := by
    intro hlast
    rw [List.getLast?_reverse, List.head?_map, Option.map_eq_some_iff] at hlast
    obtain ⟨b, hb, hzero⟩ := hlast
    exact h (hb.trans (congrArg some (UInt8.toNat_inj.1 hzero)))
  have hbytes : (bytes.map UInt8.toNat).map UInt8.ofNat = bytes := by
    rw [List.map_map]
    exact (List.map_congr_left fun b _ => UInt8.ofNat_toNat).trans (List.map_id _)
  rw [ofNat, toNat, Numeral.digits_ofDigits (by decide) (lt_of_mem_digits bytes) htop,
    ← List.map_reverse, List.reverse_reverse, hbytes]

/-- Zero has no bytes and every other number below 256 has one. -/
theorem ofNat_toNat_byte (b : UInt8) : ofNat b.toNat = if b = 0 then [] else [b] := by
  split
  · rename_i hzero
    rw [hzero]
    exact ofNat_zero
  · rename_i hne
    have hhead : [b].head? ≠ some 0 := fun h => hne (Option.some.inj h)
    exact ofNat_toNat hhead

theorem toNat_append_singleton (bytes : Bytes) (b : UInt8) :
    toNat (bytes ++ [b]) = b.toNat + 256 * toNat bytes := by
  rw [toNat, List.map_append, List.reverse_append]
  rfl

/-- Bytes are those of their number in the same width. -/
theorem fixed_toNat (bytes : Bytes) : fixed bytes.length (toNat bytes) = bytes := by
  induction bytes using List.reverseRecOn with
  | nil => rfl
  | append_singleton bytes b ih =>
    have hhigh : (b.toNat + 256 * toNat bytes) / 256 = toNat bytes := by
      rw [Nat.add_mul_div_left _ _ (by decide), Nat.div_eq_of_lt b.toNat_lt, Nat.zero_add]
    have hlow : UInt8.ofNat (b.toNat + 256 * toNat bytes) = b := by
      rw [← UInt8.toNat_inj, UInt8.toNat_ofNat', Nat.add_mul_mod_self_left,
        Nat.mod_eq_of_lt b.toNat_lt]
    rw [toNat_append_singleton, List.length_append, List.length_singleton, fixed, hhigh, hlow, ih]

end Bytes

end MerkleTrie
