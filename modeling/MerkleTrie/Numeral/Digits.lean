-- SUMMARY: Digits of a natural number in any base, least significant first, the value of a list of digits, and numbers as text.

/-! # Digits

`digits base n` lists the digits of `n` from the lowest up and has no zero at
the top, so zero has no digits at all. `ofDigits base` takes the list back to
the number (`ofDigits_digits`). Byte strings, decimal text and the words of a
counter are all digits in some base. -/

namespace MerkleTrie.Numeral

/-- The digits of `n` from the lowest up, without zeros at the top. A base below two has none. -/
def digits (base n : Nat) : List Nat :=
  if 0 < n ∧ 1 < base then n % base :: digits base (n / base) else []
termination_by n
decreasing_by
  rename_i h
  exact Nat.div_lt_self h.1 h.2

/-- The number that a list of digits stands for, the lowest digit first. -/
def ofDigits (base : Nat) : List Nat → Nat
  | [] => 0
  | d :: ds => d + base * ofDigits base ds

/-! ## Text -/

/-- The character of a digit below sixteen, with lower case letters from ten on. -/
def digitChar (d : Nat) : Char :=
  if d < 10 then Char.ofNat ('0'.toNat + d) else Char.ofNat ('a'.toNat + (d - 10))

def decimalValue? (c : Char) : Option Nat :=
  if '0' ≤ c ∧ c ≤ '9' then some (c.toNat - '0'.toNat) else none

/-- The number that a hexadecimal digit of either case stands for. -/
def hexValue? (c : Char) : Option Nat :=
  if '0' ≤ c ∧ c ≤ '9' then some (c.toNat - '0'.toNat)
  else if 'a' ≤ c ∧ c ≤ 'f' then some (c.toNat - 'a'.toNat + 10)
  else if 'A' ≤ c ∧ c ≤ 'F' then some (c.toNat - 'A'.toNat + 10)
  else none

/-- The characters of a number in a base up to sixteen, the highest digit first, `0` for zero. -/
def chars (base n : Nat) : List Char :=
  if n = 0 then ['0'] else ((digits base n).map digitChar).reverse

/-- A number as text in a base up to sixteen. -/
def text (base n : Nat) : String := String.ofList (chars base n)

/-! ## Laws -/

@[simp] theorem digits_zero (base : Nat) : digits base 0 = [] := by
  rw [digits]; simp

theorem digits_of_pos {base n : Nat} (hb : 1 < base) (hn : 0 < n) :
    digits base n = n % base :: digits base (n / base) := by
  rw [digits, if_pos ⟨hn, hb⟩]

theorem ofDigits_digits {base : Nat} (hb : 1 < base) (n : Nat) :
    ofDigits base (digits base n) = n := by
  induction n using Nat.strongRecOn with
  | ind n ih =>
    by_cases hn : 0 < n
    · rw [digits_of_pos hb hn, ofDigits, ih _ (Nat.div_lt_self hn hb)]
      exact Nat.mod_add_div n base
    · obtain rfl : n = 0 := by omega
      simp [ofDigits]

theorem lt_of_mem_digits {base n d : Nat} (hb : 1 < base) (h : d ∈ digits base n) : d < base := by
  induction n using Nat.strongRecOn with
  | ind n ih =>
    by_cases hn : 0 < n
    · rw [digits_of_pos hb hn] at h
      rcases List.mem_cons.1 h with rfl | h
      · exact Nat.mod_lt _ (by omega)
      · exact ih _ (Nat.div_lt_self hn hb) h
    · obtain rfl : n = 0 := by omega
      simp at h

end MerkleTrie.Numeral
