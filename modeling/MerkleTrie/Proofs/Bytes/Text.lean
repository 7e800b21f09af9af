-- SUMMARY: Numbers written in decimal and byte strings written in hexadecimal are read back as they were.
import MerkleTrie.Bytes.Hex
import MerkleTrie.Numeral.Decimal

/-! # Reading text back

Both readers take more than is ever written: signs and underscores in decimal
text, capital letters and a mark in front of hexadecimal text. So for what is
written it has to be shown that a digit is none of these. -/

namespace MerkleTrie

/-- What was written item by item is read back item by item. -/
theorem mapM_map_eq_pure {m : Type → Type} [Monad m] [LawfulMonad m] {α β : Type} {write : α → β}
    {read : β → m α} {xs : List α} (h : ∀ x ∈ xs, read (write x) = pure x) :
    (xs.map write).mapM read = pure xs := by
  induction xs with
  | nil => exact List.mapM_nil
  | cons x xs ih =>
    rw [List.map_cons, List.mapM_cons, h x List.mem_cons_self,
      ih fun y hy => h y (List.mem_cons_of_mem x hy), pure_bind, pure_bind]

/-! ## Decimal text -/

namespace Numeral

theorem decimalValue?_digitChar : ∀ d < 10, decimalValue? (digitChar d) = some d := by
  decide

theorem hexValue?_digitChar : ∀ d < 16, hexValue? (digitChar d) = some d := by
  decide

/-- A digit is no character that has no value. -/
theorem digitChar_ne {value? : Char → Option Nat} {d : Nat} (h : value? (digitChar d) = some d)
    {c : Char} (hc : value? c = none) : digitChar d ≠ c := by
  intro heq
  rw [heq, hc] at h
  cases h

theorem dropPlus_of_ne {c : Char} (h : c ≠ '+') (cs : List Char) :
    dropPlus (c :: cs) = c :: cs := by
  unfold dropPlus
  split <;> simp_all

/-- Without a sign or an underscore in front, text is read digit by digit. -/
theorem readDecimalChars_cons {c : Char} (hplus : c ≠ '+') (hunderscore : c ≠ '_')
    (cs : List Char) :
    readDecimalChars (c :: cs) =
      (((c :: cs).filter (· != '_')).mapM decimalValue?).map fun ds => ofDigits 10 ds.reverse := by
  unfold readDecimalChars
  rw [dropPlus_of_ne hplus]
  split <;> simp_all

/-- Digits that are written the highest first are read back. -/
theorem readDecimalChars_digits {ds : List Nat} (hne : ds ≠ []) (h : ∀ d ∈ ds, d < 10) :
    readDecimalChars (ds.map digitChar) = some (ofDigits 10 ds.reverse) := by
  have hvalue : ∀ d ∈ ds, decimalValue? (digitChar d) = some d :=
    fun d hd => decimalValue?_digitChar d (h d hd)
  have hread : (ds.map digitChar).mapM decimalValue? = some ds := mapM_map_eq_pure hvalue
  have hfilter : (ds.map digitChar).filter (· != '_') = ds.map digitChar := by
    refine List.filter_eq_self.2 fun c hc => ?_
    obtain ⟨d, hd, rfl⟩ := List.mem_map.1 hc
    exact bne_iff_ne.2 (digitChar_ne (hvalue d hd) (by decide))
  obtain ⟨d, rest, rfl⟩ := List.exists_cons_of_ne_nil hne
  have hhead := hvalue d List.mem_cons_self
  rw [List.map_cons] at hfilter hread ⊢
  rw [readDecimalChars_cons (digitChar_ne hhead (by decide)) (digitChar_ne hhead (by decide)),
    hfilter, hread, Option.map_some]

/-- A number that was written in decimal is read back. -/
theorem readDecimal_text (n : Nat) : readDecimal (text 10 n) = some n := by
  rw [readDecimal, text, String.toList_ofList, chars]
  split
  · rename_i hzero
    rw [hzero]
    decide
  · rename_i hne
    have hdigits : digits 10 n ≠ [] := by
      rw [digits_of_pos (by decide) (Nat.pos_of_ne_zero hne)]
      exact List.cons_ne_nil _ _
    rw [← List.map_reverse, readDecimalChars_digits (List.reverse_ne_nil_iff.2 hdigits),
      List.reverse_reverse, ofDigits_digits (by decide)]
    exact fun d hd => lt_of_mem_digits (by decide) (List.mem_reverse.1 hd)

end Numeral

/-! ## Hexadecimal text -/

namespace Hex

open Numeral (digitChar digitChar_ne hexValue? hexValue?_digitChar)

/-- The two digits of every byte, the high one first. -/
def digits (bytes : Bytes) : List Nat := bytes.flatMap fun b => [b.toNat / 16, b.toNat % 16]

theorem digits_cons (b : UInt8) (bytes : Bytes) :
    digits (b :: bytes) = b.toNat / 16 :: b.toNat % 16 :: digits bytes := rfl

theorem lt_of_mem_digits {bytes : Bytes} {d : Nat} (h : d ∈ digits bytes) : d < 16 := by
  obtain ⟨b, -, hd⟩ := List.mem_flatMap.1 h
  have hb := b.toNat_lt
  simp only [List.mem_cons, List.not_mem_nil, or_false] at hd
  omega

theorem length_digits (bytes : Bytes) : (digits bytes).length = 2 * bytes.length := by
  induction bytes with
  | nil => rfl
  | cons b bytes ih =>
    rw [digits_cons, List.length_cons, List.length_cons, List.length_cons, ih]
    rfl

theorem encodeChars_eq (bytes : Bytes) : encodeChars bytes = (digits bytes).map digitChar := by
  rw [digits, List.map_flatMap]
  rfl

theorem joinDigits_digits (bytes : Bytes) : joinDigits (digits bytes) = bytes := by
  induction bytes with
  | nil => rfl
  | cons b bytes ih =>
    rw [digits_cons, joinDigits, ih, Nat.div_add_mod, UInt8.ofNat_toNat]

theorem readDigits_map {ds : List Nat} (h : ∀ d ∈ ds, d < 16) (position : Nat) :
    readDigits position (ds.map digitChar) = .ok ds := by
  induction ds generalizing position with
  | nil => rfl
  | cons d ds ih =>
    rw [List.map_cons, readDigits, hexValue?_digitChar d (h d List.mem_cons_self),
      ih fun e he => h e (List.mem_cons_of_mem d he)]
    rfl

theorem dropMark_of_ne {c d : Char} (hx : d ≠ 'x') (hX : d ≠ 'X') (cs : List Char) :
    dropMark (c :: d :: cs) = c :: d :: cs := by
  unfold dropMark
  split <;> simp_all

/-- No digit is taken for a part of the mark. -/
theorem dropMark_encodeChars (bytes : Bytes) :
    dropMark (encodeChars bytes) = encodeChars bytes := by
  cases bytes with
  | nil => rfl
  | cons b bytes =>
    have hvalue := hexValue?_digitChar (b.toNat % 16) (Nat.mod_lt _ (by decide))
    exact dropMark_of_ne (digitChar_ne hvalue (by decide)) (digitChar_ne hvalue (by decide)) _

/-- Characters of one byte each are counted by the length of the text. -/
theorem utf8ByteSize_ofList {cs : List Char} (h : ∀ c ∈ cs, c.utf8Size = 1) :
    (String.ofList cs).utf8ByteSize = cs.length := by
  induction cs with
  | nil => rfl
  | cons c cs ih =>
    rw [String.ofList_cons, String.utf8ByteSize_append, String.utf8ByteSize_singleton,
      h c List.mem_cons_self, ih fun d hd => h d (List.mem_cons_of_mem c hd), List.length_cons,
      Nat.add_comm]

theorem utf8Size_digitChar : ∀ d < 16, (digitChar d).utf8Size = 1 := by
  decide

theorem utf8Size_of_mem_encodeChars {bytes : Bytes} {c : Char} (h : c ∈ encodeChars bytes) :
    c.utf8Size = 1 := by
  rw [encodeChars_eq] at h
  obtain ⟨d, hd, rfl⟩ := List.mem_map.1 h
  exact utf8Size_digitChar d (lt_of_mem_digits hd)

theorem length_encodeChars (bytes : Bytes) : (encodeChars bytes).length = 2 * bytes.length := by
  rw [encodeChars_eq, List.length_map, length_digits]

/-- The digits of a byte string, with a mark in front or without, are read as the byte string. -/
theorem decode_of_dropMark {cs : List Char} {bytes : Bytes} (hsize : ∀ c ∈ cs, c.utf8Size = 1)
    (heven : cs.length % 2 = 0) (hdrop : dropMark cs = encodeChars bytes) :
    decode (String.ofList cs) = .ok bytes := by
  have hodd : ¬ (String.ofList cs).utf8ByteSize % 2 = 1 := by
    rw [utf8ByteSize_ofList hsize, heven]
    decide
  rw [decode, if_neg hodd, String.toList_ofList, hdrop, encodeChars_eq,
    readDigits_map fun d => lt_of_mem_digits]
  exact congrArg Except.ok (joinDigits_digits bytes)

theorem decode_encode (bytes : Bytes) : decode (encode bytes) = .ok bytes := by
  refine decode_of_dropMark (fun c => utf8Size_of_mem_encodeChars) ?_ (dropMark_encodeChars bytes)
  rw [length_encodeChars, Nat.mul_mod_right]

theorem decode_encodeMarked (bytes : Bytes) : decode (encodeMarked bytes) = .ok bytes := by
  refine decode_of_dropMark ?_ ?_ rfl
  · simp only [List.mem_cons]
    rintro c (rfl | rfl | hc)
    · decide
    · decide
    · exact utf8Size_of_mem_encodeChars hc
  · rw [List.length_cons, List.length_cons, length_encodeChars]
    exact Nat.mul_add_mod 2 bytes.length 2

end Hex

end MerkleTrie
