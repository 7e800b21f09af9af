-- SUMMARY: Items are read back as they were written, whatever comes after them, so lists with the same bytes have the same items.
import MerkleTrie.Proofs.Bytes.Numbers
import MerkleTrie.Rlp.Codec

/-! # Items read back

What the encoders of strings and lists write is split off again with the same
payload, whatever comes after it (`Rlp.split_encodeString`,
`Rlp.split_encodeList`). So a list says which items it holds (`Rlp.encodeList_inj`).
The length in a header takes eight bytes at most, which is room for every payload
below `2 ^ 64` bytes. -/

namespace MerkleTrie

namespace Rlp

namespace Item

/-! ## Headers -/

/-- What the first byte says, read as a number. -/
theorem split_cons (first : UInt8) (bytes : Bytes) :
    split (first :: bytes) =
      if first.toNat < 0x80 then .ok ⟨.string, [first], bytes⟩
      else if first.toNat = 0x81 then cutByte bytes
      else if first.toNat < 0xb8 then cut .string (first.toNat - 0x80) bytes
      else if first.toNat < 0xc0 then cutLong .string (first.toNat - 0xb7) bytes
      else if first.toNat < 0xf8 then cut .list (first.toNat - 0xc0) bytes
      else cutLong .list (first.toNat - 0xf7) bytes := by
  simp only [split, UInt8.lt_iff_toNat_lt, ← UInt8.toNat_inj]
  rfl

/-- A header of one byte announces its payload. A string of one byte is left out, since its header
stands only before a byte that needs one. -/
theorem split_short {kind : Kind} {n : Nat} {first : UInt8} (h : first.toNat = kind.base + n)
    (hshort : n < 56) (hone : kind = .string → n ≠ 1) (bytes : Bytes) :
    split (first :: bytes) = cut kind n bytes := by
  rw [split_cons]
  cases kind with
  | string =>
    have hone := hone rfl
    simp only [Kind.base] at h
    rw [h, if_neg (by omega), if_neg (by omega), if_pos (by omega), Nat.add_sub_cancel_left]
  | list =>
    simp only [Kind.base] at h
    rw [h, if_neg (by omega), if_neg (by omega), if_neg (by omega), if_neg (by omega),
      if_pos (by omega), Nat.add_sub_cancel_left]

/-- A longer header announces the length of the payload's length. -/
theorem split_long {kind : Kind} {n : Nat} {first : UInt8} (h : first.toNat = kind.base + 55 + n)
    (hpos : 0 < n) (hfits : n ≤ 8) (bytes : Bytes) :
    split (first :: bytes) = cutLong kind n bytes := by
  rw [split_cons]
  cases kind with
  | string =>
    simp only [Kind.base] at h
    rw [h, if_neg (by omega), if_neg (by omega), if_neg (by omega), if_pos (by omega),
      show 128 + 55 + n - 183 = n by omega]
  | list =>
    simp only [Kind.base] at h
    rw [h, if_neg (by omega), if_neg (by omega), if_neg (by omega), if_neg (by omega),
      if_neg (by omega), show 192 + 55 + n - 247 = n by omega]

theorem cut_append (kind : Kind) (payload rest : Bytes) :
    cut kind payload.length (payload ++ rest) = .ok ⟨kind, payload, rest⟩ := by
  have hlength : ¬ (payload ++ rest).length < payload.length := by
    rw [List.length_append]
    omega
  rw [cut, if_neg hlength, List.take_left, List.drop_left]

theorem cutLong_append {payload : Bytes} (h : 56 ≤ payload.length) (kind : Kind) (rest : Bytes) :
    cutLong kind (Bytes.ofNat payload.length).length
      (Bytes.ofNat payload.length ++ (payload ++ rest)) = .ok ⟨kind, payload, rest⟩ := by
  obtain ⟨digit, digits, hdigits⟩ :=
    List.exists_cons_of_ne_nil (Bytes.ofNat_ne_nil (show 0 < payload.length by omega))
  have hhead : (Bytes.ofNat payload.length ++ (payload ++ rest)).head? ≠ some 0 := by
    have hfirst := Bytes.head?_ofNat_ne_zero payload.length
    rw [hdigits] at hfirst ⊢
    exact hfirst
  have hdigitsFit : ¬ (Bytes.ofNat payload.length ++ (payload ++ rest)).length <
      (Bytes.ofNat payload.length).length := by
    rw [List.length_append]
    omega
  simp only [cutLong, hdigitsFit, hhead, List.take_left, List.drop_left, Bytes.toNat_ofNat,
    if_false]
  rw [if_neg (by omega), cut_append]

/-- What has a header is split off again. -/
theorem split_header {kind : Kind} {payload : Bytes} (hlength : payload.length < 2 ^ 64)
    (hone : kind = .string → payload.length ≠ 1) (rest : Bytes) :
    split (header kind payload.length ++ (payload ++ rest)) = .ok ⟨kind, payload, rest⟩ := by
  unfold header
  split
  · rename_i hshort
    have hfirst : (UInt8.ofNat (kind.base + payload.length)).toNat =
        kind.base + payload.length := by
      apply UInt8.toNat_ofNat_of_lt'
      cases kind <;> simp only [Kind.base, UInt8.size] <;> omega
    rw [List.singleton_append, split_short hfirst hshort hone, cut_append]
  · rename_i hlong
    have hfits : (Bytes.ofNat payload.length).length ≤ 8 := Bytes.length_ofNat_le hlength
    have hpos := List.length_pos_iff.2 (Bytes.ofNat_ne_nil (show 0 < payload.length by omega))
    have hfirst : (UInt8.ofNat (kind.base + 55 + (Bytes.ofNat payload.length).length)).toNat =
        kind.base + 55 + (Bytes.ofNat payload.length).length := by
      apply UInt8.toNat_ofNat_of_lt'
      cases kind <;> simp only [Kind.base, UInt8.size] <;> omega
    rw [List.cons_append, split_long hfirst hpos hfits, cutLong_append (by omega)]

end Item

/-! ## Strings, lists and numbers -/

theorem encodeString_of_length_ne_one {bytes : Bytes} (h : bytes.length ≠ 1) :
    encodeString bytes = header .string bytes.length ++ bytes := by
  unfold encodeString
  split
  · exact absurd rfl h
  · rfl

theorem split_encodeString {bytes : Bytes} (h : bytes.length < 2 ^ 64) (rest : Bytes) :
    Item.split (encodeString bytes ++ rest) = .ok ⟨.string, bytes, rest⟩ := by
  by_cases hone : bytes.length = 1
  · obtain ⟨b, rfl⟩ := List.length_eq_one_iff.1 hone
    by_cases hb : b < 0x80
    · simp [encodeString, Item.split, hb]
    · simp [encodeString, Item.split, header, Kind.base, Item.cutByte, hb]
  · rw [encodeString_of_length_ne_one hone, List.append_assoc]
    exact Item.split_header h (fun _ => hone) rest

theorem split_encodeList {payload : Bytes} (h : payload.length < 2 ^ 64) (rest : Bytes) :
    Item.split (encodeList payload ++ rest) = .ok ⟨.list, payload, rest⟩ := by
  rw [encodeList, List.append_assoc]
  exact Item.split_header h (fun hkind => by cases hkind) rest

theorem length_le_encodeString (bytes : Bytes) : bytes.length ≤ (encodeString bytes).length := by
  unfold encodeString
  split
  · split <;> simp
  · simp

theorem length_le_encodeList (payload : Bytes) :
    payload.length ≤ (encodeList payload).length := by
  simp [encodeList]

/-- A list begins with a byte whose highest bit is set. -/
theorem encodeList_eq_cons {payload : Bytes} (h : payload.length < 2 ^ 64) :
    ∃ b rest, encodeList payload = b :: rest ∧ 0x80 ≤ b.toNat := by
  unfold encodeList header
  split
  · rename_i hshort
    refine ⟨_, _, rfl, ?_⟩
    rw [UInt8.toNat_ofNat_of_lt' (by simp only [Kind.base, UInt8.size]; omega)]
    simp only [Kind.base]
    omega
  · have hfits : (Bytes.ofNat payload.length).length ≤ 8 := Bytes.length_ofNat_le h
    refine ⟨_, _, rfl, ?_⟩
    rw [UInt8.toNat_ofNat_of_lt' (by simp only [Kind.base, UInt8.size]; omega)]
    simp only [Kind.base]
    omega

/-! ## Telling encodings apart -/

/-- Lists with the same bytes have the same items. -/
theorem encodeList_inj {x y : Bytes} (hsize : (encodeList x).length < 2 ^ 64)
    (h : encodeList x = encodeList y) : x = y := by
  have hx := length_le_encodeList x
  have hy := length_le_encodeList y
  have hsplit := split_encodeList (show x.length < 2 ^ 64 by omega) []
  rw [h, split_encodeList (show y.length < 2 ^ 64 by rw [h] at hsize; omega) []] at hsplit
  injection hsplit with hitem
  injection hitem with _ hpayload
  exact hpayload.symm

end Rlp

end MerkleTrie
