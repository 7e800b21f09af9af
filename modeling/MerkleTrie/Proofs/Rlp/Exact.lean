-- SUMMARY: Items are as long as announced, and nothing is split off a byte string but what the encoders write.
import MerkleTrie.Proofs.Rlp.Items

/-! # Items and nothing else

Encodings have the length that is announced for them. Of a byte string `Item.split`
takes nothing but what `encodeString` or `encodeList` writes for the payload
(`Item.eq_encode_append`): a payload has one spelling only, since a single byte
below `0x80` has no header, and a length has a header of one byte or no leading
zero. -/

namespace MerkleTrie.Rlp

/-! ## Lengths -/

theorem length_header (kind : Kind) (n : Nat) : (header kind n).length = headerLength n := by
  unfold header headerLength
  split
  · rfl
  · rw [List.length_cons, Nat.add_comm]

theorem length_encodeString (bytes : Bytes) : (encodeString bytes).length = stringLength bytes := by
  unfold encodeString stringLength
  split
  · split
    · rfl
    · rw [List.length_append, length_header, List.length_singleton]
  · rw [List.length_append, length_header]

theorem length_encodeList (payload : Bytes) :
    (encodeList payload).length = listLength payload.length := by
  rw [encodeList, List.length_append, length_header, listLength]

theorem length_encodeNat (n : Nat) : (encodeNat n).length = natLength n :=
  length_encodeString _

theorem header_ne_nil (kind : Kind) (n : Nat) : header kind n ≠ [] := by
  unfold header
  split <;> exact List.cons_ne_nil _ _

theorem encodeString_ne_nil (bytes : Bytes) : encodeString bytes ≠ [] := by
  unfold encodeString
  split
  · split
    · exact List.cons_ne_nil _ _
    · exact List.append_ne_nil_of_left_ne_nil (header_ne_nil _ _) _
  · exact List.append_ne_nil_of_left_ne_nil (header_ne_nil _ _) _

/-! ## Headers -/

/-- A first byte that is read as a short length is the header of that length. -/
theorem header_of_short {kind : Kind} {n : Nat} {first : UInt8}
    (h : first.toNat = kind.base + n) (hshort : n < 56) : header kind n = [first] := by
  rw [header, if_pos hshort, ← h, UInt8.ofNat_toNat]

/-- A first byte and the digits that it announces are the header of the number they stand for. -/
theorem header_of_long {kind : Kind} {digits : Bytes} {first : UInt8}
    (h : first.toNat = kind.base + 55 + digits.length) (hlong : ¬ digits.toNat < 56)
    (hhead : digits.head? ≠ some 0) : header kind digits.toNat = first :: digits := by
  simp only [header, if_neg hlong, Bytes.ofNat_toNat hhead, ← h, UInt8.ofNat_toNat]

namespace Item

/-! ## Cutting -/

/-- What is written for the item. -/
def encode (item : Item) : Bytes :=
  match item.kind with
  | .string => encodeString item.payload
  | .list => encodeList item.payload

/-- An item has a header, unless it is a string of one byte, which may have none. -/
theorem encode_eq_header {item : Item} (hone : item.kind = .string → item.payload.length ≠ 1) :
    item.encode = header item.kind item.payload.length ++ item.payload := by
  unfold encode
  split
  · rename_i hkind
    rw [encodeString_of_length_ne_one (hone hkind), hkind]
  · rename_i hkind
    rw [encodeList, hkind]

theorem cut_eq_ok {kind : Kind} {n : Nat} {bytes : Bytes} {item : Item}
    (h : cut kind n bytes = .ok item) :
    item.kind = kind ∧ item.payload.length = n ∧ item.payload ++ item.rest = bytes := by
  unfold cut at h
  split at h
  · cases h
  · rename_i hlength
    cases h
    exact ⟨rfl, List.length_take_of_le (Nat.le_of_not_lt hlength), List.take_append_drop n bytes⟩

theorem cutLong_eq_ok {kind : Kind} {k : Nat} {bytes : Bytes} {item : Item}
    (h : cutLong kind k bytes = .ok item) :
    ∃ digits : Bytes, digits.length = k ∧ digits.head? ≠ some 0 ∧ ¬ digits.toNat < 56 ∧
      item.kind = kind ∧ item.payload.length = digits.toNat ∧
      digits ++ (item.payload ++ item.rest) = bytes := by
  simp only [cutLong] at h
  split at h
  · cases h
  rename_i hlength
  split at h
  · cases h
  rename_i hhead
  split at h
  · cases h
  rename_i hlong
  obtain ⟨hkind, hpayload, hbytes⟩ := cut_eq_ok h
  refine ⟨bytes.take k, List.length_take_of_le (Nat.le_of_not_lt hlength), ?_, hlong, hkind,
    hpayload, ?_⟩
  · rw [List.head?_take]
    split
    · exact (Option.some_ne_none 0).symm
    · exact hhead
  · rw [hbytes, List.take_append_drop]

/-! ## Splitting -/

theorem eq_encode_append_of_cut {kind : Kind} {n : Nat} {first : UInt8} {bytes : Bytes}
    {item : Item} (hfirst : first.toNat = kind.base + n) (hshort : n < 56)
    (hone : kind = .string → n ≠ 1) (h : cut kind n bytes = .ok item) :
    first :: bytes = item.encode ++ item.rest := by
  obtain ⟨rfl, rfl, rfl⟩ := cut_eq_ok h
  rw [encode_eq_header hone, header_of_short hfirst hshort]
  rfl

theorem eq_encode_append_of_cutLong {kind : Kind} {k : Nat} {first : UInt8} {bytes : Bytes}
    {item : Item} (hfirst : first.toNat = kind.base + 55 + k)
    (h : cutLong kind k bytes = .ok item) : first :: bytes = item.encode ++ item.rest := by
  obtain ⟨digits, rfl, hhead, hlong, rfl, hlength, rfl⟩ := cutLong_eq_ok h
  have hone : item.kind = .string → item.payload.length ≠ 1 := by omega
  rw [encode_eq_header hone, hlength, header_of_long hfirst hlong hhead, List.append_assoc]
  rfl

theorem eq_encode_append_of_cutByte {bytes : Bytes} {item : Item} (h : cutByte bytes = .ok item) :
    0x81 :: bytes = item.encode ++ item.rest := by
  cases bytes with
  | nil => cases h
  | cons b rest =>
    rw [cutByte] at h
    split at h
    · cases h
    · rename_i hb
      cases h
      simp [encode, encodeString, hb, header, Kind.base]

/-- What is split off a byte string stands there as the encoders write it. -/
theorem eq_encode_append {bytes : Bytes} {item : Item} (h : split bytes = .ok item) :
    bytes = item.encode ++ item.rest := by
  cases bytes with
  | nil => cases h
  | cons first bytes =>
    rw [split_cons] at h
    have hlt : first.toNat < 256 := first.toNat_lt
    -- One case for each range of the first byte, in the order in which they are told apart.
    split at h
    · rename_i hsingle
      cases h
      have hsingle' : first < 0x80 := UInt8.lt_iff_toNat_lt.2 hsingle
      simp [encode, encodeString, hsingle']
    split at h
    · rename_i hbyte
      obtain rfl : first = 0x81 := UInt8.toNat_inj.1 hbyte
      exact eq_encode_append_of_cutByte h
    split at h
    · exact eq_encode_append_of_cut (by simp only [Kind.base]; omega) (by omega) (by omega) h
    split at h
    · exact eq_encode_append_of_cutLong (by simp only [Kind.base]; omega) h
    split at h
    · exact eq_encode_append_of_cut (by simp only [Kind.base]; omega) (by omega)
        Kind.noConfusion h
    · exact eq_encode_append_of_cutLong (by simp only [Kind.base]; omega) h

end Item

end MerkleTrie.Rlp
