-- SUMMARY: The law of a codec, which is to read back what it writes and nothing else, kept by strings, numbers, digests, lists, pairs and options.
import MerkleTrie.Proofs.Hash.Imprint
import MerkleTrie.Proofs.Rlp.Exact

/-! # Lawful codecs

`Lawful encode length decode` says that the three belong together: an encoding has
the length that is announced, it is read back whatever comes after it, and a
decoder takes no other bytes. Strings and lists are so by the laws of items. All
other codecs are put together from them by the rules of this module: a value is
read through the one that it is written as (`Lawful.refine`), two stand one after
the other (`Lawful.parts`), or one, none or many stand in a list. -/

namespace MerkleTrie.Rlp

variable {α β γ : Type}

/-! ## Running decoders -/

namespace Decoder

/-- Two decoders one after the other: the second goes on where the first stopped. -/
theorem bind_eq_ok {d : Decoder α} {next : α → Decoder β} {bytes : Bytes} {result : β × Bytes} :
    (d >>= next) bytes = .ok result ↔
      ∃ x rest, d bytes = .ok (x, rest) ∧ next x rest = .ok result := by
  change (d bytes >>= fun read => next read.1 read.2) = .ok result ↔ _
  cases d bytes with
  | error e => exact ⟨nofun, fun ⟨_, _, h, _⟩ => nomatch h⟩
  | ok read =>
    constructor
    · intro h
      exact ⟨read.1, read.2, rfl, h⟩
    · rintro ⟨x, rest, hread, h⟩
      cases hread
      exact h

theorem pure_eq_ok {x y : α} {bytes rest : Bytes} :
    (pure x : Decoder α) bytes = .ok (y, rest) ↔ y = x ∧ rest = bytes := by
  constructor
  · intro h
    cases h
    exact ⟨rfl, rfl⟩
  · rintro ⟨rfl, rfl⟩
    rfl

theorem throw_ne_ok {e : Error} {bytes : Bytes} {result : α × Bytes} :
    (throw e : Decoder α) bytes ≠ .ok result :=
  nofun

/-- A check that reads nothing leaves all bytes. -/
theorem lift_eq_ok {check : Except Error α} {x : α} {bytes rest : Bytes} :
    (liftM check : Decoder α) bytes = .ok (x, rest) ↔ check = .ok x ∧ rest = bytes := by
  cases check with
  | error e => exact ⟨nofun, fun ⟨h, _⟩ => nomatch h⟩
  | ok y =>
    constructor
    · intro h
      cases h
      exact ⟨rfl, rfl⟩
    · rintro ⟨h, rfl⟩
      cases h
      rfl

theorem string_eq_ok {bytes payload rest : Bytes} :
    string bytes = .ok (payload, rest) ↔ Item.split bytes = .ok ⟨.string, payload, rest⟩ := by
  unfold string
  rcases Item.split bytes with e | ⟨_ | _, payload', rest'⟩
  · exact ⟨nofun, nofun⟩
  · constructor <;> intro h <;> cases h <;> rfl
  · exact ⟨nofun, nofun⟩

theorem payload_eq_ok {bytes items rest : Bytes} :
    payload bytes = .ok (items, rest) ↔ Item.split bytes = .ok ⟨.list, items, rest⟩ := by
  unfold payload
  rcases Item.split bytes with e | ⟨_ | _, payload', rest'⟩
  · exact ⟨nofun, nofun⟩
  · exact ⟨nofun, nofun⟩
  · constructor <;> intro h <;> cases h <;> rfl

theorem all_eq_ok {d : Decoder α} {bytes : Bytes} {x : α} :
    d.all bytes = .ok x ↔ d bytes = .ok (x, []) := by
  unfold all
  rcases d bytes with e | ⟨y, _ | ⟨b, rest⟩⟩
  · exact ⟨nofun, nofun⟩
  · constructor <;> intro h <;> cases h <;> rfl
  · exact ⟨nofun, nofun⟩

/-- A list is split off, and its items are checked as a whole. -/
theorem payload_lift_eq_ok {check : Bytes → Except Error α} {bytes rest : Bytes} {x : α} :
    (payload >>= fun items => liftM (check items) : Decoder α) bytes = .ok (x, rest) ↔
      ∃ items, payload bytes = .ok (items, rest) ∧ check items = .ok x := by
  simp only [bind_eq_ok, lift_eq_ok]
  constructor
  · rintro ⟨items, _, hitems, hx, rfl⟩
    exact ⟨items, hitems, hx⟩
  · rintro ⟨items, hitems, hx⟩
    exact ⟨items, rest, hitems, hx, rfl⟩

theorem list_eq_ok {d : Decoder α} {bytes rest : Bytes} {x : α} :
    list d bytes = .ok (x, rest) ↔
      ∃ items, payload bytes = .ok (items, rest) ∧ d items = .ok (x, []) := by
  simp only [list, payload_lift_eq_ok, all_eq_ok]

theorem option_eq_ok {d : Decoder α} {bytes rest : Bytes} {x : Option α} :
    option d bytes = .ok (x, rest) ↔
      ∃ items, payload bytes = .ok (items, rest) ∧
        (items = [] ∧ x = none ∨ items ≠ [] ∧ ∃ y, x = some y ∧ d items = .ok (y, [])) := by
  simp only [option, bind_eq_ok]
  constructor
  · rintro ⟨items, _, hitems, h⟩
    split at h
    · rename_i hempty
      obtain ⟨rfl, rfl⟩ := pure_eq_ok.1 h
      exact ⟨items, hitems, .inl ⟨List.isEmpty_iff.1 hempty, rfl⟩⟩
    · rename_i hne
      obtain ⟨y, _, hy, hsome⟩ := bind_eq_ok.1 h
      obtain ⟨hall, rfl⟩ := lift_eq_ok.1 hy
      obtain ⟨rfl, rfl⟩ := pure_eq_ok.1 hsome
      exact ⟨items, hitems, .inr ⟨fun h => hne (List.isEmpty_iff.2 h), y, rfl, all_eq_ok.1 hall⟩⟩
  · rintro ⟨items, hitems, ⟨rfl, rfl⟩ | ⟨hne, y, rfl, hy⟩⟩
    · exact ⟨[], rest, hitems, rfl⟩
    · refine ⟨items, rest, hitems, ?_⟩
      rw [if_neg fun h => hne (List.isEmpty_iff.1 h)]
      exact bind_eq_ok.2 ⟨y, rest, lift_eq_ok.2 ⟨all_eq_ok.2 hy, rfl⟩, rfl⟩

theorem repeated_cons_eq_ok {d : Decoder α} {fuel : Nat} {b : UInt8} {bytes : Bytes}
    {xs : List α} :
    repeated d (fuel + 1) (b :: bytes) = .ok xs ↔
      ∃ x rest xs', d (b :: bytes) = .ok (x, rest) ∧ repeated d fuel rest = .ok xs' ∧
        xs = x :: xs' := by
  rw [repeated]
  rcases d (b :: bytes) with e | ⟨x, rest⟩
  · exact ⟨nofun, nofun⟩
  · change (repeated d fuel rest >>= fun xs' => pure (x :: xs')) = .ok xs ↔ _
    cases hrest : repeated d fuel rest with
    | error e =>
      refine ⟨nofun, ?_⟩
      rintro ⟨_, _, _, h, h', -⟩
      cases h
      rw [hrest] at h'
      cases h'
    | ok xs' =>
      constructor
      · intro h
        cases h
        exact ⟨x, rest, xs', rfl, hrest, rfl⟩
      · rintro ⟨_, _, _, h, h', rfl⟩
        cases h
        rw [hrest] at h'
        cases h'
        rfl

theorem many_eq_ok {d : Decoder α} {bytes rest : Bytes} {xs : List α} :
    many d bytes = .ok (xs, rest) ↔
      ∃ items, payload bytes = .ok (items, rest) ∧ repeated d items.length items = .ok xs :=
  payload_lift_eq_ok

end Decoder

/-! ## The law -/

/-- An encoder and a decoder are each other's inverse, and the length of what is written is known.
A header has room for lengths below `2 ^ 64`. -/
structure Lawful (encode : α → Bytes) (length : α → Nat) (decode : Decoder α) : Prop where
  /-- What is written is as long as announced. -/
  length_encode (x : α) : (encode x).length = length x
  /-- What is written is read back, and what comes after it is left. -/
  decode_encode (x : α) (rest : Bytes) (h : (encode x).length < 2 ^ 64) :
    decode (encode x ++ rest) = .ok (x, rest)
  /-- Nothing is read but what is written. -/
  encode_of_decode {bytes rest : Bytes} {x : α} (h : decode bytes = .ok (x, rest)) :
    bytes = encode x ++ rest

namespace Lawful

variable {encode : α → Bytes} {length : α → Nat} {decode : Decoder α}
variable {encode' : β → Bytes} {length' : β → Nat} {decode' : Decoder β}

theorem decode_whole (h : Lawful encode length decode) {x : α}
    (hsize : (encode x).length < 2 ^ 64) : decode (encode x) = .ok (x, []) := by
  have hdecode := h.decode_encode x [] hsize
  rwa [List.append_nil] at hdecode

/-- Bytes that are used up are the encoding of what they are decoded to. -/
theorem eq_encode (h : Lawful encode length decode) {bytes : Bytes} {x : α}
    (hdecode : decode bytes = .ok (x, [])) : bytes = encode x := by
  rw [h.encode_of_decode hdecode, List.append_nil]

/-! ### Strings and lists -/

theorem string : Lawful encodeString stringLength Decoder.string where
  length_encode := length_encodeString
  decode_encode bytes rest h :=
    Decoder.string_eq_ok.2
      (split_encodeString (Nat.lt_of_le_of_lt (length_le_encodeString bytes) h) rest)
  encode_of_decode h := Item.eq_encode_append (Decoder.string_eq_ok.1 h)

theorem payload : Lawful encodeList (fun items => listLength items.length) Decoder.payload where
  length_encode := length_encodeList
  decode_encode items rest h :=
    Decoder.payload_eq_ok.2
      (split_encodeList (Nat.lt_of_le_of_lt (length_le_encodeList items) h) rest)
  encode_of_decode h := Item.eq_encode_append (Decoder.payload_eq_ok.1 h)

/-- The length that is announced is right, so the list has the header of its payload. -/
theorem encodeAnnounced_eq (h : Lawful encode length decode) (x : α) :
    encodeAnnounced (length x) (encode x) = encodeList (encode x) := by
  rw [← h.length_encode x]
  rfl

/-- A codec inside a list, which it must use up. -/
theorem list (h : Lawful encode length decode) :
    Lawful (fun x => encodeAnnounced (length x) (encode x)) (fun x => listLength (length x))
      (Decoder.list decode) where
  length_encode x := by rw [h.encodeAnnounced_eq, length_encodeList, h.length_encode]
  decode_encode x rest hsize := by
    rw [h.encodeAnnounced_eq] at hsize ⊢
    have hitems := Nat.lt_of_le_of_lt (length_le_encodeList (encode x)) hsize
    exact Decoder.list_eq_ok.2
      ⟨encode x, payload.decode_encode (encode x) rest hsize, h.decode_whole hitems⟩
  encode_of_decode hdecode := by
    obtain ⟨items, hitems, hx⟩ := Decoder.list_eq_ok.1 hdecode
    rw [h.encodeAnnounced_eq, payload.encode_of_decode hitems, h.eq_encode hx]

/-! ### Values read through others -/

/-- A value is read through the one that it is written as, if a check tells which value that is. -/
theorem refine (h : Lawful encode length decode) {source : β → α} {check : α → Decoder β}
    (hcheck : ∀ {a b bytes rest}, check a bytes = .ok (b, rest) ↔ source b = a ∧ rest = bytes) :
    Lawful (fun b => encode (source b)) (fun b => length (source b)) (decode >>= check) where
  length_encode b := h.length_encode (source b)
  decode_encode b rest hsize :=
    Decoder.bind_eq_ok.2
      ⟨source b, rest, h.decode_encode (source b) rest hsize, hcheck.2 ⟨rfl, rfl⟩⟩
  encode_of_decode hdecode := by
    obtain ⟨a, rest', ha, hb⟩ := Decoder.bind_eq_ok.1 hdecode
    obtain ⟨rfl, rfl⟩ := hcheck.1 hb
    exact h.encode_of_decode ha

/-- Two parts one after the other, which are all that a value holds. -/
theorem parts (h : Lawful encode length decode) (h' : Lawful encode' length' decode')
    (first : γ → α) (second : γ → β) (make : α → β → γ) (hfirst : ∀ a b, first (make a b) = a)
    (hsecond : ∀ a b, second (make a b) = b) (hmake : ∀ c, make (first c) (second c) = c) :
    Lawful (fun c => encode (first c) ++ encode' (second c))
      (fun c => length (first c) + length' (second c))
      (do let a ← decode; let b ← decode'; return make a b) where
  length_encode c := by rw [List.length_append, h.length_encode, h'.length_encode]
  decode_encode c rest hsize := by
    rw [List.length_append] at hsize
    rw [List.append_assoc]
    refine Decoder.bind_eq_ok.2 ⟨first c, _, h.decode_encode (first c) _ (by omega), ?_⟩
    refine Decoder.bind_eq_ok.2 ⟨second c, rest, h'.decode_encode (second c) rest (by omega), ?_⟩
    rw [hmake]
    rfl
  encode_of_decode hdecode := by
    obtain ⟨a, rest', ha, hdecode⟩ := Decoder.bind_eq_ok.1 hdecode
    obtain ⟨b, rest'', hb, hdecode⟩ := Decoder.bind_eq_ok.1 hdecode
    obtain ⟨rfl, rfl⟩ := Decoder.pure_eq_ok.1 hdecode
    rw [h.encode_of_decode ha, h'.encode_of_decode hb, hfirst, hsecond, List.append_assoc]

theorem pair (h : Lawful encode length decode) (h' : Lawful encode' length' decode') :
    Lawful (fun x => encode x.1 ++ encode' x.2) (fun x => length x.1 + length' x.2)
      (do let a ← decode; let b ← decode'; return (a, b)) :=
  h.parts h' Prod.fst Prod.snd Prod.mk (fun _ _ => rfl) (fun _ _ => rfl) (fun _ => rfl)

/-! ### Numbers and digests -/

theorem nat : Lawful encodeNat natLength Decoder.nat := by
  refine string.refine fun {bytes n _ _} => ?_
  split
  · rename_i hzero
    refine ⟨fun h => absurd h Decoder.throw_ne_ok, ?_⟩
    rintro ⟨rfl, -⟩
    exact absurd hzero (Bytes.head?_ofNat_ne_zero n)
  · rename_i hhead
    rw [Decoder.pure_eq_ok]
    refine and_congr_left fun _ => ?_
    constructor
    · rintro rfl
      exact Bytes.ofNat_toNat hhead
    · rintro rfl
      exact (Bytes.toNat_ofNat n).symm

/-- A byte is written as the number it is, so zero is the empty string. -/
theorem byte :
    Lawful (fun b => encodeNat b.toNat) (fun b => natLength b.toNat) Decoder.byte := by
  refine string.refine fun {bytes b _ _} => ?_
  rw [Bytes.ofNat_toNat_byte]
  -- The decoder tells apart no byte, one byte and more than one.
  split
  · rw [Decoder.pure_eq_ok]
    by_cases hb : b = 0 <;> simp [hb]
  · rename_i c
    split
    · rename_i hzero
      refine ⟨fun h => absurd h Decoder.throw_ne_ok, ?_⟩
      by_cases hb : b = 0 <;> simp [hb, hzero]
    · rename_i hne
      rw [Decoder.pure_eq_ok]
      by_cases hb : b = 0
      · simp [hb, Ne.symm hne]
      · simp [hb]
  · rename_i hnil hsingle
    refine ⟨fun h => absurd h Decoder.throw_ne_ok, ?_⟩
    rintro ⟨rfl, -⟩
    by_cases hb : b = 0 <;> simp_all

theorem digest :
    Lawful (fun d : Digest => encodeString d.imprint) (fun d => stringLength d.imprint)
      Decoder.digest := by
  refine string.refine fun {imprint d _ _} => ?_
  rw [← Digest.ofImprint_eq_ok]
  cases Digest.ofImprint imprint with
  | ok d' => rw [Decoder.pure_eq_ok, Except.ok.injEq, eq_comm]
  | error cause => exact ⟨fun h => absurd h Decoder.throw_ne_ok, nofun⟩

/-! ### Options and repetitions -/

/-- The empty list stands for no value, as no value is written as the empty string. -/
theorem option (h : Lawful encode length decode) (hne : ∀ x, encode x ≠ []) :
    Lawful (encodeOption length encode) (optionLength length) (Decoder.option decode) where
  length_encode
    | none => rfl
    | some x => h.list.length_encode x
  decode_encode
    | none, rest, hsize =>
      Decoder.option_eq_ok.2 ⟨[], payload.decode_encode [] rest hsize, .inl ⟨rfl, rfl⟩⟩
    | some x, rest, hsize => by
      rw [encodeOption, h.encodeAnnounced_eq] at hsize ⊢
      have hitems := Nat.lt_of_le_of_lt (length_le_encodeList (encode x)) hsize
      exact Decoder.option_eq_ok.2 ⟨encode x, payload.decode_encode (encode x) rest hsize,
        .inr ⟨hne x, x, rfl, h.decode_whole hitems⟩⟩
  encode_of_decode hdecode := by
    obtain ⟨items, hitems, ⟨rfl, rfl⟩ | ⟨-, x, rfl, hx⟩⟩ := Decoder.option_eq_ok.1 hdecode
    · exact payload.encode_of_decode hitems
    · rw [encodeOption, h.encodeAnnounced_eq, payload.encode_of_decode hitems, h.eq_encode hx]

/-- Values that take a byte each are no more than their bytes. -/
theorem length_le_flatMap (hne : ∀ x, encode x ≠ []) (xs : List α) :
    xs.length ≤ (xs.flatMap encode).length := by
  induction xs with
  | nil => exact Nat.le_refl 0
  | cons x xs ih =>
    have := List.length_pos_iff.2 (hne x)
    rw [List.flatMap_cons, List.length_append, List.length_cons]
    omega

/-- Values one after the other are read until none is left, if each takes a byte at least. -/
theorem repeated_flatMap (h : Lawful encode length decode) (hne : ∀ x, encode x ≠ []) {fuel : Nat}
    {xs : List α} (hfuel : xs.length ≤ fuel) (hsize : (xs.flatMap encode).length < 2 ^ 64) :
    Decoder.repeated decode fuel (xs.flatMap encode) = .ok xs := by
  induction xs generalizing fuel with
  | nil => cases fuel <;> rfl
  | cons x xs ih =>
    rw [List.flatMap_cons, List.length_append] at hsize
    have hread := h.decode_encode x (xs.flatMap encode) (by omega)
    obtain ⟨b, bytes, hbytes⟩ := List.exists_cons_of_ne_nil (hne x)
    cases fuel with
    | zero => exact absurd hfuel (Nat.not_succ_le_zero _)
    | succ fuel =>
      rw [List.flatMap_cons, hbytes, List.cons_append]
      rw [hbytes, List.cons_append] at hread
      exact Decoder.repeated_cons_eq_ok.2
        ⟨x, _, xs, hread, ih (Nat.le_of_succ_le_succ hfuel) (by omega), rfl⟩

theorem flatMap_encode_of_repeated (h : Lawful encode length decode) {fuel : Nat} {bytes : Bytes}
    {xs : List α} (hdecode : Decoder.repeated decode fuel bytes = .ok xs) :
    bytes = xs.flatMap encode := by
  induction fuel generalizing bytes xs with
  | zero =>
    cases bytes with
    | nil => cases hdecode; rfl
    | cons b bytes => cases hdecode
  | succ fuel ih =>
    cases bytes with
    | nil => cases hdecode; rfl
    | cons b bytes =>
      obtain ⟨x, rest, xs, hx, hxs, rfl⟩ := Decoder.repeated_cons_eq_ok.1 hdecode
      rw [h.encode_of_decode hx, ih hxs, List.flatMap_cons]

/-- Values one after the other are told apart, however many there are. -/
theorem flatMap_inj (h : Lawful encode length decode) (hne : ∀ x, encode x ≠ []) {xs ys : List α}
    (hsize : (xs.flatMap encode).length < 2 ^ 64) (heq : xs.flatMap encode = ys.flatMap encode) :
    xs = ys := by
  have hx := h.repeated_flatMap hne (Nat.le_max_left xs.length ys.length) hsize
  rw [heq] at hx hsize
  have hy := h.repeated_flatMap hne (Nat.le_max_right xs.length ys.length) hsize
  exact Except.ok.inj (hx.symm.trans hy)

theorem length_flatMap (h : Lawful encode length decode) (xs : List α) :
    (xs.flatMap encode).length = xs.foldr (fun x n => length x + n) 0 := by
  induction xs with
  | nil => rfl
  | cons x xs ih =>
    rw [List.flatMap_cons, List.length_append, h.length_encode, ih, List.foldr_cons]

/-- Any number of values in a list, of which each takes a byte at least. -/
theorem many (h : Lawful encode length decode) (hne : ∀ x, encode x ≠ []) :
    Lawful
      (fun xs => encodeAnnounced (xs.foldr (fun x n => length x + n) 0) (xs.flatMap encode))
      (fun xs => listLength (xs.foldr (fun x n => length x + n) 0)) (Decoder.many decode) where
  length_encode xs := by
    rw [← h.length_flatMap]
    exact length_encodeList _
  decode_encode xs rest hsize := by
    rw [← h.length_flatMap] at hsize ⊢
    have hitems := Nat.lt_of_le_of_lt (length_le_encodeList _) hsize
    exact Decoder.many_eq_ok.2 ⟨_, payload.decode_encode _ rest hsize,
      h.repeated_flatMap hne (length_le_flatMap hne xs) hitems⟩
  encode_of_decode hdecode := by
    obtain ⟨items, hitems, hxs⟩ := Decoder.many_eq_ok.1 hdecode
    rw [← h.length_flatMap, payload.encode_of_decode hitems, h.flatMap_encode_of_repeated hxs]
    rfl

end Lawful

/-! ## Lists of strings -/

/-- The list of some strings, with the header of the length that is counted beforehand. -/
def encodeStrings (fields : List Bytes) : Bytes :=
  encodeAnnounced (fields.foldr (fun x n => stringLength x + n) 0) (fields.flatMap encodeString)

theorem encodeStrings_eq (fields : List Bytes) :
    encodeStrings fields = encodeList (fields.flatMap encodeString) := by
  rw [encodeStrings, ← Lawful.string.length_flatMap]
  rfl

/-- A list of strings says how many there are and what each of them is. -/
theorem encodeStrings_inj {xs ys : List Bytes} (hsize : (encodeStrings xs).length < 2 ^ 64)
    (h : encodeStrings xs = encodeStrings ys) : xs = ys := by
  rw [encodeStrings_eq] at hsize
  rw [encodeStrings_eq, encodeStrings_eq] at h
  have hitems := Nat.lt_of_le_of_lt (length_le_encodeList _) hsize
  exact Lawful.string.flatMap_inj encodeString_ne_nil hitems (encodeList_inj hsize h)

/-! ## The law of a type -/

/-- The codec of a type is lawful. -/
abbrev LawfulCodec (α : Type) [Codec α] : Prop :=
  Lawful (encode : α → Bytes) encodedLength decode

/-- Every value is written in as many bytes as announced, and is read back with whatever comes
after it left over. Lengths are machine words, so an encoding has less than `2 ^ 64` bytes. -/
def RoundTrips (α : Type) [Codec α] : Prop :=
  ∀ x : α, (encode x).length = encodedLength x ∧
    (encodedLength x < 2 ^ 64 → ∀ rest, decode (encode x ++ rest) = .ok (x, rest))

/-- Whatever bytes a value is read from are those it is written as. -/
def Canonical (α : Type) [Codec α] : Prop :=
  ∀ (bytes rest : Bytes) (x : α), decode bytes = .ok (x, rest) → bytes = encode x ++ rest

theorem Lawful.roundTrips [Codec α] (h : LawfulCodec α) : RoundTrips α := fun x =>
  ⟨h.length_encode x, fun hsize rest => h.decode_encode x rest (by rwa [h.length_encode x])⟩

theorem Lawful.canonical [Codec α] (h : LawfulCodec α) : Canonical α := fun _ _ _ hdecode =>
  h.encode_of_decode hdecode

theorem lawful_path : LawfulCodec Path := by
  refine Lawful.nat.refine fun {n p _ _} => ?_
  rw [Decoder.pure_eq_ok]
  refine and_congr_left fun _ => ⟨?_, ?_⟩
  · rintro rfl
    rfl
  · rintro rfl
    rfl

/-- An imprint has more than one byte, so it has a header. -/
theorem encode_digest (d : Digest) : encode d = encodeString d.imprint := by
  have hone : d.imprint.length ≠ 1 := by rw [d.length_imprint]; omega
  rw [encodeString_of_length_ne_one hone, d.length_imprint]
  rfl

theorem lawful_digest : LawfulCodec Digest where
  length_encode d := by
    change (header .string _ ++ d.imprint).length = _
    rw [List.length_append, length_header, d.length_imprint]
    rfl
  decode_encode d rest hsize := by
    rw [encode_digest] at hsize ⊢
    exact Lawful.digest.decode_encode d rest hsize
  encode_of_decode h := by
    rw [encode_digest]
    exact Lawful.digest.encode_of_decode h

end MerkleTrie.Rlp
