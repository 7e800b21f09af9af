-- SUMMARY: Wherever a digest comes from, its length is that of its algorithm, even if lengths are only checked at run time; so its bytes say its algorithm, and it is read from its imprint and from nothing else.
import MerkleTrie.Json.Forms
import MerkleTrie.Proofs.Hash.Imprint
import MerkleTrie.Proofs.Hash.Preimages
import MerkleTrie.Rlp.Codec

/-! # Where digests come from

The type of digests carries the law of their lengths. `Digest.Raw` forgets it: an
algorithm stands beside bytes in a space for the longest digest, and lengths are
checked at run time where they are checked at all. From each `Digest.Origin` a raw
digest is made by these checks alone, and it is the digest that is made with the law
in its type (`Digest.Origin.raw_eq`). So no digest is of a wrong length, and what has
passed for one always finds room (`Digest.origins_fit`). -/

namespace MerkleTrie

theorem Algorithm.digestLength_le (a : Algorithm) : a.digestLength ≤ maxDigestLength := by
  cases a <;> decide

namespace Digest

/-! ## Origins -/

/-- Where a digest may come from. -/
inductive Origin where
  /-- Bytes that are taken for a digest of an algorithm. -/
  | parts (algorithm : Algorithm) (bytes : Bytes)
  | imprint (bytes : Bytes)
  | word (word : Vector UInt8 32)
  /-- All that was fed to a hasher. -/
  | hasher (hasher : Hasher)
  /-- A digest in its binary form, at the front of a byte string. -/
  | encoding (bytes : Bytes)
  | json (value : Json)

/-- Why there is no digest from an origin. -/
inductive Failure where
  | refused (cause : TrieError)
  | notEncoded (cause : Rlp.Error)
  | notJson (cause : Json.Error)
  /-- The bytes are refused, as there is no room for them. -/
  | tooLong
  /-- The bytes do not fit where they are put without a check, and the program stops. -/
  | stopped

/-- What was decoded may have been refused as an imprint. -/
def Failure.ofEncoding : Rlp.Error → Failure
  | .refused cause => .refused cause
  | cause => .notEncoded cause

def Failure.ofJson : Json.Error → Failure
  | .refused cause => .refused cause
  | cause => .notJson cause

/-- The digest from an origin. -/
def Origin.digest : Origin → Except Failure Digest
  | .parts algorithm bytes => (Digest.ofBytes algorithm bytes).mapError .refused
  | .imprint bytes => (Digest.ofImprint bytes).mapError .refused
  | .word w => .ok (Digest.ofWord w)
  | .hasher h => .ok h.digest
  | .encoding bytes => ((Rlp.decode bytes).map Prod.fst).mapError .ofEncoding
  | .json value => (JsonForm.ofJson value).mapError .ofJson

/-! ## Raw digests -/

/-- An algorithm beside some bytes, which need not be a digest of it. -/
structure Raw where
  algorithm : Algorithm
  bytes : Bytes
  deriving DecidableEq

/-- A digest without the law of its length. -/
def raw (d : Digest) : Raw := ⟨d.algorithm, d.bytes⟩

namespace Raw

/-- Put bytes into the space for the longest digest. If there is no room, the failure is `full`. -/
def store (full : Failure) (algorithm : Algorithm) (bytes : Bytes) : Except Failure Raw :=
  if bytes.length ≤ Algorithm.maxDigestLength then .ok ⟨algorithm, bytes⟩ else .error full

def ofBytes (algorithm : Algorithm) (bytes : Bytes) : Except Failure Raw :=
  if bytes.length = algorithm.digestLength then store .tooLong algorithm bytes
  else .error (.refused (.invalidImprint .wrongLength))

def ofImprint : Bytes → Except Failure Raw
  | high :: low :: bytes =>
    let id := Bytes.toNat [high, low]
    match Algorithm.ofId? id with
    | some algorithm => ofBytes algorithm bytes
    | none => .error (.refused (.unsupportedAlgorithm id))
  | _ => .error (.refused (.invalidImprint .tooShort))

def imprint (r : Raw) : Bytes := Bytes.fixed 2 r.algorithm.id ++ r.bytes

/-- The bytes as a word if the algorithm is the standard one. The program stops if they are none. -/
def toWord? (r : Raw) : Except Failure (Option (Vector UInt8 32)) :=
  if r.algorithm = .sha256 then
    if h : r.bytes.length = 32 then .ok (some ⟨r.bytes.toArray, h⟩) else .error .stopped
  else .ok none

end Raw

/-- The raw digest from an origin, made by the checks at run time alone. -/
def Origin.raw : Origin → Except Failure Raw
  | .parts algorithm bytes => Raw.ofBytes algorithm bytes
  | .imprint bytes => Raw.ofImprint bytes
  | .word w => Raw.store .stopped .sha256 w.toList
  | .hasher h => Raw.store .stopped h.algorithm (Sha2.digest h.algorithm h.message)
  | .encoding bytes =>
    match Rlp.Decoder.string bytes with
    | .ok (payload, _) => Raw.ofImprint payload
    | .error cause => .error (.ofEncoding cause)
  | .json (.string text) =>
    match Hex.decode text with
    | .ok bytes => Raw.ofImprint bytes
    | .error cause => .error (.notJson (.notHex cause))
  | .json _ => .error (.notJson .wrongForm)

/-- A raw digest that comes from somewhere. -/
def Raw.Made (r : Raw) : Prop := ∃ origin : Origin, origin.raw = .ok r

/-! ## Failures -/

theorem map_raw_eq_ok {x : Except Failure Digest} {r : Raw} :
    x.map raw = .ok r ↔ ∃ d, x = .ok d ∧ d.raw = r := by
  cases x with
  | error cause => exact ⟨nofun, fun ⟨_, h, _⟩ => nomatch h⟩
  | ok d =>
    constructor
    · intro h
      exact ⟨d, rfl, Except.ok.inj h⟩
    · rintro ⟨d', h, rfl⟩
      cases h
      rfl

theorem map_raw_eq_error {x : Except Failure Digest} {failure : Failure} :
    x.map raw = .error failure ↔ x = .error failure := by
  cases x with
  | error cause => constructor <;> intro h <;> cases h <;> rfl
  | ok d => exact ⟨nofun, nofun⟩

theorem mapError_refused_eq_ok {x : Except TrieError Digest} {d : Digest} :
    x.mapError Failure.refused = .ok d ↔ x = .ok d := by
  cases x with
  | error cause => exact ⟨nofun, nofun⟩
  | ok d' => constructor <;> intro h <;> cases h <;> rfl

theorem mapError_ne_error {ε α : Type} {x : Except ε α} {name : ε → Failure} {failure : Failure}
    (h : ∀ cause, name cause ≠ failure) : x.mapError name ≠ .error failure := by
  cases x with
  | error cause => exact fun heq => h cause (Except.error.inj heq)
  | ok y => exact nofun

/-! ## The law of lengths -/

namespace Raw

/-- There is room for the digests of every algorithm. -/
theorem store_of_length {algorithm : Algorithm} {bytes : Bytes}
    (h : bytes.length = algorithm.digestLength) (full : Failure) :
    store full algorithm bytes = .ok ⟨algorithm, bytes⟩ :=
  if_pos (h ▸ algorithm.digestLength_le)

theorem ofBytes_eq (algorithm : Algorithm) (bytes : Bytes) :
    ofBytes algorithm bytes = ((Digest.ofBytes algorithm bytes).mapError .refused).map raw := by
  unfold ofBytes Digest.ofBytes
  split
  · rename_i hlength
    exact store_of_length hlength .tooLong
  · rfl

theorem ofImprint_eq (bytes : Bytes) :
    ofImprint bytes = ((Digest.ofImprint bytes).mapError .refused).map raw := by
  match bytes with
  | high :: low :: rest =>
    simp only [ofImprint, Digest.ofImprint]
    cases Algorithm.ofId? (Bytes.toNat [high, low]) with
    | none => rfl
    | some algorithm => exact ofBytes_eq algorithm rest
  | [] | [_] => rfl

end Raw

namespace Origin

theorem raw_encoding (bytes : Bytes) :
    (encoding bytes).raw = (encoding bytes).digest.map Digest.raw := by
  change _ = (((Rlp.Decoder.digest bytes).map Prod.fst).mapError Failure.ofEncoding).map Digest.raw
  simp only [raw, Rlp.Decoder.digest, bind, StateT.bind]
  cases Rlp.Decoder.string bytes with
  | error cause => rfl
  | ok item =>
    simp only [Except.bind, Raw.ofImprint_eq]
    cases Digest.ofImprint item.1 <;> rfl

theorem raw_json (value : Json) : (json value).raw = (json value).digest.map Digest.raw := by
  change _ = ((Digest.ofJson value).mapError Failure.ofJson).map Digest.raw
  cases value with
  | string text =>
    simp only [raw, Digest.ofJson]
    cases Hex.decode text with
    | error cause => rfl
    | ok bytes =>
      simp only [Raw.ofImprint_eq]
      cases Digest.ofImprint bytes <;> rfl
  | _ => rfl

/-- The checks at run time make the digest that has the law of its length in its type. -/
theorem raw_eq (origin : Origin) : origin.raw = origin.digest.map Digest.raw := by
  cases origin with
  | parts algorithm bytes => exact Raw.ofBytes_eq algorithm bytes
  | imprint bytes => exact Raw.ofImprint_eq bytes
  | word w => exact Raw.store_of_length (ofWord w).length_bytes .stopped
  | hasher h => exact Raw.store_of_length h.digest.length_bytes .stopped
  | encoding bytes => exact raw_encoding bytes
  | json value => exact raw_json value

/-- If there is no digest, it is for one of the reasons that the readers give. -/
theorem raw_ne_error {failure : Failure} (hrefused : ∀ cause, .refused cause ≠ failure)
    (hencoding : ∀ cause, .notEncoded cause ≠ failure) (hjson : ∀ cause, .notJson cause ≠ failure)
    (origin : Origin) : origin.raw ≠ .error failure := by
  rw [raw_eq, Ne, map_raw_eq_error]
  cases origin with
  | parts algorithm bytes => exact mapError_ne_error hrefused
  | imprint bytes => exact mapError_ne_error hrefused
  | word w => exact nofun
  | hasher h => exact nofun
  | encoding bytes =>
    refine mapError_ne_error fun cause => ?_
    unfold Failure.ofEncoding
    split
    · exact hrefused _
    · exact hencoding cause
  | json value =>
    refine mapError_ne_error fun cause => ?_
    unfold Failure.ofJson
    split
    · exact hrefused _
    · exact hjson cause

end Origin

theorem map_toList_toWord? (d : Digest) :
    d.toWord?.map Vector.toList = if d.algorithm = .sha256 then some d.bytes else none := by
  unfold toWord?
  split <;> rfl

namespace Raw

/-- The raw digests that come from somewhere are the digests. -/
theorem made_iff {r : Raw} : r.Made ↔ ∃ d : Digest, d.raw = r := by
  constructor
  · rintro ⟨origin, horigin⟩
    rw [origin.raw_eq, map_raw_eq_ok] at horigin
    obtain ⟨d, -, hd⟩ := horigin
    exact ⟨d, hd⟩
  · rintro ⟨d, rfl⟩
    have hparts : Digest.ofBytes d.algorithm d.bytes = .ok d := Digest.ofBytes_eq_ok.2 ⟨rfl, rfl⟩
    refine ⟨.parts d.algorithm d.bytes, ?_⟩
    rw [Origin.raw_eq, map_raw_eq_ok]
    exact ⟨d, mapError_refused_eq_ok.2 hparts, rfl⟩

/-- The bytes of a digest of the standard algorithm are a word. -/
theorem toWord?_raw (d : Digest) : d.raw.toWord? = .ok d.toWord? := by
  by_cases hstandard : d.algorithm = .sha256
  · have hlength : d.bytes.length = 32 := by
      rw [d.length_bytes, hstandard]
      rfl
    simp only [toWord?, Digest.toWord?, raw, hstandard, hlength, if_true, dite_true]
  · simp only [toWord?, Digest.toWord?, raw, hstandard, if_false, dite_false]

theorem ofImprint_eq_ok {bytes : Bytes} {r : Raw} :
    ofImprint bytes = .ok r ↔ r.Made ∧ r.imprint = bytes := by
  rw [ofImprint_eq, map_raw_eq_ok, made_iff]
  constructor
  · rintro ⟨d, hread, rfl⟩
    exact ⟨⟨d, rfl⟩, Digest.ofImprint_eq_ok.1 (mapError_refused_eq_ok.1 hread)⟩
  · rintro ⟨⟨d, rfl⟩, himprint⟩
    exact ⟨d, mapError_refused_eq_ok.2 (Digest.ofImprint_eq_ok.2 himprint), rfl⟩

end Raw

/-! ## Lengths, bytes and imprints -/

/-- Wherever digests come from, the checks at run time make those that have the law of their lengths
in their type, and never run out of room. So the length of a digest is that of its algorithm, and
the bytes of one of the standard algorithm can be taken for a word without a check; two digests
with the same bytes are the same, the algorithm included; and a byte string is read as an imprint
if and only if it is the imprint of a digest that comes from somewhere, which is then the one
read. -/
theorem origins_fit :
    (∀ origin : Origin, origin.raw = origin.digest.map raw ∧
      origin.raw ≠ .error .tooLong ∧ origin.raw ≠ .error .stopped) ∧
    (∀ r : Raw, r.Made → r.bytes.length = r.algorithm.digestLength ∧
      ∃ word?, r.toWord? = .ok word? ∧
        word?.map Vector.toList = if r.algorithm = .sha256 then some r.bytes else none) ∧
    (∀ r r' : Raw, r.Made → r'.Made → r.bytes = r'.bytes → r = r') ∧
    ∀ (bytes : Bytes) (r : Raw), Raw.ofImprint bytes = .ok r ↔ r.Made ∧ r.imprint = bytes := by
  refine ⟨fun origin => ⟨origin.raw_eq, ?_, ?_⟩, ?_, ?_, fun _ _ => Raw.ofImprint_eq_ok⟩
  · apply origin.raw_ne_error <;> exact fun _ => nofun
  · apply origin.raw_ne_error <;> exact fun _ => nofun
  · intro r hmade
    obtain ⟨d, rfl⟩ := Raw.made_iff.1 hmade
    exact ⟨d.length_bytes, d.toWord?, Raw.toWord?_raw d, d.map_toList_toWord?⟩
  · intro r r' hmade hmade' hbytes
    obtain ⟨d, rfl⟩ := Raw.made_iff.1 hmade
    obtain ⟨d', rfl⟩ := Raw.made_iff.1 hmade'
    exact congrArg raw (eq_of_bytes hbytes)

/-- The digest of zero bytes only, taken from a word and read from an imprint. -/
theorem origins_fit_of_zeros :
    let r : Raw := ⟨.sha256, List.replicate 32 0⟩
    (Origin.word (Vector.replicate 32 0)).raw = .ok r ∧
      Raw.ofImprint (List.replicate 34 0) = .ok r ∧
      r.bytes.length = r.algorithm.digestLength ∧ r.imprint = List.replicate 34 0 := by
  intro r
  have hword : (Origin.word (Vector.replicate 32 0)).raw = .ok r := rfl
  have hread : Raw.ofImprint (List.replicate 34 0) = .ok r := rfl
  obtain ⟨-, hlength, -, himprint⟩ := origins_fit
  obtain ⟨hmade, hbytes⟩ := (himprint _ r).1 hread
  exact ⟨hword, hread, (hlength r hmade).1, hbytes⟩

end Digest

end MerkleTrie
