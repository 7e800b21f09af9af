-- SUMMARY: Encoding a proof and decoding it undo one another: every proof is read back, and no byte string but its encoding is read as it.
import MerkleTrie.Proof.Codec
import MerkleTrie.Proofs.Rlp.Codec

/-! # Binary form of proofs, read back

All codecs of the proof format are lawful, from the values and aggregates of either
flavour up to whole proofs: what they write is read back, and they read nothing
else. Each is put together as its type is. An absent part is the empty list, so a
part that is present may not be written in no bytes; and a tag tells leaves and
nodes apart. -/

namespace MerkleTrie

open Rlp

variable {f : Flavour}

/-! ## Values and aggregates -/

theorem CountedValue.lawful :
    Lawful CountedValue.encode CountedValue.encodedLength CountedValue.decode :=
  (Lawful.string.parts Lawful.nat CountedValue.value CountedValue.counter CountedValue.mk
    (fun _ _ => rfl) (fun _ _ => rfl) (fun _ => rfl)).list

namespace Flavour

theorem lawful_value : (f : Flavour) → LawfulCodec f.Value
  | .plain => Lawful.string
  | .sum => CountedValue.lawful

/-- The aggregate of a plain trie takes no bytes, and there is only one. -/
theorem lawful_aggregate : (f : Flavour) → LawfulCodec f.Aggregate
  | .plain =>
    { length_encode := fun _ => rfl
      decode_encode := fun _ _ _ => rfl
      encode_of_decode := fun h => (Decoder.pure_eq_ok.1 h).2.symm }
  | .sum => Lawful.nat

end Flavour

/-! ## Commitments and terminal branches -/

namespace Commitment

theorem lawful_parts :
    Lawful encodeParts partsLength (decodeParts : Decoder (Commitment f)) :=
  lawful_digest.parts f.lawful_aggregate hash aggregate mk (fun _ _ => rfl) (fun _ _ => rfl)
    (fun _ => rfl)

theorem encodeParts_ne_nil (c : Commitment f) : c.encodeParts ≠ [] :=
  List.append_ne_nil_of_left_ne_nil (List.append_ne_nil_of_left_ne_nil (header_ne_nil _ _) _) _

end Commitment

namespace Terminal

theorem encodeParts_ne_nil : (t : Terminal f) → t.encodeParts ≠ []
  | .leaf _ => List.append_ne_nil_of_left_ne_nil (encodeString_ne_nil _) _
  | .node _ => List.append_ne_nil_of_left_ne_nil (encodeString_ne_nil _) _

/-- The tag says what follows it, the value of a leaf or the commitment to the children of a
node. -/
theorem lawful_parts : Lawful encodeParts partsLength (decodeParts : Decoder (Terminal f)) where
  length_encode
    | .leaf value => by
      rw [encodeParts, List.length_append, length_encodeNat, f.lawful_value.length_encode]
      rfl
    | .node children => by
      rw [encodeParts, List.length_append, length_encodeNat,
        Commitment.lawful_parts.length_encode]
      rfl
  decode_encode
    | .leaf value, rest, hsize => by
      rw [encodeParts, List.length_append] at hsize
      rw [encodeParts, List.append_assoc]
      refine Decoder.bind_eq_ok.2 ⟨leafTag, _, Lawful.byte.decode_encode leafTag _ (by omega), ?_⟩
      exact Decoder.bind_eq_ok.2
        ⟨value, rest, f.lawful_value.decode_encode value rest (by omega), rfl⟩
    | .node children, rest, hsize => by
      rw [encodeParts, List.length_append] at hsize
      rw [encodeParts, List.append_assoc]
      refine Decoder.bind_eq_ok.2 ⟨nodeTag, _, Lawful.byte.decode_encode nodeTag _ (by omega), ?_⟩
      exact Decoder.bind_eq_ok.2
        ⟨children, rest, Commitment.lawful_parts.decode_encode children rest (by omega), rfl⟩
  encode_of_decode hdecode := by
    obtain ⟨tag, rest, htag, h⟩ := Decoder.bind_eq_ok.1 hdecode
    rw [Lawful.byte.encode_of_decode htag]
    split at h
    · rename_i hleaf
      obtain ⟨value, _, hvalue, hmake⟩ := Decoder.bind_eq_ok.1 h
      cases hmake
      rw [hleaf, f.lawful_value.encode_of_decode hvalue, encodeParts, List.append_assoc]
    split at h
    · rename_i hnode
      obtain ⟨children, _, hchildren, hmake⟩ := Decoder.bind_eq_ok.1 h
      cases hmake
      rw [hnode, Commitment.lawful_parts.encode_of_decode hchildren, encodeParts,
        List.append_assoc]
    · exact absurd h Decoder.throw_ne_ok

end Terminal

/-! ## Steps and proofs -/

namespace Step

theorem lawful_parts : Lawful encodeParts partsLength (decodeParts : Decoder (Step f)) := by
  have hsibling := Commitment.lawful_parts.option (Commitment.encodeParts_ne_nil (f := f))
  have hterminal := Terminal.lawful_parts.option (Terminal.encodeParts_ne_nil (f := f))
  have hparts := (lawful_path.pair hsibling).parts hterminal
    (fun s : Step f => (s.path, s.sibling)) Step.terminal (fun x => Step.mk x.1 x.2)
    (fun _ _ => rfl) (fun _ _ => rfl) (fun _ => rfl)
  simp only [bind_assoc, pure_bind] at hparts
  exact hparts

theorem lawful : LawfulCodec (Step f) :=
  lawful_parts.list

theorem encode_ne_nil (s : Step f) : encode s ≠ [] :=
  List.append_ne_nil_of_left_ne_nil (header_ne_nil .list s.partsLength) _

end Step

namespace Proof

theorem lawful_parts : Lawful encodeParts partsLength (decodeParts : Decoder (Proof f)) :=
  Commitment.lawful_parts.parts (Step.lawful.many Step.encode_ne_nil) root steps mk
    (fun _ _ => rfl) (fun _ _ => rfl) (fun _ => rfl)

theorem lawful : LawfulCodec (Proof f) :=
  lawful_parts.list

/-! ## The whole format -/

/-- Whatever the format writes is read back, at every level and in either flavour: paths, digests,
values, aggregates, steps and proofs. -/
theorem codecs_roundTrip (f : Flavour) :
    RoundTrips Path ∧ RoundTrips Digest ∧ RoundTrips f.Value ∧ RoundTrips f.Aggregate ∧
      RoundTrips (Step f) ∧ RoundTrips (Proof f) :=
  ⟨lawful_path.roundTrips, lawful_digest.roundTrips, f.lawful_value.roundTrips,
    f.lawful_aggregate.roundTrips, Step.lawful.roundTrips, lawful.roundTrips⟩

/-- The step of a leaf with the one byte `0x62`, written in front of another byte. -/
theorem roundTrips_leafStep :
    encodedLength (⟨⟨3⟩, none, some (.leaf ([0x62] : Bytes))⟩ : Step .plain) < 2 ^ 64 ∧
      (decode : Decoder (Step .plain))
          (encode (⟨⟨3⟩, none, some (.leaf ([0x62] : Bytes))⟩ : Step .plain) ++ [0x01]) =
        .ok (⟨⟨3⟩, none, some (.leaf ([0x62] : Bytes))⟩, [0x01]) := by
  have hsize :
      encodedLength (⟨⟨3⟩, none, some (.leaf ([0x62] : Bytes))⟩ : Step .plain) < 2 ^ 64 := by
    decide +kernel
  obtain ⟨-, -, -, -, hstep, -⟩ := codecs_roundTrip .plain
  exact ⟨hsize, (hstep _).2 hsize [0x01]⟩

/-- Nothing else is read, at any level and in either flavour; so a byte string that is decoded to a
proof is the encoding of the proof, and no other one is decoded to it. -/
theorem codecs_canonical (f : Flavour) :
    (Canonical Path ∧ Canonical Digest ∧ Canonical f.Value ∧ Canonical f.Aggregate ∧
      Canonical (Step f) ∧ Canonical (Proof f)) ∧
    (∀ (bytes : Bytes) (p : Proof f), Decoder.all decode bytes = .ok p → bytes = encode p) ∧
    ∀ (bytes bytes' : Bytes) (p : Proof f), Decoder.all decode bytes = .ok p →
      Decoder.all decode bytes' = .ok p → bytes = bytes' := by
  have hwhole : ∀ (bytes : Bytes) (p : Proof f), Decoder.all decode bytes = .ok p →
      bytes = encode p :=
    fun _ _ h => lawful.eq_encode (Decoder.all_eq_ok.1 h)
  refine ⟨⟨lawful_path.canonical, lawful_digest.canonical, f.lawful_value.canonical,
    f.lawful_aggregate.canonical, Step.lawful.canonical, lawful.canonical⟩, hwhole, ?_⟩
  intro bytes bytes' p h h'
  rw [hwhole bytes p h, hwhole bytes' p h']

/-- The step of a leaf with the one byte `0x62`, read in front of another byte. -/
theorem canonical_leafStep :
    (decode : Decoder (Step .plain)) [0xc5, 0x03, 0xc0, 0xc2, 0x80, 0x62, 0x01] =
        .ok (⟨⟨3⟩, none, some (.leaf ([0x62] : Bytes))⟩, [0x01]) ∧
      [0xc5, 0x03, 0xc0, 0xc2, 0x80, 0x62, 0x01] =
        encode (⟨⟨3⟩, none, some (.leaf ([0x62] : Bytes))⟩ : Step .plain) ++ [0x01] := by
  have hread : (decode : Decoder (Step .plain)) [0xc5, 0x03, 0xc0, 0xc2, 0x80, 0x62, 0x01] =
      .ok (⟨⟨3⟩, none, some (.leaf ([0x62] : Bytes))⟩, [0x01]) := by
    decide +kernel
  obtain ⟨⟨-, -, -, -, hstep, -⟩, -, -⟩ := codecs_canonical .plain
  exact ⟨hread, hstep _ _ _ hread⟩

end Proof

end MerkleTrie
