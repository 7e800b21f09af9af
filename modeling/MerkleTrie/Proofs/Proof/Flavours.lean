-- SUMMARY: No byte string is read as a proof in both flavours, and a step that is read in both has neither a sibling nor a terminal branch.
import MerkleTrie.Proofs.Proof.Codec

/-! # Flavours told apart

The binary form of a proof does not say its flavour, and it need not. In a plain
trie the list of the steps follows the root hash and in a sum trie a counter does,
which is a string. The parts of a step are told apart in the same way: what commits
to a branch ends behind its digest or goes on with a counter, and the value of a leaf
is a string or a list. So only a step with neither a sibling nor a terminal branch
is read in both flavours (`Proof.encodings_disjoint`). -/

namespace MerkleTrie

open Rlp

/-! ## Decoders that exclude one another -/

namespace Rlp.Decoder

variable {α β γ δ : Type} {d : Decoder α} {d' : Decoder β}

/-- No bytes are used up by both decoders. -/
def Exclusive (d : Decoder α) (d' : Decoder β) : Prop :=
  ∀ ⦃bytes x y⦄, d bytes = .ok (x, []) → d' bytes ≠ .ok (y, [])

/-- An item that is a string is no list. -/
theorem payload_ne_ok {bytes items items' rest rest' : Bytes}
    (h : string bytes = .ok (items, rest)) : payload bytes ≠ .ok (items', rest') := by
  intro h'
  have hsplit := (string_eq_ok.1 h).symm.trans (payload_eq_ok.1 h')
  cases hsplit

/-- A number stands in a string. -/
theorem string_of_nat {bytes rest : Bytes} {n : Nat} (h : nat bytes = .ok (n, rest)) :
    ∃ digits rest', string bytes = .ok (digits, rest') := by
  obtain ⟨digits, rest', hdigits, -⟩ := bind_eq_ok.1 h
  exact ⟨digits, rest', hdigits⟩

/-- What was read before is the same for both. -/
theorem Exclusive.bind {first : Decoder γ} {next : γ → Decoder α} {next' : γ → Decoder β}
    (h : ∀ x, Exclusive (next x) (next' x)) : Exclusive (first >>= next) (first >>= next') := by
  intro bytes x y hread hread'
  obtain ⟨z, rest, hfirst, hx⟩ := bind_eq_ok.1 hread
  obtain ⟨z', rest', hfirst', hy⟩ := bind_eq_ok.1 hread'
  cases hfirst.symm.trans hfirst'
  exact h z hx hy

theorem Exclusive.map (h : Exclusive d d') (make : α → γ) (make' : β → δ) :
    Exclusive (do let x ← d; return make x) (do let y ← d'; return make' y) := by
  intro bytes x y hread hread'
  obtain ⟨x, _, hx, hmake⟩ := bind_eq_ok.1 hread
  obtain ⟨y, _, hy, hmake'⟩ := bind_eq_ok.1 hread'
  obtain ⟨-, rfl⟩ := pure_eq_ok.1 hmake
  obtain ⟨-, rfl⟩ := pure_eq_ok.1 hmake'
  exact h hx hy

theorem Exclusive.list (h : Exclusive d d') {bytes rest rest' : Bytes} {x : α} {y : β}
    (hread : list d bytes = .ok (x, rest)) : list d' bytes ≠ .ok (y, rest') := by
  intro hread'
  obtain ⟨items, hitems, hx⟩ := list_eq_ok.1 hread
  obtain ⟨items', hitems', hy⟩ := list_eq_ok.1 hread'
  cases hitems.symm.trans hitems'
  exact h hx hy

/-- Both read the empty list, as no value. -/
theorem Exclusive.option (h : Exclusive d d') {bytes rest rest' : Bytes} {x : Option α}
    {y : Option β} (hread : option d bytes = .ok (x, rest))
    (hread' : option d' bytes = .ok (y, rest')) : x = none ∧ y = none ∧ rest = rest' := by
  obtain ⟨items, hitems, hx⟩ := option_eq_ok.1 hread
  obtain ⟨items', hitems', hy⟩ := option_eq_ok.1 hread'
  cases hitems.symm.trans hitems'
  rcases hx with ⟨rfl, rfl⟩ | ⟨hne, x, rfl, hx⟩
  · rcases hy with ⟨-, rfl⟩ | ⟨hne, -⟩
    · exact ⟨rfl, rfl, rfl⟩
    · exact absurd rfl hne
  · rcases hy with ⟨hempty, -⟩ | ⟨-, y, rfl, hy⟩
    · exact absurd hempty hne
    · exact absurd hy (h hx)

/-- No value is read from the empty list, by whatever decoder. -/
theorem option_eq_none {bytes rest : Bytes} :
    option d bytes = .ok (none, rest) ↔ payload bytes = .ok ([], rest) := by
  rw [option_eq_ok]
  constructor
  · rintro ⟨items, hitems, ⟨rfl, -⟩ | ⟨-, y, hnone, -⟩⟩
    · exact hitems
    · cases hnone
  · intro hempty
    exact ⟨[], hempty, .inl ⟨rfl, rfl⟩⟩

end Rlp.Decoder

/-! ## Values, commitments and terminal branches -/

/-- A value is a string or a list. -/
theorem Flavour.exclusive_value :
    Decoder.Exclusive (decode : Decoder Flavour.plain.Value)
      (decode : Decoder Flavour.sum.Value) := by
  intro bytes value value' hplain hsum
  obtain ⟨items, hitems, -⟩ := Decoder.list_eq_ok.1 hsum
  exact Decoder.payload_ne_ok hplain hitems

/-- The digest of a plain commitment is the end of it, and a counter follows that of a sum
commitment. -/
theorem Commitment.exclusive_decodeParts :
    Decoder.Exclusive (decodeParts : Decoder (Commitment .plain))
      (decodeParts : Decoder (Commitment .sum)) := by
  refine Decoder.Exclusive.bind fun digest => ?_
  intro bytes c c' hplain hsum
  obtain ⟨aggregate, _, haggregate, hmake⟩ := Decoder.bind_eq_ok.1 hplain
  obtain ⟨counter, _, hcounter, -⟩ := Decoder.bind_eq_ok.1 hsum
  obtain ⟨-, rfl⟩ := Decoder.pure_eq_ok.1 haggregate
  obtain ⟨-, rfl⟩ := Decoder.pure_eq_ok.1 hmake
  cases hcounter

theorem Terminal.exclusive_decodeParts :
    Decoder.Exclusive (decodeParts : Decoder (Terminal .plain))
      (decodeParts : Decoder (Terminal .sum)) := by
  refine Decoder.Exclusive.bind fun tag => ?_
  split
  · exact Flavour.exclusive_value.map Terminal.leaf Terminal.leaf
  split
  · exact Commitment.exclusive_decodeParts.map Terminal.node Terminal.node
  · exact fun _ _ _ h => absurd h Decoder.throw_ne_ok

/-! ## Steps -/

namespace Step

variable {f : Flavour} {bytes rest rest' : Bytes}

/-- A step with neither a sibling nor a terminal branch. -/
def bare (path : Path) : Step f := ⟨path, none, none⟩

theorem decode_eq_ok {s : Step f} :
    decode bytes = .ok (s, rest) ↔
      ∃ items afterPath afterSibling, Decoder.payload bytes = .ok (items, rest) ∧
        decode items = .ok (s.path, afterPath) ∧
        Decoder.option Commitment.decodeParts afterPath = .ok (s.sibling, afterSibling) ∧
        Decoder.option Terminal.decodeParts afterSibling = .ok (s.terminal, []) := by
  constructor
  · intro h
    obtain ⟨items, hitems, h⟩ := Decoder.list_eq_ok.1 h
    obtain ⟨path, afterPath, hpath, h⟩ := Decoder.bind_eq_ok.1 h
    obtain ⟨sibling, afterSibling, hsibling, h⟩ := Decoder.bind_eq_ok.1 h
    obtain ⟨terminal, _, hterminal, h⟩ := Decoder.bind_eq_ok.1 h
    obtain ⟨rfl, rfl⟩ := Decoder.pure_eq_ok.1 h
    exact ⟨items, afterPath, afterSibling, hitems, hpath, hsibling, hterminal⟩
  · rintro ⟨items, afterPath, afterSibling, hitems, hpath, hsibling, hterminal⟩
    refine Decoder.list_eq_ok.2 ⟨items, hitems, ?_⟩
    refine Decoder.bind_eq_ok.2 ⟨s.path, afterPath, hpath, ?_⟩
    refine Decoder.bind_eq_ok.2 ⟨s.sibling, afterSibling, hsibling, ?_⟩
    exact Decoder.bind_eq_ok.2 ⟨s.terminal, [], hterminal, rfl⟩

theorem eq_bare_of_decode {s : Step .plain} {s' : Step .sum} (hplain : decode bytes = .ok (s, rest))
    (hsum : decode bytes = .ok (s', rest')) :
    ∃ path, s = bare path ∧ s' = bare path ∧ rest = rest' := by
  obtain ⟨items, afterPath, afterSibling, hitems, hpath, hsibling, hterminal⟩ :=
    decode_eq_ok.1 hplain
  obtain ⟨items', afterPath', afterSibling', hitems', hpath', hsibling', hterminal'⟩ :=
    decode_eq_ok.1 hsum
  cases hitems.symm.trans hitems'
  obtain ⟨hsame, rfl⟩ := Prod.mk.inj (Except.ok.inj (hpath.symm.trans hpath'))
  obtain ⟨hnone, hnone', rfl⟩ := Commitment.exclusive_decodeParts.option hsibling hsibling'
  obtain ⟨hbare, hbare', -⟩ := Terminal.exclusive_decodeParts.option hterminal hterminal'
  obtain ⟨path, sibling, terminal⟩ := s
  obtain ⟨path', sibling', terminal'⟩ := s'
  subst hsame hnone hnone' hbare hbare'
  exact ⟨path, rfl, rfl, rfl⟩

/-- A bare step is read from the same bytes in both flavours. -/
theorem decode_bare_iff {path : Path} :
    decode bytes = .ok ((bare path : Step .plain), rest) ↔
      decode bytes = .ok ((bare path : Step .sum), rest) := by
  simp only [decode_eq_ok, bare, Decoder.option_eq_none]

end Step

/-! ## Proofs -/

namespace Proof

/-- Behind the root hash stands the list of the steps or the counter, which is a string. -/
theorem exclusive_decodeParts :
    Decoder.Exclusive (decodeParts : Decoder (Proof .plain))
      (decodeParts : Decoder (Proof .sum)) := by
  unfold decodeParts Commitment.decodeParts
  simp only [bind_assoc, pure_bind]
  refine Decoder.Exclusive.bind fun digest => ?_
  intro bytes p p' hplain hsum
  obtain ⟨aggregate, _, haggregate, hbehind⟩ := Decoder.bind_eq_ok.1 hplain
  obtain ⟨counter, _, hcounter, -⟩ := Decoder.bind_eq_ok.1 hsum
  obtain ⟨-, rfl⟩ := Decoder.pure_eq_ok.1 haggregate
  obtain ⟨steps, _, hsteps, -⟩ := Decoder.bind_eq_ok.1 hbehind
  obtain ⟨items, hitems, -⟩ := Decoder.many_eq_ok.1 hsteps
  obtain ⟨digits, _, hdigits⟩ := Decoder.string_of_nat hcounter
  exact Decoder.payload_ne_ok hdigits hitems

/-- No byte string is read as a proof in both flavours, whatever comes after the proof. A step that
is read in both has neither a sibling nor a terminal branch; it is the same step, with the same
bytes after it, and every such step is read in both. -/
theorem encodings_disjoint :
    (∀ (bytes rest rest' : Bytes) (p : Proof .plain) (p' : Proof .sum),
      decode bytes = .ok (p, rest) → decode bytes ≠ .ok (p', rest')) ∧
    (∀ (bytes rest rest' : Bytes) (s : Step .plain) (s' : Step .sum),
      decode bytes = .ok (s, rest) → decode bytes = .ok (s', rest') →
      ∃ path, s = .bare path ∧ s' = .bare path ∧ rest = rest') ∧
    ∀ (bytes rest : Bytes) (path : Path),
      decode bytes = .ok ((.bare path : Step .plain), rest) ↔
        decode bytes = .ok ((.bare path : Step .sum), rest) :=
  ⟨fun _ _ _ _ _ h => exclusive_decodeParts.list h, fun _ _ _ _ _ => Step.eq_bare_of_decode,
    fun _ _ _ => Step.decode_bare_iff⟩

/-- A plain proof without steps, and the step with the path `4` and nothing else. -/
theorem encodings_disjoint_of_small :
    let zeros : Digest := ⟨.sha256, List.replicate 32 0, rfl⟩
    let p : Proof .plain := ⟨⟨zeros, ()⟩, []⟩
    decode (encode p) = .ok (p, []) ∧
      (∀ (p' : Proof .sum) (rest : Bytes), decode (encode p) ≠ .ok (p', rest)) ∧
      decode [0xc3, 0x04, 0xc0, 0xc0] = .ok ((.bare ⟨4⟩ : Step .plain), []) ∧
      decode [0xc3, 0x04, 0xc0, 0xc0] = .ok ((.bare ⟨4⟩ : Step .sum), []) := by
  intro zeros p
  obtain ⟨hproof, -, hstep⟩ := encodings_disjoint
  have hread : decode (encode p) = .ok (p, []) := by decide +kernel
  have hbare : decode [0xc3, 0x04, 0xc0, 0xc0] = .ok ((.bare ⟨4⟩ : Step .plain), []) := by
    decide +kernel
  exact ⟨hread, fun p' rest => hproof _ _ rest p p' hread, hbare, (hstep _ _ _).1 hbare⟩

end Proof

end MerkleTrie
