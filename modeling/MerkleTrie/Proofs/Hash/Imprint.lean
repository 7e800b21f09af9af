-- SUMMARY: Imprints and digests determine one another, and no other byte string is taken for an imprint.
import MerkleTrie.Hash.Digest
import MerkleTrie.Proofs.Bytes.Numbers

/-! # Imprints

An imprint says its digest, the algorithm included, and only the imprint of a
digest is read as one (`Digest.ofImprint_eq_ok`). -/

namespace MerkleTrie.Digest

@[simp] theorem length_imprint (d : Digest) :
    d.imprint.length = 2 + d.algorithm.digestLength := by
  rw [imprint, List.length_append, Bytes.length_fixed, d.length_bytes]

theorem ofBytes_eq_ok {algorithm : Algorithm} {bytes : Bytes} {d : Digest} :
    ofBytes algorithm bytes = .ok d ↔ d.algorithm = algorithm ∧ d.bytes = bytes := by
  unfold ofBytes
  split
  · rename_i hlength
    constructor
    · intro h
      cases h
      exact ⟨rfl, rfl⟩
    · rintro ⟨rfl, rfl⟩
      rfl
  · rename_i hlength
    constructor
    · intro h
      cases h
    · rintro ⟨rfl, rfl⟩
      exact absurd d.length_bytes hlength

/-- Two bytes are the number of an algorithm if they are what its imprints begin with. -/
theorem ofId?_toNat_pair {high low : UInt8} {algorithm : Algorithm} :
    Algorithm.ofId? (Bytes.toNat [high, low]) = some algorithm ↔
      Bytes.fixed 2 algorithm.id = [high, low] := by
  rw [Algorithm.ofId?_eq_some_iff]
  constructor
  · intro h
    rw [← h]
    exact Bytes.fixed_toNat [high, low]
  · intro h
    rw [← h]
    cases algorithm <;> decide

/-- The number of the algorithm is read off two bytes, and the digest is what follows. -/
theorem ofImprint_cons_eq_ok {high low : UInt8} {rest : Bytes} {d : Digest} :
    ofImprint (high :: low :: rest) = .ok d ↔
      Bytes.fixed 2 d.algorithm.id = [high, low] ∧ d.bytes = rest := by
  rw [← ofId?_toNat_pair]
  simp only [ofImprint]
  cases Algorithm.ofId? (Bytes.toNat [high, low]) with
  | none => simp
  | some algorithm => simp only [ofBytes_eq_ok, Option.some_inj, @eq_comm _ algorithm]

/-- A byte string is read as a digest if and only if it is the imprint of it. -/
theorem ofImprint_eq_ok {bytes : Bytes} {d : Digest} :
    ofImprint bytes = .ok d ↔ d.imprint = bytes := by
  match bytes with
  | high :: low :: rest =>
    rw [ofImprint_cons_eq_ok, imprint]
    constructor
    · rintro ⟨hid, hbytes⟩
      rw [hid, hbytes]
      rfl
    · intro h
      exact List.append_inj h (Bytes.length_fixed 2 _)
  | [] | [_] =>
    have hlength := d.length_imprint
    constructor
    · intro h
      cases h
    · intro h
      simp only [h, List.length_nil, List.length_singleton] at hlength
      omega

end MerkleTrie.Digest
