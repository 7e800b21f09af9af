-- SUMMARY: A plain leaf with a byte of its value moved to its path has the same hash, so it proves a key that the trie does not have.
import MerkleTrie.Proofs.Hash.Preimages
import MerkleTrie.Proofs.Proof.Honest

/-! # Recut leaves

What is hashed for a plain leaf is its path and its value with no mark between
them. The same bytes may be cut after the first byte of the value. If that keeps the
side on which the leaf hangs, the proof made for the leaf turns into one of a leaf
with a longer path. No other leaf of the trie hangs there, so the trie has no leaf
with the new key (`Forest.Formed.verify_recut`). -/

namespace MerkleTrie

/-! ## One byte more -/

theorem Bytes.ofNat_push {n : Nat} (h : 0 < n) (b : UInt8) :
    ofNat (256 * n + b.toNat) = ofNat n ++ [b] := by
  have hb : b.toNat < 256 := b.toNat_lt
  rw [ofNat, Numeral.digits_of_pos (by decide) (by omega),
    show (256 * n + b.toNat) % 256 = b.toNat by omega,
    show (256 * n + b.toNat) / 256 = n by omega, List.map_cons, List.reverse_cons,
    UInt8.ofNat_toNat]
  rfl

namespace Path

/-- The path with one byte more at the end of its bytes. -/
def push (p : Path) (b : UInt8) : Path := ⟨256 * p.code + b.toNat⟩

theorem code_push (p : Path) (b : UInt8) : (p.push b).code = 256 * p.code + b.toNat := rfl

variable {p : Path}

theorem code_pos (h : p ≠ zero) : 0 < p.code := by
  refine Nat.pos_of_ne_zero fun hcode => h ?_
  cases p
  exact congrArg mk hcode

theorem toBytes_push (h : p ≠ zero) (b : UInt8) : (p.push b).toBytes = p.toBytes ++ [b] := by
  have hpos := code_pos h
  rw [toBytes, toBytes, code_push, if_neg (by omega), if_neg (by omega), Bytes.ofNat_push hpos]

theorem isRight_push (p : Path) (b : UInt8) : (p.push b).isRight = b.toNat.testBit 0 := by
  have hcode : (256 * p.code + b.toNat) % 2 = b.toNat % 2 := by omega
  rw [push, isRight, Nat.testBit_zero, Nat.testBit_zero, hcode]

/-- The longer path has its sentinel, and it is not the path that it was made from. -/
theorem push_ne (h : p ≠ zero) (b : UInt8) : p.push b ≠ zero ∧ p.push b ≠ p := by
  have hpos := code_pos h
  have hcode := code_push p b
  constructor <;> intro heq <;> rw [heq] at hcode
  · simp only [zero] at hcode
    omega
  · omega

theorem head?_bits_push (h : p ≠ zero) (b : UInt8) :
    (p.push b).bits.head? = some (p.push b).isRight := by
  have hpos := code_pos h
  have hlt : 1 < (p.push b).code := by
    rw [code_push]
    omega
  rw [bits, bitsOf_of_lt hlt]
  rfl

end Path

/-! ## The innermost step -/

variable {f : Flavour} {algorithm : Algorithm}

/-- The first step of a valid proof may be replaced by one over a leaf with the same hash. -/
theorem Proof.successful_of_first {p : Proof f} {query : Path}
    (hvalid : (p.verify query).valid = true) {step step' : Step f} {outer : List (Step f)}
    (hsteps : p.steps = step :: outer) (hzero : step'.path ≠ .zero) {value : f.Value}
    (hleaf : step'.terminal = some (.leaf value))
    (hlift : step'.lift p.algorithm none = step.lift p.algorithm none) :
    let p' : Proof f := ⟨p.root, step' :: outer⟩
    p'.Wellformed ∧ (p'.verify p'.key).successful = true := by
  intro p'
  obtain ⟨hwf, hascend⟩ := valid_iff.1 hvalid
  have hwf' : p'.Wellformed := by
    refine ⟨by simp [p', Proof.outer], ?_⟩
    intro s hs
    rcases List.mem_cons.1 (List.mem_reverse.1 hs) with rfl | hs
    · exact hzero
    · refine hwf.ne_zero s (List.mem_reverse.2 ?_)
      rw [hsteps]
      exact List.mem_cons_of_mem _ hs
  have hreached : p'.reached = some p.root := by
    rw [← hascend, ← reached_eq, reached, reached, hsteps, List.foldl_cons, List.foldl_cons,
      ← hlift]
    rfl
  have hends : p'.endsInLeaf = true := by
    rcases step' with ⟨path, sibling, terminal⟩
    obtain rfl : terminal = some (.leaf value) := hleaf
    rfl
  refine ⟨hwf', ?_⟩
  rw [verify_of_wellformed hwf', Verdict.successful, hreached, hends]
  simp [p']

namespace Step

/-- The step over a leaf whose value begins with a byte that is moved to the path. -/
def recut (step : Step .plain) (b : UInt8) (rest : Bytes) : Step .plain :=
  ⟨step.path.push b, step.sibling, some (.leaf rest)⟩

/-- The recut leaf has the same bytes, and so the same hash. -/
theorem lift_recut {path : Path} (hzero : path ≠ .zero) (sibling : Option (Commitment .plain))
    {b : UInt8} (hside : path.isRight = b.toNat.testBit 0) (rest : Bytes) :
    (recut ⟨path, sibling, some (.leaf (b :: rest))⟩ b rest).lift algorithm none =
      lift algorithm ⟨path, sibling, some (.leaf (b :: rest))⟩ none := by
  have hbytes : Flavour.leafPreimage (f := .plain) (path.push b) rest =
      Flavour.leafPreimage (f := .plain) path (b :: rest) := by
    calc (path.push b).toBytes ++ rest
      _ = (path.toBytes ++ [b]) ++ rest := by rw [Path.toBytes_push hzero]
      _ = path.toBytes ++ b :: rest := List.append_cons .. |>.symm
  have hown : (recut ⟨path, sibling, some (.leaf (b :: rest))⟩ b rest).own algorithm none =
      own algorithm ⟨path, sibling, some (.leaf (b :: rest))⟩ none :=
    congrArg (fun bytes => some (⟨.hash algorithm bytes, ()⟩ : Commitment .plain)) hbytes
  rw [lift_eq, lift_eq, hown]
  exact congrArg (fun side => Commitment.beside algorithm side _ sibling)
    ((Path.isRight_push path b).trans hside.symm)

end Step

/-! ## Where a leaf hangs -/

theorem head?_append_congr {as bs cs : List Bool} (h : bs.head? = cs.head?) :
    (as ++ bs).head? = (as ++ cs).head? := by
  rw [List.head?_append, List.head?_append, h]

/-- The steps made for the key of a leaf end in that leaf. No other leaf has a key that goes on from
the outer steps to the same side. -/
theorem Layout.descend_of_mem {L : Layout f} {side : Bool} (hf : L.Formed side)
    (algorithm : Algorithm) {e : Entry f} (he : e ∈ L.entries) (sibling : Option (Commitment f)) :
    ∃ outer segment sibling', (L.branch algorithm).descend (.ofBits e.1) sibling =
        outer ++ [⟨.ofBits segment, sibling', some (.leaf e.2)⟩] ∧
      e.1 = Step.spelled outer ++ segment ∧ segment ≠ [] ∧
      ∀ e' ∈ L.entries, ∀ bits, bits.head? = segment.head? → e'.1 = Step.spelled outer ++ bits →
        e' = e := by
  induction L generalizing side e sibling with
  | leaf index segment value =>
    obtain rfl := List.mem_singleton.1 he
    refine ⟨[], segment, sibling, rfl, rfl, ?_, fun e' he' _ _ _ => List.mem_singleton.1 he'⟩
    rintro rfl
    cases hf
  | node index segment children ih =>
    obtain ⟨s, e₀, he₀, rfl⟩ := mem_entries_node.1 he
    obtain ⟨outer, inner, sibling', hdescend, hkey, hne, honly⟩ :=
      ih s (hf.2 s) he₀ (some ((children (!s)).branch algorithm).commitment)
    have hhead := (hf.2 s).head_key he₀
    obtain ⟨rest, hrest⟩ := List.head?_eq_some_iff.1 hhead
    refine ⟨⟨.ofBits segment, sibling, none⟩ :: outer, inner, sibling', ?_, ?_, hne, ?_⟩
    · rw [Entry.under_key, hrest, descend_beyond, ← hrest, hdescend]
      rfl
    · rw [Entry.under_key, Step.spelled_cons, Path.bits_ofBits, List.append_assoc, ← hkey]
    · intro e' he' bits hbits hkey'
      obtain ⟨t, e₁, he₁, rfl⟩ := mem_entries_node.1 he'
      rw [Entry.under_key, Step.spelled_cons, Path.bits_ofBits, List.append_assoc] at hkey'
      have hkey₁ := List.append_cancel_left hkey'
      -- Both keys begin with the same bit, so both leaves are under the same child.
      obtain rfl : t = s := by
        have hhead₁ := (hf.2 t).head_key he₁
        rw [hkey₁, head?_append_congr hbits, ← hkey, hhead] at hhead₁
        exact (Option.some.inj hhead₁).symm
      rw [honly e₁ he₁ bits hbits hkey₁]

/-- The proof made for the key of a leaf ends in that leaf. No other leaf of the forest has a key
that goes on from the outer steps to the same side. -/
theorem Forest.Formed.prove_of_mem {r : Forest f} (hf : r.Formed) (algorithm : Algorithm)
    {e : Entry f} (he : e ∈ r.entries) :
    ∃ outer segment sibling, ((r.root algorithm).prove (.ofBits e.1)).steps =
        ⟨.ofBits segment, sibling, some (.leaf e.2)⟩ :: outer ∧ segment ≠ [] ∧
      ∀ e' ∈ r.entries, ∀ bits, bits.head? = segment.head? →
        e'.1 = Step.spelled outer.reverse ++ bits → bits = segment := by
  obtain ⟨s, L, hL, heL⟩ := mem_entries.1 he
  have hhead := (hf s L hL).head_key heL
  have hside : (Path.ofBits e.1).isRight = s := by
    obtain ⟨rest, hrest⟩ := List.head?_eq_some_iff.1 hhead
    rw [hrest, Path.isRight_cons]
  obtain rfl := hside
  obtain ⟨inward, segment, sibling, hdescend, hkey, hne, honly⟩ :=
    L.descend_of_mem (hf _ L hL) algorithm heL
      (((r.root algorithm).child (!(Path.ofBits e.1).isRight)).map Branch.commitment)
  refine ⟨inward.reverse, segment, sibling, ?_, hne, ?_⟩
  · rw [Root.prove, descend_of_some hL, hdescend, List.reverse_concat]
  · intro e' he' bits hbits hkey'
    rw [List.reverse_reverse] at hkey'
    obtain ⟨t, M, hM, heM⟩ := mem_entries.1 he'
    have hside : t = (Path.ofBits e.1).isRight := by
      have hhead' := (hf t M hM).head_key heM
      rw [hkey', head?_append_congr hbits, ← hkey, hhead] at hhead'
      exact (Option.some.inj hhead').symm
    rw [hside] at hM
    obtain rfl := Option.some.inj (hM.symm.trans hL)
    rw [honly e' heM bits hbits hkey', hkey] at hkey'
    exact (List.append_cancel_left hkey').symm

/-! ## The recut proof -/

/-- The first step of the proof made for a leaf may be recut, if that keeps its side. The proof is
then successful for a key that no leaf of the forest has. -/
theorem Forest.Formed.verify_recut {r : Forest .plain} (hf : r.Formed) (algorithm : Algorithm)
    {bits : List Bool} {b : UInt8} {rest : Bytes}
    (he : ((bits, b :: rest) : Entry .plain) ∈ r.entries) {step : Step .plain}
    {outer : List (Step .plain)}
    (hsteps : ((r.root algorithm).prove (.ofBits bits)).steps = step :: outer)
    (hside : step.path.isRight = b.toNat.testBit 0) :
    let p : Proof .plain := ⟨(r.root algorithm).commitment, step.recut b rest :: outer⟩
    (p.verify p.key).successful = true ∧ ∀ value, (p.key, value) ∉ r.entries.map Entry.leaf := by
  intro p
  have hvalid := hf.prove_valid algorithm (.ofBits bits) .root
  obtain ⟨outer', segment, sibling, hmade, hne, honly⟩ := hf.prove_of_mem algorithm he
  obtain ⟨rfl, rfl⟩ := List.cons.inj (hsteps.symm.trans hmade)
  have hzero : Path.ofBits segment ≠ .zero := Path.ofBits_ne_zero segment
  obtain ⟨hwf, hsuccessful⟩ := Proof.successful_of_first hvalid hsteps (Path.push_ne hzero b).1 rfl
    (Step.lift_recut hzero sibling hside rest)
  refine ⟨hsuccessful, ?_⟩
  intro value hmem
  obtain ⟨e', he', heq⟩ := List.mem_map.1 hmem
  have hkey : e'.1 = Step.spelled outer.reverse ++ ((Path.ofBits segment).push b).bits := by
    have hp : p.outer =
        outer.reverse ++ [⟨(Path.ofBits segment).push b, sibling, some (.leaf rest)⟩] :=
      List.reverse_cons
    have hofBits : Path.ofBits e'.1 = .ofBits (Step.spelled p.outer) :=
      (congrArg Prod.fst heq).trans (Proof.key_eq hwf.ne_zero)
    rw [Path.ofBits_inj.1 hofBits, hp, Step.spelled, List.flatMap_append, List.flatMap_singleton]
    rfl
  have hhead : ((Path.ofBits segment).push b).bits.head? = segment.head? := by
    obtain ⟨s, tail, rfl⟩ := List.exists_cons_of_ne_nil hne
    rw [Path.head?_bits_push hzero, Path.isRight_push, ← hside, Path.isRight_cons, List.head?_cons]
  apply (Path.push_ne hzero b).2
  rw [← Path.ofBits_bits (Path.push_ne hzero b).1, honly e' he' _ hhead hkey]

namespace Builder

/-- After any run of a plain builder, the proof that the root makes for an accepted leaf may be
recut, if that keeps its side, and is then successful for a key that was never accepted. -/
theorem successful_of_recut (algorithm : Algorithm) (operations : List (Operation .plain)) :
    let start : Builder .plain := { algorithm }
    ∃ c, (start.run operations).calculateRoot = .ok c ∧
      ∀ (key : Path) (b : UInt8) (rest : Bytes), (key, b :: rest) ∈ start.accepted operations →
        ∀ step outer, (c.root.prove key).steps = step :: outer →
          step.path.isRight = b.toNat.testBit 0 →
            let p : Proof .plain := ⟨c.root.commitment, step.recut b rest :: outer⟩
            (p.verify p.key).successful = true ∧
              ∀ value, (p.key, value) ∉ start.accepted operations := by
  intro start
  obtain ⟨r, c, hc, hroot, hf, hp⟩ := calculateRoot_run algorithm operations
  refine ⟨c, hc, ?_⟩
  rw [hroot]
  intro key b rest hmem step outer hsteps hside p
  obtain ⟨⟨bits, value⟩, he, heq⟩ := List.mem_map.1 (hp.mem_iff.2 hmem)
  obtain ⟨rfl, rfl⟩ := Prod.mk.inj heq
  obtain ⟨hsuccessful, hnone⟩ := hf.verify_recut algorithm he hsteps hside
  exact ⟨hsuccessful, fun value hvalue => hnone value (hp.mem_iff.2 hvalue)⟩

end Builder

end MerkleTrie
