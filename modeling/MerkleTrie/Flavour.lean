-- SUMMARY: The two flavours of a trie: what a leaf holds, what a branch adds up, what is hashed, and its binary form.
import MerkleTrie.Rlp.Codec

/-! # Flavours

A plain trie stores bytes. A sum trie stores bytes and a counter, and every
branch of it carries the sum of the counters below. The flavour decides the type
of a leaf's value, the type of a branch's aggregate, and the byte strings that
are hashed for leaves and for pairs of children. -/

namespace MerkleTrie

inductive Flavour where
  | plain
  | sum
  deriving DecidableEq, Repr

/-- What a leaf of a sum trie holds. -/
structure CountedValue where
  value : Bytes
  /-- What the leaf adds to the sums above it, for example an amount of tokens. -/
  counter : Nat
  deriving DecidableEq, Repr

namespace Flavour

def Value : Flavour → Type
  | .plain => Bytes
  | .sum => CountedValue

/-- What a branch adds up over its leaves. -/
def Aggregate : Flavour → Type
  | .plain => Unit
  | .sum => Nat

instance : (f : Flavour) → DecidableEq f.Value
  | .plain => inferInstanceAs (DecidableEq Bytes)
  | .sum => inferInstanceAs (DecidableEq CountedValue)

instance : (f : Flavour) → DecidableEq f.Aggregate
  | .plain => inferInstanceAs (DecidableEq Unit)
  | .sum => inferInstanceAs (DecidableEq Nat)

/-! ## Aggregates -/

/-- The aggregate of no leaves. -/
def zero : (f : Flavour) → f.Aggregate
  | .plain => ()
  | .sum => (0 : Nat)

/-- The aggregate of two branches together. -/
def combine : {f : Flavour} → f.Aggregate → f.Aggregate → f.Aggregate
  | .plain, _, _ => ()
  | .sum, a, b => Nat.add a b

/-- The aggregate of a single leaf. -/
def Value.aggregate : {f : Flavour} → f.Value → f.Aggregate
  | .plain, _ => ()
  | .sum, (v : CountedValue) => v.counter

/-! ## Hashed byte strings -/

/-- What is hashed for an absent child, in place of a digest. -/
def emptyBranch : Bytes := [0]

/-- What is hashed for a leaf: the bytes of the path and the value, or a list with the path, the
value and the counter. -/
def leafPreimage : {f : Flavour} → Path → f.Value → Bytes
  | .plain, path, (v : Bytes) => path.toBytes ++ v
  | .sum, path, (v : CountedValue) =>
    Rlp.encodeList (Rlp.encode path ++ Rlp.encodeString v.value ++ Rlp.encodeNat v.counter)

/-- What is hashed for a pair of children, each given by its digest and its aggregate: the two
digests, or a list in which each digest is followed by its counter. -/
def childrenPreimage : {f : Flavour} → Bytes × f.Aggregate → Bytes × f.Aggregate → Bytes
  | .plain, left, right => left.1 ++ right.1
  | .sum, left, right =>
    Rlp.encodeList (Rlp.encodeString left.1 ++ Rlp.encodeNat left.2
      ++ Rlp.encodeString right.1 ++ Rlp.encodeNat right.2)

end Flavour

/-! ## Binary forms -/

namespace CountedValue

/-- The number of bytes that the value and the counter are written in. -/
def partsLength (v : CountedValue) : Nat := Rlp.stringLength v.value + Rlp.natLength v.counter

/-- The binary form of a counted value: a list with the value and the counter. -/
def encode (v : CountedValue) : Bytes :=
  Rlp.encodeAnnounced v.partsLength (Rlp.encodeString v.value ++ Rlp.encodeNat v.counter)

/-- The number of bytes that a counted value is written in. -/
def encodedLength (v : CountedValue) : Nat := Rlp.listLength v.partsLength

def decode : Rlp.Decoder CountedValue :=
  Rlp.Decoder.list do
    let value ← Rlp.Decoder.string
    let counter ← Rlp.Decoder.nat
    return { value, counter }

end CountedValue

namespace Flavour

/-- The binary form of a value: a string, or the list of a counted value. -/
instance : (f : Flavour) → Rlp.Codec f.Value
  | .plain =>
    { encode := Rlp.encodeString
      encodedLength := Rlp.stringLength
      decode := Rlp.Decoder.string }
  | .sum =>
    { encode := CountedValue.encode
      encodedLength := CountedValue.encodedLength
      decode := CountedValue.decode }

/-- The binary form of an aggregate: nothing at all, or the counter. -/
instance : (f : Flavour) → Rlp.Codec f.Aggregate
  | .plain =>
    { encode := fun _ => []
      encodedLength := fun _ => 0
      decode := return () }
  | .sum =>
    { encode := Rlp.encodeNat
      encodedLength := Rlp.natLength
      decode := Rlp.Decoder.nat }

end Flavour

end MerkleTrie
