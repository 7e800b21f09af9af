-- SUMMARY: The binary form of proofs and their steps.
import MerkleTrie.Proof.Basic

/-! # Binary form of proofs

A proof is the list of its root hash, its aggregate and the list of its steps. A
step is the list of its path, its sibling and its terminal branch, where one that
is absent is the empty list. A terminal branch begins with a tag: zero for a
leaf and one for a node. -/

namespace MerkleTrie

variable {f : Flavour}

/-! ## Commitments -/

namespace Commitment

/-- The digest and the aggregate, one after the other. -/
def encodeParts (c : Commitment f) : Bytes := Rlp.encode c.hash ++ Rlp.encode c.aggregate

/-- The number of bytes that the digest and the aggregate are written in. -/
def partsLength (c : Commitment f) : Nat :=
  Rlp.encodedLength c.hash + Rlp.encodedLength c.aggregate

def decodeParts : Rlp.Decoder (Commitment f) := do
  let hash ← Rlp.decode
  let aggregate ← Rlp.decode
  return { hash, aggregate }

end Commitment

/-! ## Terminal branches -/

namespace Terminal

def leafTag : UInt8 := 0

def nodeTag : UInt8 := 1

/-- The tag, then what the branch discloses. -/
def encodeParts : Terminal f → Bytes
  | .leaf value => Rlp.encodeNat leafTag.toNat ++ Rlp.encode value
  | .node children => Rlp.encodeNat nodeTag.toNat ++ children.encodeParts

/-- The number of bytes that the tag and what follows are written in. -/
def partsLength : Terminal f → Nat
  | .leaf value => Rlp.natLength leafTag.toNat + Rlp.encodedLength value
  | .node children => Rlp.natLength nodeTag.toNat + children.partsLength

def decodeParts : Rlp.Decoder (Terminal f) := do
  let tag ← Rlp.Decoder.byte
  if tag = leafTag then return .leaf (← Rlp.decode)
  else if tag = nodeTag then return .node (← Commitment.decodeParts)
  else throw .unknownTerminal

end Terminal

/-! ## Steps -/

namespace Step

/-- The number of bytes that the parts of a step are written in. -/
def partsLength (s : Step f) : Nat :=
  Rlp.encodedLength s.path + Rlp.optionLength Commitment.partsLength s.sibling
    + Rlp.optionLength Terminal.partsLength s.terminal

/-- The path, the sibling and the terminal branch, one after the other. -/
def encodeParts (s : Step f) : Bytes :=
  Rlp.encode s.path ++ Rlp.encodeOption Commitment.partsLength Commitment.encodeParts s.sibling
    ++ Rlp.encodeOption Terminal.partsLength Terminal.encodeParts s.terminal

def decodeParts : Rlp.Decoder (Step f) := do
  let path ← Rlp.decode
  let sibling ← Rlp.Decoder.option Commitment.decodeParts
  let terminal ← Rlp.Decoder.option Terminal.decodeParts
  return { path, sibling, terminal }

instance : Rlp.Codec (Step f) where
  encode s := Rlp.encodeAnnounced s.partsLength s.encodeParts
  encodedLength s := Rlp.listLength s.partsLength
  decode := Rlp.Decoder.list decodeParts

end Step

/-! ## Proofs -/

namespace Proof

/-- The number of bytes that the steps are written in. -/
def stepsLength (steps : List (Step f)) : Nat :=
  steps.foldr (fun step n => Rlp.encodedLength step + n) 0

/-- The number of bytes that the parts of a proof are written in. -/
def partsLength (p : Proof f) : Nat :=
  p.root.partsLength + Rlp.listLength (stepsLength p.steps)

/-- The root hash, the aggregate and the list of the steps, one after the other. -/
def encodeParts (p : Proof f) : Bytes :=
  p.root.encodeParts ++ Rlp.encodeAnnounced (stepsLength p.steps) (p.steps.flatMap Rlp.encode)

def decodeParts : Rlp.Decoder (Proof f) := do
  let root ← Commitment.decodeParts
  let steps ← Rlp.Decoder.many Rlp.decode
  return { root, steps }

instance : Rlp.Codec (Proof f) where
  encode p := Rlp.encodeAnnounced p.partsLength p.encodeParts
  encodedLength p := Rlp.listLength p.partsLength
  decode := Rlp.Decoder.list decodeParts

end Proof

end MerkleTrie
