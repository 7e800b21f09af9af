-- SUMMARY: What happens in the course of an operation, and the record in which each event is logged.
import MerkleTrie.Path.CommonPrefix
import MerkleTrie.Proof.Basic

/-! # Events

An event is something that happens while a leaf is added, a root calculated, a
proof made or a proof checked. `Event.record` is its form in a log: a level, the
part of the library it comes from, a message and named fields. -/

namespace MerkleTrie

/-- Something that happens in the course of an operation. -/
inductive Event where
  | slotFound (path : Path) (isRight : Bool)
  | branchExists (path : Path)
  | leafOutOfBounds (path leafPath : Path)
  | descending (nodePath : Path) (isRight : Bool)
  | splitting (path : Path) (common : CommonPrefix)
  | branchHashed (path : Path) (hash : Digest)
  | rootCalculated (leaves branches rehashed : Nat) (root : Digest)
  | endsInEmptySlot (remaining : Path)
  | endsInLeaf (path : Path)
  | endsInNode (path : Path)
  | passesNode (path : Path)
  | proofBuilt (query : Path) (steps : Nat)
  | noSteps
  | zeroStep
  | stepFolded (path : Path) (hash : Digest)
  | proofVerified (query : Path) (verdict : Verdict)
  deriving DecidableEq

namespace Event

/-- How much an event matters. -/
inductive Level where
  /-- The detail of a single step. -/
  | trace
  /-- The outcome of an operation. -/
  | debug
  deriving DecidableEq, Repr

def Level.name : Level → String
  | .trace => "TRACE"
  | .debug => "DEBUG"

/-- The part of the library that an event comes from. -/
inductive Target where
  | tree
  | root
  | proof
  deriving DecidableEq, Repr

def Target.name : Target → String
  | .tree => "smt::tree"
  | .root => "smt::root"
  | .proof => "smt::proof"

inductive Field where
  | text (value : String)
  | count (value : Nat)
  | flag (value : Bool)
  deriving DecidableEq, Repr

/-- An event as it is logged. -/
structure Record where
  level : Level
  target : Target
  message : String
  fields : List (String × Field)
  deriving DecidableEq, Repr

def ofPath (p : Path) : Field := .text p.toDecimal

def ofDigest (d : Digest) : Field := .text d.inspect

/-- The record of an event. -/
def record : Event → Record
  | slotFound path isRight =>
    ⟨.trace, .tree, "adding leaf to empty root slot",
      [("path", ofPath path), ("is_right", .flag isRight)]⟩
  | branchExists path =>
    ⟨.debug, .tree, "rejected leaf: branch exists", [("path", ofPath path)]⟩
  | leafOutOfBounds path leafPath =>
    ⟨.debug, .tree, "rejected leaf: out of bounds",
      [("path", ofPath path), ("leaf_path", ofPath leafPath)]⟩
  | descending nodePath isRight =>
    ⟨.trace, .tree, "descending into node",
      [("node_path", ofPath nodePath), ("is_right", .flag isRight)]⟩
  | splitting path common =>
    ⟨.trace, .tree, "splitting branch",
      [("path", ofPath path), ("common", ofPath common.path), ("length", .count common.length)]⟩
  | branchHashed path hash =>
    ⟨.trace, .tree, "hashed branch", [("path", ofPath path), ("hash", ofDigest hash)]⟩
  | rootCalculated leaves branches rehashed root =>
    ⟨.debug, .tree, "calculated root",
      [("leaves", .count leaves), ("branches", .count branches), ("rehashed", .count rehashed),
        ("root", ofDigest root)]⟩
  | endsInEmptySlot remaining =>
    ⟨.trace, .root, "query ends in empty slot", [("remaining", ofPath remaining)]⟩
  | endsInLeaf path => ⟨.trace, .root, "query ends in leaf", [("path", ofPath path)]⟩
  | endsInNode path => ⟨.trace, .root, "query ends in node", [("path", ofPath path)]⟩
  | passesNode path => ⟨.trace, .root, "query passes node", [("path", ofPath path)]⟩
  | proofBuilt query steps =>
    ⟨.debug, .root, "built proof", [("path", ofPath query), ("steps", .count steps)]⟩
  | noSteps => ⟨.debug, .proof, "rejecting path without steps", []⟩
  | zeroStep => ⟨.debug, .proof, "rejecting path with a zero step path", []⟩
  | stepFolded path hash =>
    ⟨.trace, .proof, "folded step", [("path", ofPath path), ("hash", ofDigest hash)]⟩
  | proofVerified query verdict =>
    ⟨.debug, .proof, "verified path",
      [("query", ofPath query), ("path_valid", .flag verdict.valid),
        ("path_included", .flag verdict.included)]⟩

end Event

end MerkleTrie
