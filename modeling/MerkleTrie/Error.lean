-- SUMMARY: The reasons for which a trie, a digest or an algorithm number is refused, with their texts.
import MerkleTrie.Path.Basic

/-! # Errors

Every refusal has a cause of its own. `TrieError.message` is its text for
people, `TrieError.inspect` its form in diagnostics. -/

namespace MerkleTrie

/-- Why a byte string is no digest of the algorithm it names. -/
inductive ImprintFault where
  /-- There is no room for the number of an algorithm. -/
  | tooShort
  /-- The digest is longer or shorter than those of its algorithm. -/
  | wrongLength
  deriving DecidableEq, Repr

def ImprintFault.message : ImprintFault → String
  | .tooShort => "imprint too short"
  | .wrongLength => "digest length does not match hash algorithm"

/-- Why an operation on a trie was refused. -/
inductive TrieError where
  /-- The new path is that of a leaf in the trie, or lies on the way to one. -/
  | branchExists (path : Path)
  /-- The new path runs through a leaf in the trie. -/
  | leafOutOfBounds (path : Path)
  /-- The new path has no key bits. -/
  | invalidPath (path : Path)
  | unsupportedAlgorithm (id : Nat)
  | invalidImprint (fault : ImprintFault)
  /-- A link of the builder leads to no slot, or round in a circle. No builder that grew from an
  empty one has such a link. -/
  | brokenLink (index : Nat)
  deriving DecidableEq, Repr

namespace TrieError

def message : TrieError → String
  | .branchExists path => "branch already exists at path " ++ path.toDecimal
  | .leafOutOfBounds path => "leaf path " ++ path.toDecimal ++ " passes through an existing leaf"
  | .invalidPath path =>
    "invalid leaf path " ++ path.toDecimal ++ ": expected at least one key bit after the sentinel"
  | .unsupportedAlgorithm id => "unsupported hash algorithm " ++ Numeral.text 10 id
  | .invalidImprint fault => "invalid hash imprint: " ++ fault.message
  | .brokenLink index => "broken link to slot " ++ Numeral.text 10 index

/-- The form of an error in diagnostics. -/
def inspect : TrieError → String
  | .branchExists path => "BranchExists \x7b path: " ++ path.inspect ++ " \x7d"
  | .leafOutOfBounds path => "LeafOutOfBounds \x7b path: " ++ path.inspect ++ " \x7d"
  | .invalidPath path => "InvalidPath(" ++ path.inspect ++ ")"
  | .unsupportedAlgorithm id => "UnsupportedHashAlgorithm(" ++ Numeral.text 10 id ++ ")"
  | .invalidImprint fault => "InvalidImprint(\"" ++ fault.message ++ "\")"
  | .brokenLink index => "BrokenLink(" ++ Numeral.text 10 index ++ ")"

end TrieError

end MerkleTrie
