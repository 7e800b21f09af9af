-- SUMMARY: The longest common prefix of two paths, as a path and a number of key bits.
import MerkleTrie.Path.Basic

/-! # Common prefixes

The common prefix of two paths holds the key bits in which both agree from the
first one on, under a sentinel of its own. -/

namespace MerkleTrie

/-- A common prefix: the shared key bits and how many there are. -/
structure CommonPrefix where
  /-- The shared key bits under a new sentinel. -/
  path : Path
  length : Nat
  deriving DecidableEq, Repr

namespace CommonPrefix

/-- The number of key bits, from the lowest up, in which two codes agree. -/
def sharedBits (a b : Nat) : Nat :=
  if 1 < a ∧ 1 < b ∧ a % 2 = b % 2 then sharedBits (a / 2) (b / 2) + 1 else 0
termination_by a
decreasing_by omega

/-- The longest common prefix of two paths. -/
def of (a b : Path) : CommonPrefix :=
  let length := sharedBits a.code b.code
  { path := ⟨1 <<< length + a.code % 1 <<< length⟩, length := length }

def inspect (c : CommonPrefix) : String :=
  "CommonPath \x7b path: " ++ c.path.inspect ++ ", length: " ++ Numeral.text 10 c.length ++ " \x7d"

end CommonPrefix

end MerkleTrie
