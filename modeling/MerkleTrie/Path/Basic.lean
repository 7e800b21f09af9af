-- SUMMARY: Paths of any length, written as a number whose highest bit is a sentinel, and the key bits they carry.
import MerkleTrie.Bytes.Basic

/-! # Paths

A path is a number whose highest set bit is a sentinel. The bits below it are
the key bits, and descent reads them from the low end. The sentinel keeps the
zero bits at the end of the key apart. The number one is the root path, with no
key bits; the number zero has not even the sentinel. -/

namespace MerkleTrie

/-- A path: a sentinel bit above the key bits, of which the lowest comes first. -/
structure Path where
  /-- The number that holds the sentinel and the key bits. -/
  code : Nat
  deriving DecidableEq, Repr

namespace Path

/-- The path without a sentinel. -/
def zero : Path := ⟨0⟩

/-- The path with a sentinel and no key bits. -/
def root : Path := ⟨1⟩

/-! ## Key bits -/

/-- The path with the given key bits, the first bit of the descent first. -/
def ofBits : List Bool → Path
  | [] => root
  | b :: bs => ⟨2 * (ofBits bs).code + b.toNat⟩

/-- The key bits below the sentinel of a number. -/
def bitsOf (code : Nat) : List Bool :=
  if 1 < code then code.testBit 0 :: bitsOf (code / 2) else []
termination_by code
decreasing_by omega

/-- The key bits of a path, the first bit of the descent first. -/
def bits (p : Path) : List Bool := bitsOf p.code

/-! ## Bytes -/

/-- The path that a byte string stands for, the highest byte first. -/
def ofBytes (bytes : Bytes) : Path := ⟨bytes.toNat⟩

/-- The shortest bytes of a path, with one zero byte for the path without a sentinel. This is
the form that is hashed. -/
def toBytes (p : Path) : Bytes :=
  if p.code = 0 then [0] else Bytes.ofNat p.code

/-! ## Shape -/

/-- The number of bits of the code, the sentinel included. -/
def bitLength (p : Path) : Nat := if p.code = 0 then 0 else p.code.log2 + 1

def length (p : Path) : Nat := p.code.log2

def isRoot (p : Path) : Bool := p.code == 1

/-- Whether the path has no sentinel. -/
def isZero (p : Path) : Bool := p.code == 0

/-- Whether the path has no key bits. -/
def isEmpty (p : Path) : Bool := p.length == 0

/-- Whether the next step of the descent goes right. -/
def isRight (p : Path) : Bool := p.code.testBit 0

/-- Paths are ordered by their codes. -/
instance : Ord Path := ⟨fun p q => compare p.code q.code⟩

/-! ## Cutting and joining -/

/-- Drop the first `n` key bits, and the sentinel too if there are fewer. -/
def skip (p : Path) (n : Nat) : Path := ⟨p.code >>> n⟩

/-- The key bits of `p` followed by those of `q`. -/
def append (p q : Path) : Path := ⟨q.code <<< p.length + p.code % 1 <<< p.length⟩

/-- The key bits of `p` followed by those of `q`, if `p` has a sentinel to put them under. -/
def withSuffix? (p q : Path) : Option Path :=
  if p.isZero then none else some (p.append q)

/-! ## Text -/

def toDecimal (p : Path) : String := Numeral.text 10 p.code

/-- A path in binary, as it stands in diagnostics. -/
def inspect (p : Path) : String := "TriePath(0b" ++ Numeral.text 2 p.code ++ ")"

end Path

end MerkleTrie
