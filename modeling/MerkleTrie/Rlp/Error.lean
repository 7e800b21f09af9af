-- SUMMARY: The reasons for which a byte string is not the encoding that was asked for, with their texts.
import MerkleTrie.Error

/-! # Decoding errors -/

namespace MerkleTrie.Rlp

/-- Why a byte string could not be decoded. -/
inductive Error where
  | overflow
  | leadingZero
  | inputTooShort
  | nonCanonicalSingleByte
  | nonCanonicalSize
  | unexpectedLength
  | unexpectedString
  | unexpectedList
  | unknownTerminal
  | refused (cause : TrieError)
  deriving DecidableEq, Repr

/-- What an error of the trie is called where a codec reports it. -/
def refusal : TrieError → String
  | .branchExists _ => "branch already exists"
  | .leafOutOfBounds _ => "leaf out of bounds"
  | .invalidPath _ => "invalid trie path"
  | .unsupportedAlgorithm _ => "unsupported hash algorithm"
  | .invalidImprint fault => fault.message
  | .brokenLink _ => "broken link"

def Error.message : Error → String
  | .overflow => "overflow"
  | .leadingZero => "leading zero"
  | .inputTooShort => "input too short"
  | .nonCanonicalSingleByte => "non-canonical single byte"
  | .nonCanonicalSize => "non-canonical size"
  | .unexpectedLength => "unexpected length"
  | .unexpectedString => "unexpected string"
  | .unexpectedList => "unexpected list"
  | .unknownTerminal => "unknown path step branch"
  | .refused cause => refusal cause

end MerkleTrie.Rlp
