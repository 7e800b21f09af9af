-- SUMMARY: A reader of decimal text that takes one leading plus, and underscores behind the first digit.
import MerkleTrie.Numeral.Digits

/-! # Decimal text

A number is written with its decimal digits, the highest first
(`Numeral.text 10`). The reader also takes one plus sign in front and
underscores anywhere behind the first digit. -/

namespace MerkleTrie.Numeral

/-- Drop one plus sign from the front, unless another follows it. -/
def dropPlus : List Char → List Char
  | '+' :: '+' :: rest => '+' :: '+' :: rest
  | '+' :: rest => rest
  | cs => cs

def readDecimalChars (text : List Char) : Option Nat :=
  match dropPlus text with
  | [] => none
  | '_' :: _ => none
  | cs => ((cs.filter (· != '_')).mapM decimalValue?).map fun ds => ofDigits 10 ds.reverse

/-- Read a decimal number. -/
def readDecimal (text : String) : Option Nat := readDecimalChars text.toList

end MerkleTrie.Numeral
