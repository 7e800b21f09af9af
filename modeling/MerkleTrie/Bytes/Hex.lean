-- SUMMARY: Byte strings in hexadecimal text: writing in lower case, reading in either case with an optional `0x`.
import MerkleTrie.Bytes.Basic

/-! # Hexadecimal text

A byte string is written with two lower case digits a byte. The reader takes
both cases and one `0x` or `0X` in front, and says what is wrong with a text
that it refuses. -/

namespace MerkleTrie.Hex

/-- Why a text is not hexadecimal. -/
inductive Error where
  | oddLength
  /-- The first byte that is no digit, and where it stands behind the `0x`. -/
  | invalidCharacter (byte : UInt8) (position : Nat)
  deriving DecidableEq, Repr

/-! ## Writing -/

def encodeChars (bytes : Bytes) : List Char :=
  bytes.flatMap fun b => [Numeral.digitChar (b.toNat / 16), Numeral.digitChar (b.toNat % 16)]

/-- A byte string in lower case digits. -/
def encode (bytes : Bytes) : String := String.ofList (encodeChars bytes)

/-- A byte string in lower case digits behind `0x`. -/
def encodeMarked (bytes : Bytes) : String := String.ofList ('0' :: 'x' :: encodeChars bytes)

/-! ## Reading -/

/-- Drop one `0x` or `0X` from the front. -/
def dropMark : List Char → List Char
  | '0' :: 'x' :: rest => rest
  | '0' :: 'X' :: rest => rest
  | cs => cs

/-- Join the digits two by two into bytes. -/
def joinDigits : List Nat → Bytes
  | high :: low :: rest => UInt8.ofNat (16 * high + low) :: joinDigits rest
  | _ => []

/-- Read the digits from the given position on, stopping at the first character that is none. -/
def readDigits (position : Nat) : List Char → Except Error (List Nat)
  | [] => .ok []
  | c :: rest =>
    match Numeral.hexValue? c with
    | some d => (readDigits (position + 1) rest).map (d :: ·)
    | none => .error (.invalidCharacter ((String.utf8EncodeChar c).headD 0) position)

/-- Read a text, counting its length in bytes of UTF-8 before looking at its characters. -/
def decode (text : String) : Except Error Bytes :=
  if text.utf8ByteSize % 2 = 1 then .error .oddLength
  else (readDigits 0 (dropMark text.toList)).map joinDigits

/-! ## Messages -/

/-- Whether a byte, taken as a character, is shown by its number: controls, the blank that
does not break and the soft hyphen. -/
def isHidden (byte : UInt8) : Bool :=
  byte < 0x20 || (0x7f ≤ byte && byte ≤ 0xa0) || byte == 0xad

/-- A byte as the character of the same number between single quotes. -/
def quoted (byte : UInt8) : String :=
  let inner :=
    if byte = 0 then "\\0"
    else if byte = 0x09 then "\\t"
    else if byte = 0x0a then "\\n"
    else if byte = 0x0d then "\\r"
    else if byte = 0x27 then "\\'"
    else if byte = 0x5c then "\\\\"
    else if isHidden byte then
      "\\u\x7b" ++ Numeral.text 16 byte.toNat ++ "\x7d"
    else String.singleton (Char.ofNat byte.toNat)
  "'" ++ inner ++ "'"

def Error.message : Error → String
  | .oddLength => "odd number of digits"
  | .invalidCharacter byte position =>
    "invalid character " ++ quoted byte ++ " at position " ++ Numeral.text 10 position

end MerkleTrie.Hex
