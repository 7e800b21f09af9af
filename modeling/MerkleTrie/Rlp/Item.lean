-- SUMMARY: Items of the recursive length prefix format: headers, and splitting the first item off a byte string.
import MerkleTrie.Bytes.Basic
import MerkleTrie.Rlp.Error

/-! # Items

The format knows two kinds of item, strings of bytes and lists of items. A
header says the kind and the length of what follows; a string of one byte below
`0x80` is that byte and has no header. Every item has one encoding only, and
`Item.split` takes no other. -/

namespace MerkleTrie.Rlp

inductive Kind where
  | string
  | list
  deriving DecidableEq, Repr

/-- What is added to a length below 56 to make the header of an item. -/
def Kind.base : Kind → Nat
  | .string => 0x80
  | .list => 0xc0

/-! ## Writing -/

/-- The header of an item: one byte up to a length of 55, else a byte and the length. -/
def header (kind : Kind) (length : Nat) : Bytes :=
  if length < 56 then [UInt8.ofNat (kind.base + length)]
  else
    let digits := Bytes.ofNat length
    UInt8.ofNat (kind.base + 55 + digits.length) :: digits

def headerLength (length : Nat) : Nat :=
  if length < 56 then 1 else 1 + (Bytes.ofNat length).length

def encodeString : Bytes → Bytes
  | [b] => if b < 0x80 then [b] else header .string 1 ++ [b]
  | bytes => header .string bytes.length ++ bytes

/-- The number of bytes that a string is written in. -/
def stringLength : Bytes → Nat
  | [b] => if b < 0x80 then 1 else headerLength 1 + 1
  | bytes => headerLength bytes.length + bytes.length

/-- A list, from the encodings of its items one after the other. -/
def encodeList (payload : Bytes) : Bytes := header .list payload.length ++ payload

/-- The number of bytes that a list is written in, from the length of its payload. -/
def listLength (payload : Nat) : Nat := headerLength payload + payload

/-! ## Reading -/

/-- An item at the front of a byte string. -/
structure Item where
  kind : Kind
  /-- What the header announced. -/
  payload : Bytes
  /-- What comes after the item. -/
  rest : Bytes
  deriving DecidableEq

namespace Item

/-- Cut a payload of the announced length from the front. -/
def cut (kind : Kind) (length : Nat) (bytes : Bytes) : Except Error Item :=
  if bytes.length < length then .error .inputTooShort
  else .ok ⟨kind, bytes.take length, bytes.drop length⟩

/-- Cut a payload whose own length stands in the next `digits` bytes. -/
def cutLong (kind : Kind) (digits : Nat) (bytes : Bytes) : Except Error Item :=
  if bytes.length < digits then .error .inputTooShort
  else
    let length := Bytes.toNat (bytes.take digits)
    if bytes.head? = some 0 then .error .leadingZero
    else if length < 56 then .error .nonCanonicalSize
    else cut kind length (bytes.drop digits)

/-- Cut a string of one byte that has a header, which the byte must need. -/
def cutByte : Bytes → Except Error Item
  | [] => .error .inputTooShort
  | b :: rest => if b < 0x80 then .error .nonCanonicalSingleByte else .ok ⟨.string, [b], rest⟩

/-- Split the first item off a byte string. -/
def split : Bytes → Except Error Item
  | [] => .error .inputTooShort
  | b :: rest =>
    if b < 0x80 then .ok ⟨.string, [b], rest⟩
    else if b = 0x81 then cutByte rest
    else if b < 0xb8 then cut .string (b.toNat - 0x80) rest
    else if b < 0xc0 then cutLong .string (b.toNat - 0xb7) rest
    else if b < 0xf8 then cut .list (b.toNat - 0xc0) rest
    else cutLong .list (b.toNat - 0xf7) rest

end Item

end MerkleTrie.Rlp
