-- SUMMARY: Decoders that read from the front of a byte string, and the class of types with a binary form.
import MerkleTrie.Path.Basic
import MerkleTrie.Hash.Digest
import MerkleTrie.Rlp.Item

/-! # Codecs

`Codec α` is the binary form of `α`: how it is written, how long that is, and
how it is read from the front of a byte string. Here are the decoders for
strings, numbers and lists that the others are made of, and the codecs of paths
and digests. -/

namespace MerkleTrie.Rlp

/-- A decoder reads a value from the front of a byte string and leaves the rest. -/
abbrev Decoder (α : Type) := StateT Bytes (Except Error) α

/-- The binary form of a type. -/
class Codec (α : Type) where
  encode : α → Bytes
  /-- The number of bytes that a value is written in. -/
  encodedLength : α → Nat
  decode : Decoder α

export Codec (encode encodedLength decode)

/-! ## Decoders -/

namespace Decoder

def string : Decoder Bytes := fun bytes => do
  let item ← Item.split bytes
  match item.kind with
  | .string => return (item.payload, item.rest)
  | .list => throw .unexpectedList

def payload : Decoder Bytes := fun bytes => do
  let item ← Item.split bytes
  match item.kind with
  | .list => return (item.payload, item.rest)
  | .string => throw .unexpectedString

/-- Run a decoder on a byte string that it must use up. -/
def all {α : Type} (d : Decoder α) (bytes : Bytes) : Except Error α := do
  let (value, rest) ← d bytes
  if rest.isEmpty then return value else throw .unexpectedLength

/-- Read a list whose items the decoder must use up. -/
def list {α : Type} (d : Decoder α) : Decoder α := do
  let bytes ← payload
  d.all bytes

/-- Read a list that is empty or has items for the decoder, which it must use up. -/
def option {α : Type} (d : Decoder α) : Decoder (Option α) := do
  let bytes ← payload
  if bytes.isEmpty then return none else return some (← d.all bytes)

/-- Read values one after the other until nothing is left, `fuel` of them at most. -/
def repeated {α : Type} (d : Decoder α) : Nat → Bytes → Except Error (List α)
  | _, [] => .ok []
  | 0, _ :: _ => .error .inputTooShort
  | fuel + 1, b :: bytes => do
    let (value, rest) ← d (b :: bytes)
    return value :: (← repeated d fuel rest)

/-- Read a list of any number of values. Each takes a byte at least, so there are no more of
them than bytes. -/
def many {α : Type} (d : Decoder α) : Decoder (List α) := do
  let bytes ← payload
  repeated d bytes.length bytes

/-- Read a number of any size, in its shortest bytes. -/
def nat : Decoder Nat := do
  let bytes ← string
  if bytes.head? = some 0 then throw .leadingZero else return bytes.toNat

/-- Read a number below 256. -/
def byte : Decoder UInt8 := do
  match ← string with
  | [] => return 0
  | [b] => if b = 0 then throw .leadingZero else return b
  | _ => throw .overflow

end Decoder

/-! ## Encoders -/

/-- A number of any size, in its shortest bytes; zero is the empty string. -/
def encodeNat (n : Nat) : Bytes := encodeString (Bytes.ofNat n)

def natLength (n : Nat) : Nat := stringLength (Bytes.ofNat n)

/-- A list with the header of the length that was announced for its payload. The length is
counted before the payload is written, so it is as right as the count. -/
def encodeAnnounced (length : Nat) (payload : Bytes) : Bytes := header .list length ++ payload

/-- A list with one value in it, or the empty list. -/
def encodeOption {α : Type} (length : α → Nat) (encode : α → Bytes) : Option α → Bytes
  | none => encodeList []
  | some value => encodeAnnounced (length value) (encode value)

/-- The number of bytes that an optional value is written in. -/
def optionLength {α : Type} (length : α → Nat) : Option α → Nat
  | none => 1
  | some value => listLength (length value)

/-! ## Paths and digests -/

instance : Codec Path where
  encode p := encodeNat p.code
  encodedLength p := natLength p.code
  decode := return ⟨← Decoder.nat⟩

def Decoder.digest : Decoder Digest := do
  match Digest.ofImprint (← string) with
  | .ok digest => return digest
  | .error cause => throw (.refused cause)

instance : Codec Digest where
  encode d := header .string (2 + d.algorithm.digestLength) ++ d.imprint
  encodedLength d := headerLength (2 + d.algorithm.digestLength) + (2 + d.algorithm.digestLength)
  decode := Decoder.digest

end MerkleTrie.Rlp
