-- SUMMARY: The JSON forms of paths, digests, algorithms, leaf values, verdicts, proofs and their parts.
import MerkleTrie.Json.Basic
import MerkleTrie.Numeral.Decimal
import MerkleTrie.Proof.Basic

/-! # JSON forms

`JsonForm α` is the JSON form of `α`: how it is written and how it is read.

A record is written as an object. It is read from an object or from an array of
all its fields. In an object the fields that are there are read in ascending
order of their names, and only then is a missing one noticed; other fields do
not matter. -/

namespace MerkleTrie

/-- The JSON form of a type. -/
class JsonForm (α : Type) where
  toJson : α → Json
  ofJson : Json.Reader α

export JsonForm (toJson ofJson)

open Json (readField? require readItem readEnd)

/-! ## Paths, digests, algorithms -/

def Path.ofJson : Json.Reader Path
  | .string text =>
    match Numeral.readDecimal text with
    | some code => .ok ⟨code⟩
    | none => .error .notDecimal
  | _ => .error .wrongForm

instance : JsonForm Path where
  toJson p := .string p.toDecimal
  ofJson := Path.ofJson

def Digest.ofJson : Json.Reader Digest
  | .string text =>
    match Hex.decode text with
    | .error cause => .error (.notHex cause)
    | .ok imprint =>
      match Digest.ofImprint imprint with
      | .error cause => .error (.refused cause)
      | .ok digest => .ok digest
  | _ => .error .wrongForm

instance : JsonForm Digest where
  toJson d := .string d.toHex
  ofJson := Digest.ofJson

/-- Read an algorithm from its tag, which may be the name of a lone field that holds null. -/
def Algorithm.ofJson : Json.Reader Algorithm
  | .string tag | .object [(tag, .null)] => require (Algorithm.ofTag? tag)
  | _ => .error .wrongForm

instance : JsonForm Algorithm where
  toJson a := .string a.tag
  ofJson := Algorithm.ofJson

/-! ## Leaf values and aggregates -/

namespace Bytes

/-- Bytes in JSON: hexadecimal behind `0x`. -/
def toJson (bytes : Bytes) : Json := .string (Hex.encodeMarked bytes)

/-- Read bytes from hexadecimal or from an array of numbers. -/
def ofJson : Json.Reader Bytes
  | .string text =>
    match Hex.decode text with
    | .ok bytes => .ok bytes
    | .error _ => .error .wrongForm
  | .array items => (items.mapM (Json.readBelow 256)).map (·.map UInt8.ofNat)
  | _ => .error .wrongForm

end Bytes

namespace Counter

/-- Counters are written in words of 32 bits. -/
def wordBase : Nat := 0x100000000

/-- A counter in JSON: its words, the lowest first, with no zero at the top. -/
def toJson (n : Nat) : Json :=
  .array ((Numeral.digits wordBase n).map fun word => .integer (Int.ofNat word))

/-- Read a counter from its words. Zeros at the top do not matter. -/
def ofJson : Json.Reader Nat := fun value =>
  (Json.readList (Json.readBelow wordBase) value).map (Numeral.ofDigits wordBase)

end Counter

namespace CountedValue

def toJson (v : CountedValue) : Json :=
  .object [("counter", Counter.toJson v.counter), ("value", v.value.toJson)]

def ofJson : Json.Reader CountedValue
  | .object fields => do
    let counter ← readField? fields "counter" Counter.ofJson
    let value ← readField? fields "value" Bytes.ofJson
    return { value := ← require value, counter := ← require counter }
  | .array items => do
    let (value, items) ← readItem Bytes.ofJson items
    let (counter, items) ← readItem Counter.ofJson items
    readEnd items
    return { value, counter }
  | _ => .error .wrongForm

end CountedValue

namespace Flavour

instance : (f : Flavour) → JsonForm f.Value
  | .plain => { toJson := Bytes.toJson, ofJson := Bytes.ofJson }
  | .sum => { toJson := CountedValue.toJson, ofJson := CountedValue.ofJson }

instance : (f : Flavour) → JsonForm f.Aggregate
  | .plain => { toJson := fun _ => .null, ofJson := Json.readNull }
  | .sum => { toJson := Counter.toJson, ofJson := Counter.ofJson }

end Flavour

/-! ## Verdicts -/

def Verdict.ofJson : Json.Reader Verdict
  | .object fields => do
    let included ← readField? fields "path_included" Json.readBool
    let valid ← readField? fields "path_valid" Json.readBool
    return { valid := ← require valid, included := ← require included }
  | .array items => do
    let (valid, items) ← readItem Json.readBool items
    let (included, items) ← readItem Json.readBool items
    readEnd items
    return { valid, included }
  | _ => .error .wrongForm

instance : JsonForm Verdict where
  toJson v := .object [("path_included", .bool v.included), ("path_valid", .bool v.valid)]
  ofJson := Verdict.ofJson

/-! ## Proofs -/

variable {f : Flavour}

namespace Commitment

/-- The fields of a commitment, under a name for the hash that comes behind `aggregate`. -/
def toFields (hashName : String) (c : Commitment f) : List (String × Json) :=
  [("aggregate", JsonForm.toJson c.aggregate), (hashName, JsonForm.toJson c.hash)]

/-- Read a commitment from the fields of an object, under a name for the hash that comes behind
`aggregate`. -/
def ofFields (hashName : String) (fields : List (String × Json)) :
    Except Json.Error (Commitment f) := do
  let aggregate ← readField? fields "aggregate" JsonForm.ofJson
  let hash ← readField? fields hashName JsonForm.ofJson
  return { hash := ← require hash, aggregate := ← require aggregate }

def ofJson : Json.Reader (Commitment f)
  | .object fields => ofFields "hash" fields
  | .array items => do
    let (hash, items) ← readItem JsonForm.ofJson items
    let (aggregate, items) ← readItem JsonForm.ofJson items
    readEnd items
    return { hash, aggregate }
  | _ => .error .wrongForm

/-- The form of a commitment is that of a sibling. -/
instance : JsonForm (Commitment f) where
  toJson c := .object (c.toFields "hash")
  ofJson := Commitment.ofJson

end Commitment

namespace Terminal

/-- A terminal branch in JSON: a lone field named for its kind. -/
def toJson : Terminal f → Json
  | .leaf value => .object [("Leaf", JsonForm.toJson value)]
  | .node children => .object [("Node", .object (children.toFields "children_hash"))]

/-- Read a terminal branch. The contents of a node must be an object. -/
def ofJson : Json.Reader (Terminal f)
  | .object [("Leaf", value)] => (JsonForm.ofJson value).map .leaf
  | .object [("Node", .object fields)] => (Commitment.ofFields "children_hash" fields).map .node
  | _ => .error .wrongForm

instance : JsonForm (Terminal f) := ⟨Terminal.toJson, Terminal.ofJson⟩

end Terminal

namespace Step

/-- A step in JSON, with null for what is absent. -/
def toJson (s : Step f) : Json :=
  .object [("branch", Json.ofOption JsonForm.toJson s.terminal), ("path", JsonForm.toJson s.path),
    ("sibling", Json.ofOption JsonForm.toJson s.sibling)]

/-- Read a step. In an object the sibling and the terminal branch may be missing. -/
def ofJson : Json.Reader (Step f)
  | .object fields => do
    let terminal ← readField? fields "branch" (Json.readOption JsonForm.ofJson)
    let path ← readField? fields "path" JsonForm.ofJson
    let sibling ← readField? fields "sibling" (Json.readOption JsonForm.ofJson)
    return { path := ← require path, sibling := sibling.join, terminal := terminal.join }
  | .array items => do
    let (path, items) ← readItem JsonForm.ofJson items
    let (sibling, items) ← readItem (Json.readOption JsonForm.ofJson) items
    let (terminal, items) ← readItem (Json.readOption JsonForm.ofJson) items
    readEnd items
    return { path, sibling, terminal }
  | _ => .error .wrongForm

instance : JsonForm (Step f) := ⟨Step.toJson, Step.ofJson⟩

end Step

namespace Proof

def toJson (p : Proof f) : Json :=
  .object (p.root.toFields "root" ++ [("steps", .array (p.steps.map JsonForm.toJson))])

def ofJson : Json.Reader (Proof f)
  | .object fields => do
    let aggregate ← readField? fields "aggregate" JsonForm.ofJson
    let hash ← readField? fields "root" JsonForm.ofJson
    let steps ← readField? fields "steps" (Json.readList JsonForm.ofJson)
    return { root := { hash := ← require hash, aggregate := ← require aggregate }
             steps := ← require steps }
  | .array items => do
    let (hash, items) ← readItem JsonForm.ofJson items
    let (aggregate, items) ← readItem JsonForm.ofJson items
    let (steps, items) ← readItem (Json.readList JsonForm.ofJson) items
    readEnd items
    return { root := { hash, aggregate }, steps }
  | _ => .error .wrongForm

instance : JsonForm (Proof f) := ⟨Proof.toJson, Proof.ofJson⟩

end Proof

end MerkleTrie
