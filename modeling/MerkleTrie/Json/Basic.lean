-- SUMMARY: JSON values, the errors of reading one, and readers of objects and arrays.
import MerkleTrie.Bytes.Hex
import MerkleTrie.Error

/-! # JSON values

A JSON value as a data format sees it: numbers are told apart only into integers
and others, and an object is a list of named fields. A reader takes a value
apart or says why it cannot. -/

namespace MerkleTrie

inductive Json where
  | null
  | bool (value : Bool)
  /-- A number written without a fraction. -/
  | integer (value : Int)
  /-- A number written with a fraction, of which no format here makes use. -/
  | fraction
  | string (value : String)
  | array (items : List Json)
  | object (fields : List (String × Json))
  deriving Inhabited

namespace Json

/-- Why a JSON value could not be read. -/
inductive Error where
  /-- The value has not the form that belongs there. -/
  | wrongForm
  | notDecimal
  | notHex (cause : Hex.Error)
  /-- The value was read and its contents were refused. -/
  | refused (cause : TrieError)
  deriving DecidableEq, Repr

/-- The text of an error. A wrong form has none of its own. -/
def Error.message? : Error → Option String
  | .wrongForm => none
  | .notDecimal => some "invalid decimal integer"
  | .notHex cause => some cause.message
  | .refused cause => some cause.message

/-- A reader takes a JSON value to a value of a type. -/
abbrev Reader (α : Type) := Json → Except Error α

/-! ## Simple values -/

def readBool : Reader Bool
  | .bool value => .ok value
  | _ => .error .wrongForm

def readNull : Reader Unit
  | .null => .ok ()
  | _ => .error .wrongForm

/-- Read an integer from zero up to, but not including, a bound. -/
def readBelow (bound : Nat) : Reader Nat
  | .integer (.ofNat n) => if n < bound then .ok n else .error .wrongForm
  | _ => .error .wrongForm

/-- Read an array, each item with the same reader. -/
def readList {α : Type} (read : Reader α) : Reader (List α)
  | .array items => items.mapM read
  | _ => .error .wrongForm

/-- Read null as nothing, and all else with a reader. -/
def readOption {α : Type} (read : Reader α) : Reader (Option α)
  | .null => .ok none
  | value => (read value).map some

def ofOption {α : Type} (write : α → Json) : Option α → Json
  | none => .null
  | some value => write value

/-! ## Records -/

/-- Read a field of an object, if it is there. -/
def readField? {α : Type} (fields : List (String × Json)) (name : String) (read : Reader α) :
    Except Error (Option α) :=
  match fields.lookup name with
  | none => .ok none
  | some value => (read value).map some

/-- A field that must have been there. -/
def require {α : Type} : Option α → Except Error α
  | some value => .ok value
  | none => .error .wrongForm

/-- Read the first item of an array, which must be there, and leave the others. -/
def readItem {α : Type} (read : Reader α) : List Json → Except Error (α × List Json)
  | [] => .error .wrongForm
  | item :: rest => (read item).map (·, rest)

/-- Refuse an array with items left. -/
def readEnd : List Json → Except Error Unit
  | [] => .ok ()
  | _ :: _ => .error .wrongForm

end Json

end MerkleTrie
