import CellScheme.Bytes.Word
import CellScheme.Number.Binary64

/-!
JSON values. An object keeps each key once. Strings and keys are bytes: what is read from a text may
be cut in the middle of a character.
-/

namespace CellScheme.Json

inductive Value where
  | null
  | bool (value : Bool)
  | int (value : Int64)
  | real (value : Number.Binary64)
  | string (value : Bytes)
  | array (elements : List Value)
  | object (members : List (Bytes × Value))
deriving Inhabited, Repr

inductive Shape where
  | null
  | bool
  | int
  | real
  | string
  | array
  | object
deriving DecidableEq, Repr, Inhabited

/-- How a shape is named in messages. -/
def Shape.name : Shape → String
  | null => "<nil>"
  | bool => "bool"
  | int => "int64"
  | real => "float64"
  | string => "string"
  | array => "[]interface \x7b\x7d"
  | object => "map[string]interface \x7b\x7d"

namespace Value

def shape : Value → Shape
  | null => .null
  | bool _ => .bool
  | int _ => .int
  | real _ => .real
  | string _ => .string
  | array _ => .array
  | object _ => .object

def lookup? (key : Bytes) (members : List (Bytes × Value)) : Option Value :=
  (members.find? fun m => m.1 == key).map Prod.snd

/-- Set a member, in the place of an earlier one. -/
def put (key : Bytes) (value : Value) : List (Bytes × Value) → List (Bytes × Value)
  | [] => [(key, value)]
  | m :: ms => if m.1 == key then (key, value) :: ms else m :: put key value ms

end Value

end CellScheme.Json
