import CellScheme.Datum.Basic
import CellScheme.Failure
import CellScheme.Json.Writer

/-!
Expressions as JSON values. Integers and booleans are themselves and lists are arrays; every other
expression is an object with one member that names its kind.
-/

namespace CellScheme.Datum

open Json (Value)

namespace Tag

def symbol : Bytes := Text.utf8 "symbol"

def builtin : Bytes := Text.utf8 "builtin"

def quote : Bytes := Text.utf8 "quote"

def lambda : Bytes := Text.utf8 "lambda"

def body : Bytes := Text.utf8 "body"

def bound : Bytes := Text.utf8 "bound"

def params : Bytes := Text.utf8 "params"

end Tag

mutual
def toJson : Datum → Value
  | .int v => .int v
  | .bool b => .bool b
  | .symbol name => .object [(Tag.symbol, .string name.bytes)]
  | .builtin name => .object [(Tag.builtin, .string name.bytes)]
  | .quote d => .object [(Tag.quote, d.toJson)]
  | .list xs => .array (seqToJson xs)
  | .lambda bound params body =>
    .object [(Tag.lambda, .object [(Tag.body, body.toJson), (Tag.bound, .array (seqToJson bound)),
      (Tag.params, .array (params.map fun p => .string p.bytes))])]
termination_by structural d => d

def seqToJson : List Datum → List Value
  | [] => []
  | x :: xs => x.toJson :: seqToJson xs
termination_by structural xs => xs
end

def jsonText (d : Datum) : String :=
  d.toJson.text

def jsonTextOption : Option Datum → String
  | none => Value.null.text
  | some d => d.jsonText

/-- An unsigned integer as an expression. -/
def ofUnsigned (n : Nat) : Except Failure Datum :=
  match Text.int64? n with
  | some v => .ok (.int v)
  | none => .error (.parse (.jsonIntegerOutOfRange n))

/-- A real number as an expression: it must be an integer of 64 bits. -/
def ofReal (x : Number.Binary64) : Except ParseFailure Datum :=
  match x.toInt?.bind Text.int64? with
  | some v => .ok (.int v)
  | none => .error (.jsonNotInteger x)

def jsonParams : List Value → Except ParseFailure (List Name)
  | [] => .ok []
  | .string s :: vs => (jsonParams vs).map (⟨s⟩ :: ·)
  | v :: _ => .error (.jsonParamShape v.shape)

/-- The elements of the array that is the member of this key; none if there is no such array. -/
def arrayMember (key : Bytes) (ms : List (Bytes × Value)) : List Value :=
  match Value.lookup? key ms with
  | some (.array vs) => vs
  | _ => []

/-- A lambda from its members: a failure of the parameters counts first, then one of the body, then
one of the bound arguments, of which there may not be more than parameters. -/
def assemble (params : Except ParseFailure (List Name)) (body : Except ParseFailure Datum)
    (bound : Except ParseFailure (List Datum)) : Except ParseFailure Datum :=
  match params, body, bound with
  | .error e, _, _ => .error e
  | .ok _, .error e, _ => .error e
  | .ok _, .ok _, .error e => .error e
  | .ok params, .ok body, .ok bound =>
    if params.length < bound.length then .error (.jsonOverbound bound.length params.length)
    else .ok (.lambda bound params body)

mutual
/-- The expression of a JSON value that stands at the given depth. -/
def ofJsonAt (depth : Nat) : Value → Except ParseFailure Datum
  | .int v => .ok (.int v)
  | .real x => ofReal x
  | .bool b => .ok (.bool b)
  | .array vs => (ofJsonSeq (depth + 1) vs).map .list
  | .object ms => ofMembers depth ms
  | .null => .error (.jsonShape .null depth)
  | .string _ => .error (.jsonShape .string depth)
termination_by structural v => v

def ofJsonSeq (depth : Nat) : List Value → Except ParseFailure (List Datum)
  | [] => .ok []
  | v :: vs =>
    match ofJsonAt depth v with
    | .error e => .error e
    | .ok d => (ofJsonSeq depth vs).map (d :: ·)
termination_by structural vs => vs

/-- An object has exactly one member, whose key names the kind. -/
def ofMembers (depth : Nat) : List (Bytes × Value) → Except ParseFailure Datum
  | [m] => ofTagged depth m
  | ms => .error (.jsonKeyCount ms.length)
termination_by structural ms => ms

def ofTagged (depth : Nat) : Bytes × Value → Except ParseFailure Datum
  | (tag, v) =>
    if tag = Tag.symbol then
      match v with
      | .string name => .ok (.symbol ⟨name⟩)
      | v => .error (.jsonNameShape ⟨tag⟩ v.shape)
    else if tag = Tag.builtin then
      match v with
      | .string name => .ok (.builtin ⟨name⟩)
      | v => .error (.jsonNameShape ⟨tag⟩ v.shape)
    else if tag = Tag.quote then (ofJsonAt (depth + 1) v).map .quote
    else if tag = Tag.lambda then
      match v with
      | .object ms => assemble (jsonParams (arrayMember Tag.params ms)) (ofBody (depth + 1) ms)
          (ofBound (depth + 1) ms)
      | v => .error (.jsonLambdaShape v.shape)
    else .error (.jsonUnknownTag ⟨tag⟩)
termination_by structural m => m

/-- The body of a lambda; a missing one is read as null. -/
def ofBody (depth : Nat) : List (Bytes × Value) → Except ParseFailure Datum
  | [] => .error (.jsonShape .null depth)
  | (key, v) :: ms => if key = Tag.body then ofJsonAt depth v else ofBody depth ms
termination_by structural ms => ms

/-- The bound arguments of a lambda; a member that is not an array counts as none. -/
def ofBound (depth : Nat) : List (Bytes × Value) → Except ParseFailure (List Datum)
  | [] => .ok []
  | (key, v) :: ms =>
    if key = Tag.bound then
      match v with
      | .array vs => ofJsonSeq depth vs
      | _ => .ok []
    else ofBound depth ms
termination_by structural ms => ms
end

def ofJson (v : Value) : Except Failure Datum :=
  (ofJsonAt 0 v).mapError .parse

end CellScheme.Datum
