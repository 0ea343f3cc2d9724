import CellScheme.Name

/-!
Expressions as trees. A datum is what the reader produces, what the printer, the JSON form and the
image form show, and what a node of the store stands for once its cells are read.
-/

namespace CellScheme

inductive Kind where
  | int
  | bool
  | symbol
  | quote
  | list
  | lambda
  | builtin
deriving DecidableEq, Repr, Inhabited

namespace Kind

def all : List Kind :=
  [int, bool, symbol, quote, list, lambda, builtin]

def name : Kind → String
  | int => "Integer"
  | bool => "Boolean"
  | symbol => "Symbol"
  | quote => "Quote"
  | list => "List"
  | lambda => "Lambda"
  | builtin => "BuiltinFn"

end Kind

/-- An expression. A lambda is a user procedure, possibly partially applied: `bound` holds the
arguments supplied so far, in order. -/
inductive Datum where
  | int (value : Int64)
  | bool (value : Bool)
  | symbol (name : Name)
  | quote (payload : Datum)
  | list (elements : List Datum)
  | lambda (bound : List Datum) (params : List Name) (body : Datum)
  | builtin (name : Name)
deriving Inhabited, BEq, Repr

namespace Datum

def kind : Datum → Kind
  | int _ => .int
  | bool _ => .bool
  | symbol _ => .symbol
  | quote _ => .quote
  | list _ => .list
  | lambda _ _ _ => .lambda
  | builtin _ => .builtin

/-- A quoted integer, boolean or procedure evaluates to its payload; every other quoted datum
stays quoted. -/
def needsQuote : Datum → Bool
  | symbol _ | list _ | quote _ => true
  | _ => false

/-- Quote a datum that is sensitive to evaluation, so that it keeps meaning data. -/
def requote (d : Datum) : Datum :=
  if d.needsQuote then quote d else d

def unquote : Datum → Datum
  | quote d => d
  | d => d

def quotedList? : Datum → Option (List Datum)
  | quote (list xs) => some xs
  | _ => none

def arity (bound : List Datum) (params : List Name) : Int :=
  (params.length : Int) - bound.length

end Datum

end CellScheme
