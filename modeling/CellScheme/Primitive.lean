import CellScheme.Builtin
import CellScheme.Check

/-!
What native procedures ask of their arguments and compute from them, on trees.
-/

namespace CellScheme

/-- What the arguments of a native procedure have to be. -/
def Native.checks : Native → List Check
  | car | cdr => [.count 1, .nonEmptyList 1]
  | cons => [.count 2, .quotedList 2]
  | identical | equal => [.count 2]
  | atom | null | eval | query _ => [.count 1]
  | zero | step _ => [.count 1, .kind 1 .int]
  | arith _ => [.count 2, .kind 1 .int, .kind 2 .int]

/-- Integer arithmetic wraps at 64 bits, and division goes toward zero. -/
def IntOp.compute (op : IntOp) (form : List Datum) (a b : Int64) : Except Failure Int64 :=
  match op with
  | .add => .ok (a + b)
  | .sub => .ok (a - b)
  | .mul => .ok (a * b)
  | .div => if b = 0 then .error (.runtime (.divisionByZero form)) else .ok (a / b)
  | .unknown name => .error (.internal (.unknownOperator name))

namespace Datum

def isList : Datum → Bool
  | .list _ => true
  | d => d.quotedList?.isSome

def isNull (d : Datum) : Bool :=
  match d.quotedList? with
  | some xs => xs.isEmpty
  | none => false

def isProcedure : Datum → Bool
  | .lambda _ _ _ | .builtin _ => true
  | _ => false

end Datum

def Query.answer (q : Query) (d : Datum) : Except Failure Bool :=
  match q with
  | .list => .ok d.isList
  | .number => .ok (d.kind == .int)
  | .boolean => .ok (d.kind == .bool)
  | .symbol => .ok (d.unquote.kind == .symbol)
  | .procedure => .ok d.isProcedure
  | .unknown name => .error (.internal (.unknownQuery name))

end CellScheme
