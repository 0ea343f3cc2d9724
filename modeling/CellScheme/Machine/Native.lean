import CellScheme.Machine.Act
import CellScheme.Primitive
import CellScheme.Store.Equality

/-!
Native procedures on nodes. What they return shares the cells of their arguments where it can.
-/

namespace CellScheme

open Act

namespace Native

/-- Answer a question about a value. To look below a quote, the symbol question takes a handle on
the payload, which it never gives up. -/
def runQuery (q : Query) (x : Node) : Act Node := do
  if q = .symbol then
    let _ ← storeGet (·.unquote x)
  let b ← ofExcept (q.answer (← read (·.view x)))
  return .bool b

def runArith (op : IntOp) (form : List Node) (a b : Int64) : Act Node := do
  let v ← ofExcept (op.compute ((← read (·.store)).viewSeq form) a b)
  return .int v

def listElements (st : Store) (x : Node) : List Node :=
  ((st.quotedList? x).map st.elements).getD []

def runCar (x : Node) : Act Node := do
  match listElements (← read (·.store)) x with
  | y :: _ => do
    let y ← clone y
    storeGet (·.requote y)
  | [] => fail (.internal .absentNode)

def runCdr (x : Node) : Act Node := do
  match listElements (← read (·.store)) x with
  | _ :: ys => do
    store (·.shareAll ys)
    let l ← storeGet (·.makeList ys)
    storeGet (·.makeQuote l)
  | [] => fail (.internal .absentNode)

/-- Put an element, without its quote, in front of the elements of the list. A counted handle on
the list is taken first, so that the list itself is copied and not edited. -/
def runCons (x tail : Node) : Act Node := do
  let y ← storeGet (·.unquote x)
  match (← read (·.store)).quotedList? tail with
  | none => fail (.internal .absentNode)
  | some c => do
    store (·.share (.list c))
    let c ← storeGet (·.ownSeq c)
    store (·.editSeq c (y :: ·))
    storeGet (·.makeQuote (.list c))

/-- The expression that a value stands for: the payload of a quote, or the value. -/
def quotedExpr (st : Store) : Node → Node
  | .quote c => st.payload c
  | x => x

def runChecked (ev : Evaluator) (n : Native) (form : List Node) : Act Node :=
  match n, form with
  | car, [_, x] => runCar x
  | cdr, [_, x] => runCdr x
  | cons, [_, x, tail] => runCons x tail
  | identical, [_, x, y] => do return .bool ((← read (·.store)).identical x y)
  | equal, [_, x, y] => do return .bool ((← read (·.store)).equal x y)
  | atom, [_, x] => do return .bool !(← read (·.view x)).isList
  | null, [_, x] => do return .bool (← read (·.view x)).isNull
  | zero, [_, .int a] => return .bool (a == 0)
  | step delta, [_, .int a] => return .int (a + delta)
  | arith op, [_, .int a, .int b] => runArith op form a b
  | eval, [_, x] => do evalCopy ev (quotedExpr (← read (·.store)) x)
  | query q, [_, x] => runQuery q x
  | _, _ => fail (.internal .absentNode)

def run (ev : Evaluator) (n : Native) (name : Name) (form : List Node) : Act Node := do
  check name form n.checks
  n.runChecked ev form

end Native

end CellScheme
