import CellScheme.Machine.Eval
import CellScheme.Reader

/-!
Running expressions and texts on a machine. The caller chooses the fuel.
-/

namespace CellScheme

namespace Halt

def message : Halt → String
  | failed f => f.message
  | starved => "evaluation was given up"

end Halt

namespace Machine

variable {α : Type}

def run (m : Machine) (a : Act α) : Except Halt α × Machine :=
  match a m with
  | .ok v m => (.ok v, m)
  | .error h m => (.error h, m)

def eval (fuel : Nat) (x : Node) : Act Node :=
  Act.evalCopy (evaluate fuel) x

def build (d : Datum) : Act Node :=
  Act.storeGet (·.build d)

def evalDatum (fuel : Nat) (d : Datum) : Act Node := do
  eval fuel (← build d)

def evalText (fuel : Nat) (text : String) : Act Node := do
  evalDatum fuel (← Act.ofExcept (Datum.parse text))

def evalPrint (fuel : Nat) (text : String) : Act String := do
  let x ← evalText fuel text
  return (← Act.read (·.view x)).print

/-- Evaluate trees in order up to the first that stops without a value. The values so far are kept,
last first. -/
def evalSeq (fuel : Nat) (m : Machine) (done : List Node) :
    List Datum → (List Node × Option Halt) × Machine
  | [] => ((done.reverse, none), m)
  | d :: ds =>
    match evalDatum fuel d m with
    | .ok v m => evalSeq fuel m (v :: done) ds
    | .error h m => ((done.reverse, some h), m)

/-- Evaluate every expression of a script in order, up to the first that stops without a value. All
of the script is read before any of it runs. -/
def evalScript (fuel : Nat) (m : Machine) (text : String) :
    (List Node × Option Halt) × Machine :=
  match Datum.parseAll text with
  | .error e => (([], some (.failed e)), m)
  | .ok ds => evalSeq fuel m [] ds

/-- Evaluate a node in its place. Gives what stands there afterwards, and why evaluation stopped if
it did. An absent node cannot be evaluated. -/
def evalPlace (fuel : Nat) (m : Machine) : Option Node → (Option Node × Option Halt) × Machine
  | none => ((none, some (.failed (.internal .absentNode))), m)
  | some x =>
    match evaluate fuel x m with
    | .ok v m => ((some v, none), m)
    | .error (left, h) m => ((some left, some h), m)

/-- Supply arguments to a procedure that the caller holds. -/
def apply (fuel : Nat) (f : Node) (args : List Node) : Act Node :=
  match f with
  | .lambda b p k => applyLambda (evaluate fuel) b p k args
  | _ => do
    let m ← get
    Act.fail (.runtime (.notProcedure (m.view f) (m.store.viewSeq (f :: args))))

def arity (m : Machine) : Node → Int
  | .lambda b p _ => m.store.arity b p
  | _ => 0

end Machine

end CellScheme
