import CellScheme.Check
import CellScheme.Machine.Basic

/-!
Actions on a machine. An action ends with a value or halts, and keeps in either case the changes
that it has made. An expression is evaluated in its place: an action on a place that halts also
tells which node it leaves there.
-/

namespace CellScheme

/-- Why an action ends without a value: a failure of the program, or the end of the fuel. -/
inductive Halt where
  | failed (cause : Failure)
  | starved
deriving Repr

/-- Actions on the machine. A failing action keeps the changes made before it failed. -/
abbrev Act := EStateM Halt Machine

/-- Actions on a place: a failure tells what is left in the place. -/
abbrev PlaceAct := EStateM (Node × Halt) Machine

/-- How expressions below the current one are evaluated in their places. -/
abbrev Evaluator := Node → PlaceAct Node

namespace Act

variable {α : Type}

def fail (f : Failure) : Act α :=
  throw (.failed f)

def ofExcept : Except Failure α → Act α
  | .ok a => pure a
  | .error f => fail f

def store (f : Store → Store) : Act Unit :=
  modify fun m => { m with store := f m.store }

def storeGet (f : Store → Store × α) : Act α :=
  modifyGet fun m =>
    let (store, a) := f m.store
    (a, { m with store })

def read (f : Machine → α) : Act α :=
  return f (← get)

def clone (x : Node) : Act Node := do
  store (·.share x)
  return x

def leaving (x : Node) (a : Act α) : PlaceAct α :=
  a.adaptExcept fun h => (x, h)

def evalCopy (ev : Evaluator) (x : Node) : Act Node := do
  let x ← clone x
  (ev x).adaptExcept Prod.snd

def check (name : Name) (form : List Node) (cs : List Check) : Act Unit := do
  ofExcept (Check.runAll name ((← read (·.store)).viewSeq form) cs)

end Act

end CellScheme
