import CellScheme.Machine.Apply
import CellScheme.Machine.SpecialForm

/-!
Evaluation. An expression is evaluated in its place: evaluation returns the node that stands in the
place afterwards, and if it fails, the node that it leaves there. Lists are edited element by
element, after a copy if they have other holders.

One layer of evaluation is a function of the evaluator for the layers below, and `evaluate` closes
the loop with fuel. Running out of fuel is an outcome of its own.
-/

namespace CellScheme

open Act

/-- Evaluate the elements of a list from position `i` on, in place and left to right. A failure
leaves the list with the elements evaluated so far. -/
def evalElements (ev : Evaluator) (c : Nat) : Nat → List Node → PlaceAct Unit
  | _, [] => pure ()
  | i, x :: xs => do
    let v ← fun m =>
      match ev x m with
      | .ok v m => .ok v m
      | .error (left, h) m => .error (.list c, h) { m with store := m.store.setElement c i left }
    modify fun m => { m with store := m.store.setElement c i v }
    evalElements ev c (i + 1) xs

/-- Call the head of an evaluated list with the rest of it. -/
def callHead (ev : Evaluator) (c : Nat) : PlaceAct Node := do
  let form := (← get).store.elements c
  match form with
  | .lambda b p k :: args => leaving (.list c) (applyLambda ev b p k args)
  | .builtin name :: _ => leaving (.list c) (callBuiltin ev name form)
  | _ => do
    let m ← get
    throw (.list c, .failed (.runtime (.notProcedure
      (m.view (form.headD default)) (m.store.viewSeq form))))

def evalList (ev : Evaluator) (c : Nat) : PlaceAct Node := do
  let form := (← get).store.elements c
  match form with
  | [] => throw (.list c, .failed (.runtime .missingProcedure))
  | head :: _ =>
    match SpecialForm.ofHead? head with
    | some f => leaving (.list c) do
      traceEvent fun m => .special m.depth (m.store.viewSeq form)
      f.run ev form
    | none => do
      let c ← leaving (.list c) (storeGet (·.ownSeq c))
      evalElements ev c 0 form
      callHead ev c

def evalLayer (ev : Evaluator) (x : Node) : PlaceAct Node :=
  match x with
  | .list c => evalList ev c
  | .symbol name => leaving x do
    match (← get).scopes.find? name with
    | some v => clone v
    | none => fail (.runtime (.undefined name))
  | .quote c => leaving x do
    let y := (← read (·.store)).payload c
    if y.needsQuote then return x else clone y
  | .int _ | .bool _ | .lambda _ _ _ | .builtin _ => return x

/-- Evaluate with fuel for this many nested layers. -/
def evaluate : Nat → Evaluator
  | 0, x => throw (x, .starved)
  | fuel + 1, x => evalLayer (evaluate fuel) x

end CellScheme
