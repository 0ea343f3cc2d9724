import CellScheme.Machine.Run

/-!
Evaluation with another way to call builtins. A layer of evaluation calls a builtin in one place
only, at the head of a list whose elements have been evaluated. How it is called there is a
parameter here.
-/

namespace CellScheme

open Act

/-- How a builtin is called with a form. -/
abbrev Caller := Name → List Node → Act Node

@[inherit_doc callHead]
def callHeadBy (call : Caller) (ev : Evaluator) (c : Nat) : PlaceAct Node := do
  let form := (← get).store.elements c
  match form with
  | .lambda b p k :: args => leaving (.list c) (applyLambda ev b p k args)
  | .builtin name :: _ => leaving (.list c) (call name form)
  | _ => do
    let m ← get
    throw (.list c, .failed (.runtime (.notProcedure
      (m.view (form.headD default)) (m.store.viewSeq form))))

def evalListBy (call : Caller) (ev : Evaluator) (c : Nat) : PlaceAct Node := do
  let form := (← get).store.elements c
  match form with
  | [] => throw (.list c, .failed (.runtime .missingProcedure))
  | head :: _ =>
    match SpecialForm.ofHead? head with
    | some f => leaving (.list c) do
      traceEvent fun m => .special m.depth (m.store.viewSeq form)
      f.run ev form
    | none => do
      let c ← leaving (.list c) (storeGet (·.ownSeq c))
      evalElements ev c 0 form
      callHeadBy call ev c

def evalLayerBy (call : Caller) (ev : Evaluator) (x : Node) : PlaceAct Node :=
  match x with
  | .list c => evalListBy call ev c
  | _ => evalLayer ev x

theorem evalListBy_callBuiltin (ev : Evaluator) (c : Nat) :
    evalListBy (callBuiltin ev) ev c = evalList ev c := rfl

theorem evalLayerBy_callBuiltin (ev : Evaluator) (x : Node) :
    evalLayerBy (callBuiltin ev) ev x = evalLayer ev x := by
  cases x with
  | list c => exact evalListBy_callBuiltin ev c
  | int _ | bool _ | symbol _ | quote _ | lambda _ _ _ | builtin _ => rfl

end CellScheme
