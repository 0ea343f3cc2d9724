import CellScheme.Machine.Native

/-!
Calls: builtins with the hooks around them, and lambdas, which collect arguments until none is
missing and then run their body in a new frame.
-/

namespace CellScheme

open Act

def traceEvent (f : Machine → Event) : Act Unit :=
  modify fun m => if m.tracing then m.log (f m) else m

/-- Call a builtin with the hooks around it. A failing builtin calls no hook after it. -/
def callBuiltin (ev : Evaluator) (name : Name) (form : List Node) : Act Node := do
  match (← get).builtins.find? name with
  | none => fail (.runtime (.unknownBuiltin name))
  | some b => do
    modify fun m => m.before.foldl
      (fun m hook => m.log (.before hook name (m.store.viewSeq form) m.depth)) m
    let x ← b.native.run ev name form
    modify fun m => m.after.foldl (fun m hook => m.log (.after hook name (m.view x) m.depth)) m
    return x

def withFrame {α : Type} (f : Frame) (a : Act α) : Act α := fun m =>
  let (m, guard) := m.push f
  match a m with
  | .ok v m => .ok v (m.release guard).1
  | .error h m => .error h (m.release guard).1

def bindParams (params : List Name) (args : List Node) : Frame :=
  (params.zip args).foldl (fun f (name, x) => f.set name x) (.empty "")

/-- Supply arguments to a lambda with these cells. With arguments still missing the result is the
lambda with more of them bound; the last one runs the body in a new frame, which needs an argument
for every parameter. -/
def applyLambda (ev : Evaluator) (bound params body : Nat) (args : List Node) : Act Node := do
  let missing := (← read (·.store)).arity bound params
  if missing < args.length then
    fail (.runtime (.tooManyArguments missing args.length))
  else
    let bound ←
      if args.isEmpty then pure bound
      else do
        let bound ← storeGet (·.ownSeq bound)
        store fun st => (st.shareAll args).appendSeq bound args
        pure bound
    let m ← get
    if m.store.arity bound params ≠ 0 then return .lambda bound params body
    else if 0 < m.limit ∧ m.limit < m.depth then fail (.runtime (.tooDeep m.limit))
    else
      let names := m.store.params params
      let values := m.store.elements bound
      if values.length < names.length then fail (.internal .absentNode)
      else
        store (·.shareAll values)
        traceEvent fun m => .applied m.depth names (m.store.viewSeq values)
        withFrame (bindParams names values) do
          evalCopy ev ((← read (·.store)).payload body)

end CellScheme
