import CellScheme.Machine.SpecialForm
import CellScheme.Primitive

/-!
Evaluation on trees, without storage: the meaning that the machine implements on shared cells.
Values are trees, so nothing can be edited behind another holder's back.
-/

namespace CellScheme.Tree

/-- The bindings, by frame, and what else evaluation depends on. -/
structure World where
  global : Named Datum
  inner : List (Named Datum)
  builtins : Named Builtin
  /-- The names bound by definitions, oldest first. -/
  defined : List Name
  limit : Int
deriving Repr, Inhabited

namespace World

def depth (w : World) : Nat :=
  w.inner.length + 1

def find? (w : World) (name : Name) : Option Datum :=
  (w.inner.findSome? fun f => f.find? name).orElse fun _ => w.global.find? name

def define (w : World) (name : Name) (d : Datum) : World :=
  { w with
    defined := if w.defined.contains name then w.defined else w.defined ++ [name]
    global := w.global.insert name d }

end World

abbrev Act := EStateM Halt World

/-- How the expressions inside an expression are evaluated. -/
abbrev Evaluator := Datum → Act Datum

def fail {α : Type} (f : Failure) : Act α :=
  throw (.failed f)

def ofExcept {α : Type} : Except Failure α → Act α
  | .ok a => pure a
  | .error f => fail f

def formOfHead? : Datum → Option SpecialForm
  | .symbol n => SpecialForm.ofName? n
  | _ => none

def evalDefine (ev : Evaluator) (form : List Datum) : Act Datum :=
  match form with
  | [_, .symbol name, expr] => do
    let v ← ev expr
    modify (·.define name v)
    return .symbol name
  | [_, target, _] => fail (.badSyntax (.defineName target))
  | _ => fail (.badSyntax (.defineShape form))

/-- The names of parameters: symbols, none twice. The names seen so far come last first. -/
def paramNames (seen : List Name) : List Datum → Except SyntaxFailure (List Name)
  | [] => .ok seen.reverse
  | .symbol name :: ds =>
    if seen.contains name then .error (.lambdaRepeated name) else paramNames (name :: seen) ds
  | d :: _ => .error (.lambdaParam d)

def evalLambda (form : List Datum) : Act Datum :=
  match form with
  | [_, .list params, body] =>
    match paramNames [] params with
    | .error e => fail (.badSyntax e)
    | .ok names => return .lambda [] names body
  | [_, params, _] => fail (.badSyntax (.lambdaParams params))
  | _ => fail (.badSyntax (.lambdaShape form))

def clause? : Datum → Option (Datum × Datum)
  | .list [test, result] => some (test, result)
  | _ => none

def isElse : Datum → Bool
  | .symbol name => name = SpecialForm.elseWord
  | _ => false

def clauses (form : List Datum) :
    List Datum → Except SyntaxFailure (List (Datum × Datum) × Datum)
  | [] => .error (.condShape form)
  | c :: cs =>
    match clause? c with
    | none => .error (.condClause c)
    | some (test, result) =>
      if cs.isEmpty then
        if isElse test then .ok ([], result) else .error (.condNoElse form)
      else if isElse test then .error (.condEarlyElse form)
      else (clauses form cs).map fun (ps, last) => ((test, result) :: ps, last)

def evalClauses (ev : Evaluator) (last : Datum) : List (Datum × Datum) → Act Datum
  | [] => ev last
  | (test, result) :: cs => do
    match ← ev test with
    | .bool true => ev result
    | _ => evalClauses ev last cs

def evalCond (ev : Evaluator) (form : List Datum) : Act Datum :=
  if form.length < 3 then fail (.badSyntax (.condShape form))
  else
    match clauses form form.tail with
    | .error e => fail (.badSyntax e)
    | .ok (cs, last) => evalClauses ev last cs

def evalOperands (ev : Evaluator) (stop : Bool) (first : Datum) : List Datum → Act Datum
  | [] => ev first
  | x :: xs => do
    match ← ev first with
    | .bool b => if b = stop then return .bool stop else evalOperands ev stop x xs
    | _ => evalOperands ev stop x xs

def evalLogical (ev : Evaluator) (name : String) (stop : Bool) : List Datum → Act Datum
  | _ :: x :: xs => evalOperands ev stop x xs
  | _ => fail (.runtime (.noOperands name))

def evalForm (ev : Evaluator) (f : SpecialForm) (form : List Datum) : Act Datum :=
  match f with
  | .define => evalDefine ev form
  | .lambda => evalLambda form
  | .cond => evalCond ev form
  | .and => evalLogical ev "and" false form
  | .or => evalLogical ev "or" true form

def quotedElements (d : Datum) : List Datum :=
  d.quotedList?.getD []

/-- Run on arguments that have passed the checks. A tree has no identity: the two questions that
depend on storage compare trees here. -/
def runChecked (ev : Evaluator) (n : Native) (form : List Datum) : Act Datum :=
  match n, form with
  | .car, [_, x] =>
    match quotedElements x with
    | y :: _ => return y.requote
    | [] => return x
  | .cdr, [_, x] => return .quote (.list (quotedElements x).tail)
  | .cons, [_, x, tail] => return .quote (.list (x.unquote :: quotedElements tail))
  | .identical, [_, x, y] | .equal, [_, x, y] => return .bool (x == y)
  | .atom, [_, x] => return .bool !x.isList
  | .null, [_, x] => return .bool x.isNull
  | .zero, [_, .int a] => return .bool (a == 0)
  | .step delta, [_, .int a] => return .int (a + delta)
  | .arith op, [_, .int a, .int b] => return .int (← ofExcept (op.compute form a b))
  | .eval, [_, x] => ev x.unquote
  | .query q, [_, x] => return .bool (← ofExcept (q.answer x))
  | _, _ => fail (.internal .absentNode)

def runNative (ev : Evaluator) (n : Native) (name : Name) (form : List Datum) : Act Datum := do
  ofExcept (Check.runAll name form n.checks)
  runChecked ev n form

def callBuiltin (ev : Evaluator) (name : Name) (form : List Datum) : Act Datum := do
  match (← get).builtins.find? name with
  | none => fail (.runtime (.unknownBuiltin name))
  | some b => runNative ev b.native name form

/-- Run an action with a frame on top of the others, and take it off again. -/
def withFrame {α : Type} (f : Named Datum) (a : Act α) : Act α := fun w =>
  match a { w with inner := f :: w.inner } with
  | .ok v w => .ok v { w with inner := w.inner.tail }
  | .error h w => .error h { w with inner := w.inner.tail }

def bindParams (params : List Name) (args : List Datum) : Named Datum :=
  (params.zip args).foldl (fun f (name, d) => f.insert name d) .empty

def apply (ev : Evaluator) (bound : List Datum) (params : List Name) (body : Datum)
    (args : List Datum) : Act Datum := do
  let missing := Datum.arity bound params
  if missing < args.length then fail (.runtime (.tooManyArguments missing args.length))
  else
    let bound := bound ++ args
    let w ← get
    if Datum.arity bound params ≠ 0 then return .lambda bound params body
    else if 0 < w.limit ∧ w.limit < w.depth then fail (.runtime (.tooDeep w.limit))
    else withFrame (bindParams params bound) (ev body)

def evalAll (ev : Evaluator) : List Datum → Act (List Datum)
  | [] => return []
  | x :: xs => do
    let v ← ev x
    let vs ← evalAll ev xs
    return v :: vs

def call (ev : Evaluator) (form : List Datum) : Act Datum :=
  match form with
  | .lambda bound params body :: args => apply ev bound params body args
  | .builtin name :: _ => callBuiltin ev name form
  | _ => fail (.runtime (.notProcedure (form.headD default) form))

def evalList (ev : Evaluator) (form : List Datum) : Act Datum :=
  match form with
  | [] => fail (.runtime .missingProcedure)
  | head :: _ =>
    match formOfHead? head with
    | some f => evalForm ev f form
    | none => do call ev (← evalAll ev form)

def evalLayer (ev : Evaluator) (d : Datum) : Act Datum :=
  match d with
  | .list form => evalList ev form
  | .symbol name => do
    match (← get).find? name with
    | some v => return v
    | none => fail (.runtime (.undefined name))
  | .quote p => return if p.needsQuote then d else p
  | .int _ | .bool _ | .lambda _ _ _ | .builtin _ => return d

/-- Evaluate with fuel for this many nested layers. -/
def evaluate : Nat → Evaluator
  | 0, _ => throw .starved
  | fuel + 1, d => evalLayer (evaluate fuel) d

/-- The world that a machine stands for. -/
def World.of (m : Machine) : World :=
  let frame := fun (f : Frame) => Named.mk (f.bindings.entries.map fun (n, x) => (n, m.view x))
  { global := frame m.scopes.global
    inner := m.scopes.inner.map frame
    builtins := m.builtins
    defined := m.defined
    limit := m.limit }

end CellScheme.Tree
