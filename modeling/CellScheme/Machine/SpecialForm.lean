import CellScheme.Machine.Act

/-!
The special forms: lists whose head is one of five symbols and whose operands are not evaluated
first. A form is given as the elements of its list, its own name first.
-/

namespace CellScheme

open Act

inductive SpecialForm where
  | define
  | lambda
  | cond
  | and
  | or
deriving DecidableEq, Repr

namespace SpecialForm

def name : SpecialForm → Name
  | define => "define"
  | lambda => "lambda"
  | cond => "cond"
  | and => "and"
  | or => "or"

def all : List SpecialForm :=
  [and, cond, define, lambda, or]

def ofName? (n : Name) : Option SpecialForm :=
  all.find? fun f => f.name == n

def ofHead? : Node → Option SpecialForm
  | .symbol n => ofName? n
  | _ => none

def failSyntax {α : Type} (f : Machine → SyntaxFailure) : Act α := do
  fail (.badSyntax (f (← get)))

/-- `(define name expr)` binds globally and gives the symbol. -/
def runDefine (ev : Evaluator) (form : List Node) : Act Node :=
  match form with
  | [_, target, expr] =>
    match target with
    | .symbol name => do
      let v ← evalCopy ev expr
      modify (·.define name v)
      return target
    | _ => failSyntax fun m => .defineName (m.view target)
  | _ => failSyntax fun m => .defineShape (m.store.viewSeq form)

/-- The names of parameters: symbols, none twice. The names seen so far come last first. -/
def paramNames (m : Machine) (seen : List Name) : List Node → Except SyntaxFailure (List Name)
  | [] => .ok seen.reverse
  | .symbol name :: xs =>
    if seen.contains name then .error (.lambdaRepeated name) else paramNames m (name :: seen) xs
  | x :: _ => .error (.lambdaParam (m.view x))

/-- `(lambda (params...) body)` -/
def runLambda (form : List Node) : Act Node :=
  match form with
  | [_, params, body] =>
    match params with
    | .list c => do
      let m ← get
      match paramNames m [] (m.store.elements c) with
      | .error e => fail (.badSyntax e)
      | .ok names => do
        let body ← clone body
        storeGet (·.makeLambda [] names body)
    | _ => failSyntax fun m => .lambdaParams (m.view params)
  | _ => failSyntax fun m => .lambdaShape (m.store.viewSeq form)

def elseWord : Name := "else"

def clause? (m : Machine) : Node → Option (Node × Node)
  | .list c =>
    match m.store.elements c with
    | [test, result] => some (test, result)
    | _ => none
  | _ => none

def isElse : Node → Bool
  | .symbol name => name = elseWord
  | _ => false

/-- The clauses of a conditional before its last one, and the result of the last one, whose test
has to be the word for all other cases. -/
def clauses (m : Machine) (form : List Node) :
    List Node → Except SyntaxFailure (List (Node × Node) × Node)
  | [] => .error (.condShape (m.store.viewSeq form))
  | c :: cs =>
    match clause? m c with
    | none => .error (.condClause (m.view c))
    | some (test, result) =>
      if cs.isEmpty then
        if isElse test then .ok ([], result) else .error (.condNoElse (m.store.viewSeq form))
      else if isElse test then .error (.condEarlyElse (m.store.viewSeq form))
      else (clauses m form cs).map fun (ps, last) => ((test, result) :: ps, last)

def runClauses (ev : Evaluator) (last : Node) : List (Node × Node) → Act Node
  | [] => evalCopy ev last
  | (test, result) :: cs => do
    match ← evalCopy ev test with
    | .bool true => evalCopy ev result
    | _ => runClauses ev last cs

/-- `(cond (test result)... (else result))`: all clauses are checked before the first test. -/
def runCond (ev : Evaluator) (form : List Node) : Act Node := do
  if form.length < 3 then failSyntax fun m => .condShape (m.store.viewSeq form)
  else
    match clauses (← get) form form.tail with
    | .error e => fail (.badSyntax e)
    | .ok (cs, last) => runClauses ev last cs

/-- Evaluate operands until one is the boolean `stop`; the last value counts. -/
def runOperands (ev : Evaluator) (stop : Bool) (first : Node) : List Node → Act Node
  | [] => evalCopy ev first
  | x :: xs => do
    match ← evalCopy ev first with
    | .bool b => if b = stop then return .bool stop else runOperands ev stop x xs
    | _ => runOperands ev stop x xs

def runLogical (ev : Evaluator) (name : String) (stop : Bool) : List Node → Act Node
  | _ :: x :: xs => runOperands ev stop x xs
  | _ => fail (.runtime (.noOperands name))

def run (ev : Evaluator) (f : SpecialForm) (form : List Node) : Act Node :=
  match f with
  | define => runDefine ev form
  | lambda => runLambda form
  | cond => runCond ev form
  | and => runLogical ev "and" false form
  | or => runLogical ev "or" true form

end SpecialForm

end CellScheme
