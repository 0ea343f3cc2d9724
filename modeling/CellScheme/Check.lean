import CellScheme.Failure

/-!
Checks of the arguments of a builtin. The form is the whole call as trees: the builtin itself at
position zero, then the arguments.
-/

namespace CellScheme

inductive Check where
  /-- Exactly this many arguments. -/
  | count (n : Int)
  /-- The argument at this position has this kind. -/
  | kind (i : Int) (k : Kind)
  | quotedList (i : Int)
  | nonEmptyList (i : Int)
deriving DecidableEq, Repr

namespace Check

def argument (name : Name) (form : List Datum) (i : Int) : Except Failure Datum :=
  match if 1 ≤ i then form[i.toNat]? else none with
  | some x => .ok x
  | none => .error (.internal (.argumentIndex name i form))

def quotedListAt (name : Name) (form : List Datum) (i : Int) :
    Except Failure (Datum × List Datum) :=
  match argument name form i with
  | .error e => .error e
  | .ok x =>
    match x.quotedList? with
    | some xs => .ok (x, xs)
    | none => .error (.type (.notQuotedList name x))

def run (name : Name) (form : List Datum) : Check → Except Failure Unit
  | .count n =>
    let found : Int := (form.length : Int) - 1
    if found = n then .ok () else .error (.type (.argumentCount name n found form))
  | .kind i k =>
    match argument name form i with
    | .error e => .error e
    | .ok x => if x.kind = k then .ok () else .error (.type (.wrongKind name x k))
  | .quotedList i =>
    match quotedListAt name form i with
    | .error e => .error e
    | .ok _ => .ok ()
  | .nonEmptyList i =>
    match quotedListAt name form i with
    | .error e => .error e
    | .ok (x, xs) => if xs.isEmpty then .error (.type (.emptyList name x)) else .ok ()

def runAll (name : Name) (form : List Datum) : List Check → Except Failure Unit
  | [] => .ok ()
  | c :: cs =>
    match c.run name form with
    | .error e => .error e
    | .ok () => runAll name form cs

end Check

end CellScheme
