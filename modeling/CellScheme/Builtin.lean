import CellScheme.Named

/-!
Builtins: the native procedures by name, with the number of arguments under which they are offered.
-/

namespace CellScheme

/-- Integer operators. A name that is none of them can be registered and fails when it is used. -/
inductive IntOp where
  | add
  | sub
  | mul
  | div
  | unknown (name : String)
deriving DecidableEq, Repr, Inhabited

def IntOp.ofName (name : String) : IntOp :=
  match name with
  | "+" => .add
  | "-" => .sub
  | "*" => .mul
  | "/" => .div
  | _ => .unknown name

/-- Questions about the kind of a value. -/
inductive Query where
  | list
  | number
  | symbol
  | boolean
  | procedure
  | unknown (name : String)
deriving DecidableEq, Repr, Inhabited

def Query.ofName (name : String) : Query :=
  match name with
  | "list?" => .list
  | "number?" => .number
  | "symbol?" => .symbol
  | "boolean?" => .boolean
  | "procedure?" => .procedure
  | _ => .unknown name

inductive Native where
  | car
  | cdr
  | cons
  | identical
  | equal
  | atom
  | null
  | zero
  | eval
  | step (delta : Int64)
  | arith (op : IntOp)
  | query (q : Query)
deriving DecidableEq, Repr, Inhabited

structure Builtin where
  arity : Nat
  native : Native
deriving DecidableEq, Repr, Inhabited

namespace Builtin

def core : List (Name × Builtin) :=
  [("car", ⟨1, .car⟩), ("cdr", ⟨1, .cdr⟩), ("cons", ⟨2, .cons⟩), ("eq?", ⟨2, .identical⟩),
   ("atom?", ⟨1, .atom⟩), ("null?", ⟨1, .null⟩), ("zero?", ⟨1, .zero⟩), ("add1", ⟨1, .step 1⟩),
   ("sub1", ⟨1, .step (-1)⟩), ("eval", ⟨1, .eval⟩)]

def arithmetic : List (Name × Builtin) :=
  [("+", ⟨2, .arith .add⟩), ("-", ⟨2, .arith .sub⟩), ("*", ⟨2, .arith .mul⟩),
   ("/", ⟨2, .arith .div⟩), ("equal?", ⟨2, .equal⟩)]

def queries : List (Name × Builtin) :=
  [("list?", ⟨1, .query .list⟩), ("number?", ⟨1, .query .number⟩),
   ("symbol?", ⟨1, .query .symbol⟩), ("boolean?", ⟨1, .query .boolean⟩),
   ("procedure?", ⟨1, .query .procedure⟩)]

def all : List (Name × Builtin) :=
  core ++ arithmetic ++ queries

def table (bs : List (Name × Builtin)) : Named Builtin :=
  bs.foldl (fun t b => t.insert b.1 b.2) .empty

/-- The first name that two tables share. -/
def clash? (t u : Named Builtin) : Option Name :=
  u.names.find? t.contains

/-- Join tables of builtins that have no name in common; otherwise give a name that is there
twice. -/
def merge : List (Named Builtin) → Except Name (Named Builtin) :=
  List.foldlM (fun t u =>
    match clash? t u with
    | some name => .error name
    | none => .ok (u.entries.foldl (fun t b => t.insert b.1 b.2) t)) .empty

def mergeMessage (name : Name) : String :=
  "duplicate function '" ++ name.text ++ "' not allowed"

end Builtin

end CellScheme
