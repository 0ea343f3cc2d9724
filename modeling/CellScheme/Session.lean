import CellScheme.Image.File
import CellScheme.Machine.Run

/-!
A host's session: a machine, the directory it saves to, and the guards of the frames that the host
has pushed, in the order in which they were given out.
-/

namespace CellScheme

/-- Which builtins a machine starts with. -/
inductive BuiltinSet where
  | all
  | core
  | arithmetic
  | queries
  | none
deriving DecidableEq, Repr

def BuiltinSet.list : BuiltinSet → List (Name × Builtin)
  | all => Builtin.all
  | core => Builtin.core
  | arithmetic => Builtin.arithmetic
  | queries => Builtin.queries
  | none => []

structure Session where
  machine : Machine
  directory : Directory
  guards : List Guard
deriving Repr, Inhabited

namespace Session

variable {α : Type}

/-- A session with one hook before and one after each builtin if it is hooked. -/
def start (set : BuiltinSet) (limit : Int) (tracing hooked : Bool) : Session :=
  let m := Machine.withBuiltins (Builtin.table set.list)
  let hooks := fun label => if hooked then [label] else []
  { machine := { m with limit, tracing, before := hooks "pre", after := hooks "post" }
    directory := .empty
    guards := [] }

def run (s : Session) (a : Act α) : Except Halt α × Session :=
  let (r, machine) := s.machine.run a
  (r, { s with machine })

def modifyMachine (s : Session) (f : Machine → Machine) : Session :=
  { s with machine := f s.machine }

def bindTrees (st : Store) (f : Frame) : List (Name × Datum) → Store × Frame
  | [] => (st, f)
  | (name, d) :: rest =>
    let (st, x) := st.build d
    bindTrees st (f.set name x) rest

def push (s : Session) (name : String) (bindings : List (Name × Datum)) : Session :=
  let (store, f) := bindTrees s.machine.store (.empty name) bindings
  let (m, guard) := { s.machine with store }.push f
  { s with machine := m, guards := s.guards ++ [guard] }

/-- Release the guard with this number; there may be none. -/
def release (s : Session) (i : Nat) : Session :=
  match s.guards[i]? with
  | none => s
  | some g =>
    let (m, g) := s.machine.release g
    { s with machine := m, guards := s.guards.set i g }

/-- Bind a name globally to the value of a tree, without defining it. -/
def setGlobal (s : Session) (name : Name) (d : Datum) : Session :=
  let (store, x) := s.machine.store.build d
  { s with machine := { s.machine with store }.setGlobal name x }

def setTop (s : Session) (name : Name) (d : Datum) : Session :=
  let (store, x) := s.machine.store.build d
  { s with machine := { s.machine with store, scopes := s.machine.scopes.setTop name x } }

def save (s : Session) (path : String) : Except ImageFailure Session :=
  (s.machine.save s.directory path).map fun d => { s with directory := d }

def load (s : Session) (path : String) : Except ImageFailure Session :=
  (s.machine.load s.directory path).map fun m => { s with machine := m }

def editFile (s : Session) (path : String) (f : Bytes → Bytes) : Session :=
  match s.directory.read path with
  | .error _ => s
  | .ok bs => { s with directory := s.directory.place path (f bs) }

end Session

/-- Change one byte; a negative position counts from the end. -/
def Bytes.flip (bs : Bytes) (i : Int) (mask : UInt8) : Bytes :=
  let at_ : Int := if i < 0 then i + bs.length else i
  bs.modify at_.toNat (· ^^^ mask)

end CellScheme
