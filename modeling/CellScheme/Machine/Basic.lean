import CellScheme.Builtin
import CellScheme.Datum.Printer
import CellScheme.Failure
import CellScheme.Scope
import CellScheme.Store.View

/-!
The state of an interpreter: the store, the scopes, the builtins, the names that were defined, the
settings of evaluation, and a log of what happened.
-/

namespace CellScheme

/-- What evaluation reports while it runs. The depth is the number of frames at that moment. -/
inductive Event where
  | special (depth : Nat) (form : List Datum)
  | applied (depth : Nat) (params : List Name) (args : List Datum)
  | before (hook : String) (name : Name) (form : List Datum) (depth : Nat)
  | after (hook : String) (name : Name) (result : Datum) (depth : Nat)
deriving Repr, Inhabited

namespace Event

def indented (depth : Nat) (line : String) : String :=
  String.ofList (List.replicate (2 * (depth - 1)) ' ') ++ line ++ "\n"

def trace? : Event → Option String
  | special depth form => some (indented depth ("special form " ++ Datum.printForm form))
  | applied depth params args =>
    some (indented depth
      ("apply (" ++ Name.spaced params ++ ") <- " ++ Datum.printSeq args))
  | before _ _ _ _ | after _ _ _ _ => none

def traceText (events : Array Event) : String :=
  String.join (events.toList.filterMap trace?)

end Event

structure Machine where
  store : Store
  scopes : Scopes
  builtins : Named Builtin
  /-- The names bound by definitions, oldest first. -/
  defined : List Name
  /-- The greatest depth at which a call may start; no limit if it is not positive. -/
  limit : Int
  tracing : Bool
  /-- Hooks called before and after each builtin, by label. -/
  before : List String
  after : List String
  events : Array Event
deriving Repr, Inhabited

namespace Machine

def depth (m : Machine) : Nat :=
  m.scopes.depth

def view (m : Machine) (x : Node) : Datum :=
  m.store.view x

def log (m : Machine) (e : Event) : Machine :=
  { m with events := m.events.push e }

def takeEvents (m : Machine) : Array Event × Machine :=
  (m.events, { m with events := #[] })

def setGlobal (m : Machine) (name : Name) (x : Node) : Machine :=
  { m with scopes := m.scopes.setGlobal name x }

def define (m : Machine) (name : Name) (x : Node) : Machine :=
  { m with
    defined := if m.defined.contains name then m.defined else m.defined ++ [name]
    scopes := m.scopes.setGlobal name x }

def deleteGlobal (m : Machine) (name : Name) : Machine :=
  let g := m.scopes.global
  { m with scopes := { m.scopes with global := { g with bindings := g.bindings.erase name } } }

def push (m : Machine) (f : Frame) : Machine × Guard :=
  let (scopes, guard) := m.scopes.push f
  ({ m with scopes }, guard)

/-- Cut the scopes down to `size` frames and give up what the others bound. -/
def truncate (m : Machine) (size : Nat) : Machine :=
  let (scopes, gone) := m.scopes.truncate size
  { m with scopes, store := gone.foldl Store.dropFrame m.store }

def clear (m : Machine) : Machine :=
  m.truncate 1

/-- Use a guard: its frame and all frames above it go. A used guard does nothing. -/
def release (m : Machine) (g : Guard) : Machine × Guard :=
  if g.done then (m, g) else (m.truncate g.depth, { g with done := true })

/-- The parameter names of the procedure that stands for a builtin. The reader accepts no such
name, so they meet no name of a program. -/
def builtinParams (arity : Nat) : List Name :=
  (List.range arity).map fun i => Name.ofString ("#" ++ Text.natText (i + 1))

/-- The procedure that stands for a builtin: it calls the builtin with its parameters. -/
def builtinDatum (name : Name) (arity : Nat) : Datum :=
  let params := builtinParams arity
  .lambda [] params (.list (.builtin name :: params.map .symbol))

def addBuiltin (m : Machine) (name : Name) (b : Builtin) : Machine :=
  let (store, x) := m.store.build (builtinDatum name b.arity)
  { m with
    store
    builtins := m.builtins.insert name b
    scopes := m.scopes.setGlobal name x }

def blank : Machine :=
  { store := .empty
    scopes := ⟨.empty "global", []⟩
    builtins := .empty
    defined := []
    limit := 0
    tracing := false
    before := []
    after := []
    events := #[] }

def withBuiltins (table : Named Builtin) : Machine :=
  table.entries.foldl (fun m b => m.addBuiltin b.1 b.2) blank

theorem withBuiltins_ind {P : Machine → Prop} {table : Named Builtin} (hblank : P blank)
    (hadd : ∀ m, P m → ∀ b ∈ table.entries, P (m.addBuiltin b.1 b.2)) : P (withBuiltins table) :=
  List.foldlRecOn table.entries _ hblank hadd

def standard : Machine :=
  withBuiltins (Builtin.table Builtin.all)

/-- The innermost value of a name, as a new counted handle. -/
def find (m : Machine) (name : Name) : Machine × Option Node :=
  match m.scopes.find? name with
  | none => (m, none)
  | some x => ({ m with store := m.store.share x }, some x)

def showFrame (m : Machine) (indent : Nat) (isGlobal : Bool) (f : Frame) : String :=
  let margin := String.ofList (List.replicate indent ' ')
  let label := "scope " ++ f.name ++ if isGlobal then " (global)" else ""
  let lines := f.bindings.entries.map fun (name, x) =>
    margin ++ "   " ++ name.text ++ " -> " ++ (m.view x).print ++ "\n"
  margin ++ label ++ "\n" ++ String.join lines

def isAtGlobal (m : Machine) : Bool :=
  m.scopes.inner.isEmpty

def showTop (m : Machine) (indent : Nat) : String :=
  m.showFrame indent m.isAtGlobal m.scopes.top

def showScopes (m : Machine) : String :=
  "closure with " ++ Text.natText m.depth ++ " frame(s)\n" ++
    String.join (m.scopes.inner.map (m.showFrame 4 false)) ++ m.showFrame 4 true m.scopes.global

end Machine

end CellScheme
