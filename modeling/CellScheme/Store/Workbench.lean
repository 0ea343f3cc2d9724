import CellScheme.Named
import CellScheme.Store.Equality

/-!
A store with named nodes, edited from outside: nodes are built, cloned, quoted, taken out of lists,
put into lists and given up.
-/

namespace CellScheme

inductive WorkStep where
  | build (h : String) (tree : Datum)
  | clone (h source : String)
  | requote (h source : String)
  | unquote (h source : String)
  | element (h source : String) (i : Nat)
  | append (h : String) (tree : Datum)
  | set (h : String) (i : Nat) (tree : Datum)
  | setHandle (h : String) (i : Nat) (source : String)
  | drop (h : String)
  | compare (a b : String)
deriving Repr

structure Workbench where
  store : Store
  handles : Named Node
deriving Repr, Inhabited

namespace Workbench

def empty : Workbench := ⟨.empty, .empty⟩

def find (w : Workbench) (name : String) : Node :=
  (w.handles.find? name).getD default

def bind (w : Workbench) (name : String) (r : Store × Node) : Workbench :=
  ⟨r.1, w.handles.insert name r.2⟩

def cloned (w : Workbench) (name : String) : Store × Node :=
  let x := w.find name
  (w.store.share x, x)

/-- Edit the elements of a list through one of its handles, which moves to a copy if the list has
other holders. -/
def editList (w : Workbench) (st : Store) (name : String) (f : List Node → List Node) :
    Workbench :=
  match w.find name with
  | .list c =>
    let (st, c) := st.ownSeq c
    ⟨st.editSeq c f, w.handles.insert name (.list c)⟩
  | _ => { w with store := st }

/-- One step. Handles that are overwritten and elements that are replaced are not given up. -/
def step (w : Workbench) : WorkStep → Workbench
  | .build h d => w.bind h (w.store.build d)
  | .clone h g => w.bind h (w.cloned g)
  | .requote h g =>
    let (st, x) := w.cloned g
    w.bind h (st.requote x)
  | .unquote h g => w.bind h (w.store.unquote (w.find g))
  | .element h g i =>
    match w.find g with
    | .list c =>
      match (w.store.elements c)[i]? with
      | some x => w.bind h (w.store.share x, x)
      | none => w
    | _ => w
  | .append h d =>
    let (st, x) := w.store.build d
    w.editList st h (· ++ [x])
  | .set h i d =>
    let (st, x) := w.store.build d
    w.editList st h (·.set i x)
  | .setHandle h i g =>
    let (st, x) := w.cloned g
    w.editList st h (·.set i x)
  | .drop h => ⟨w.store.drop (w.find h), w.handles.erase h⟩
  | .compare _ _ => w

/-- What a comparison reports: equality and identity. -/
def verdict? (w : Workbench) : WorkStep → Option (Bool × Bool)
  | .compare a b =>
    some (w.store.equal (w.find a) (w.find b), w.store.identical (w.find a) (w.find b))
  | _ => none

end Workbench

end CellScheme
