import CellScheme.Store.Basic

/-!
The tree that a node stands for. Reading it follows cells, so it takes gas; in a store without
cycles the number of cells is enough.
-/

namespace CellScheme.Store

/-- The tree of a node, or nothing if the gas runs out or a cell is missing. -/
def view? (st : Store) : Nat → Node → Option Datum
  | 0, _ => none
  | gas + 1, x =>
    match x with
    | .int v => some (.int v)
    | .bool b => some (.bool b)
    | .symbol name => some (.symbol name)
    | .builtin name => some (.builtin name)
    | .quote c => (st.nodes.value? c).bind fun x => (st.view? gas x).map .quote
    | .list c => (st.seqs.value? c).bind fun xs => (xs.mapM (st.view? gas)).map .list
    | .lambda b p k =>
      match st.seqs.value? b, st.names.value? p, st.nodes.value? k with
      | some xs, some params, some x =>
        match xs.mapM (st.view? gas), st.view? gas x with
        | some bound, some body => some (.lambda bound params body)
        | _, _ => none
      | _, _, _ => none

/-- Gas for every path that repeats no cell. -/
def gas (st : Store) : Nat :=
  st.nodes.size + st.seqs.size + 1

def view (st : Store) (x : Node) : Datum :=
  (st.view? st.gas x).getD default

def viewSeq (st : Store) (xs : List Node) : List Datum :=
  xs.map st.view

end CellScheme.Store
