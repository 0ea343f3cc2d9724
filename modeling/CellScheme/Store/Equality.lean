import CellScheme.Store.Basic
import CellScheme.Store.View

/-!
Two equalities of nodes. `equal` compares data by structure, and procedures by storage; `identical`
compares compound data by storage. Both use that nodes on the same cell are the same.
-/

namespace CellScheme.Store

def sameProcedure (st : Store) (b p k b' p' k' : Nat) : Bool :=
  k == k' && p == p' && (b == b' || ((st.elements b).isEmpty && (st.elements b').isEmpty))

def sameData (st : Store) : Nat → Node → Node → Bool
  | 0, _, _ => false
  | gas + 1, x, y =>
    match x, y with
    | .int a, .int b => a == b
    | .bool a, .bool b => a == b
    | .symbol a, .symbol b => a == b
    | .builtin a, .builtin b => a == b
    | .quote c, .quote d => c == d || st.sameData gas (st.payload c) (st.payload d)
    | .list c, .list d =>
      c == d || (let xs := st.elements c
        let ys := st.elements d
        xs.length == ys.length && (xs.zip ys).all fun (x, y) => st.sameData gas x y)
    | .lambda b p k, .lambda b' p' k' => st.sameProcedure b p k b' p' k'
    | _, _ => false

/-- If exactly one side is a quote, its payload is compared. -/
def equal (st : Store) (x y : Node) : Bool :=
  match x, y with
  | .quote c, .quote d => st.sameData st.gas (.quote c) (.quote d)
  | .quote c, y => st.sameData st.gas (st.payload c) y
  | x, .quote d => st.sameData st.gas x (st.payload d)
  | x, y => st.sameData st.gas x y

def identicalAt (st : Store) : Nat → Node → Node → Bool
  | 0, _, _ => false
  | gas + 1, x, y =>
    match x, y with
    | .quote c, .quote d => c == d || st.identicalAt gas (st.payload c) (st.payload d)
    | .list c, .list d => ((st.elements c).isEmpty && (st.elements d).isEmpty) || c == d
    | .lambda b p k, .lambda b' p' k' => st.sameProcedure b p k b' p' k'
    | .int a, .int b => a == b
    | .bool a, .bool b => a == b
    | .symbol a, .symbol b => a == b
    | .builtin a, .builtin b => a == b
    | _, _ => false

/-- Atoms are identical by value, lists and procedures by storage, quotes if their payloads are; any
two empty lists are identical. -/
def identical (st : Store) (x y : Node) : Bool :=
  st.identicalAt st.gas x y

end CellScheme.Store
