import CellScheme.Cell.Shelf
import CellScheme.Datum.Basic

/-!
Nodes and the store of their cells. A node is an expression whose parts are kept in counted cells:
the payload of a quote, the elements of a list, and the bound arguments, parameters and body of a
lambda. Two nodes may hold the same cells.
-/

namespace CellScheme

inductive Node where
  | int (value : Int64)
  | bool (value : Bool)
  | symbol (name : Name)
  | quote (payload : Nat)
  | list (elements : Nat)
  | lambda (bound params body : Nat)
  | builtin (name : Name)
deriving DecidableEq, Repr, Inhabited

namespace Node

def kind : Node → Kind
  | int _ => .int
  | bool _ => .bool
  | symbol _ => .symbol
  | quote _ => .quote
  | list _ => .list
  | lambda _ _ _ => .lambda
  | builtin _ => .builtin

def needsQuote : Node → Bool
  | symbol _ | list _ | quote _ => true
  | _ => false

end Node

/-- Three shelves: single nodes (payloads and bodies), sequences of nodes (elements and bound
arguments) and sequences of parameter names. -/
structure Store where
  nodes : Shelf Node
  seqs : Shelf (List Node)
  names : Shelf (List Name)
deriving Repr, Inhabited

namespace Store

def empty : Store := ⟨.empty, .empty, .empty⟩

def payload (st : Store) (c : Nat) : Node :=
  (st.nodes.value? c).getD default

def elements (st : Store) (c : Nat) : List Node :=
  (st.seqs.value? c).getD []

def params (st : Store) (c : Nat) : List Name :=
  (st.names.value? c).getD []

def allocNode (st : Store) (x : Node) : Store × Nat :=
  let (nodes, c) := st.nodes.alloc x
  ({ st with nodes }, c)

def allocSeq (st : Store) (xs : List Node) : Store × Nat :=
  let (seqs, c) := st.seqs.alloc xs
  ({ st with seqs }, c)

def allocNames (st : Store) (ns : List Name) : Store × Nat :=
  let (names, c) := st.names.alloc ns
  ({ st with names }, c)

/-- Change the counts of the cells that a node holds itself. -/
def addHolders (st : Store) (x : Node) (n : Int) : Store :=
  match x with
  | .quote c => { st with nodes := st.nodes.addHolders c n }
  | .list c => { st with seqs := st.seqs.addHolders c n }
  | .lambda b p k =>
    { nodes := st.nodes.addHolders k n
      seqs := st.seqs.addHolders b n
      names := st.names.addHolders p n }
  | _ => st

/-- Count one more holder of the node. The node itself is then a second handle. -/
def share (st : Store) (x : Node) : Store :=
  st.addHolders x 1

def shareAll (st : Store) (xs : List Node) : Store :=
  xs.foldl share st

/-- Give up a node. Cells inside the cells that it holds keep their counts. -/
def drop (st : Store) (x : Node) : Store :=
  st.addHolders x (-1)

/-- The counts of the cells that a node holds itself. -/
def refs (st : Store) : Node → List Int
  | .quote c => [st.nodes.holders c]
  | .list c => [st.seqs.holders c]
  | .lambda b p k => [st.seqs.holders b, st.names.holders p, st.nodes.holders k]
  | _ => []

/-- A sequence cell that may be edited for one of the holders of `c`. In a copy every element is
shared with the sequence that is copied. -/
def ownSeq (st : Store) (c : Nat) : Store × Nat :=
  if st.seqs.holders c = 1 then (st, c)
  else
    let st := st.shareAll (st.elements c)
    let (seqs, c) := st.seqs.own c
    ({ st with seqs }, c)

def editSeq (st : Store) (c : Nat) (f : List Node → List Node) : Store :=
  { st with seqs := st.seqs.edit c f }

def appendSeq (st : Store) (c : Nat) (xs : List Node) : Store :=
  st.editSeq c (· ++ xs)

def setElement (st : Store) (c i : Nat) (x : Node) : Store :=
  st.editSeq c (·.set i x)

def makeQuote (st : Store) (x : Node) : Store × Node :=
  let (st, c) := st.allocNode x
  (st, .quote c)

def makeList (st : Store) (xs : List Node) : Store × Node :=
  let (st, c) := st.allocSeq xs
  (st, .list c)

def makeLambda (st : Store) (bound : List Node) (params : List Name) (body : Node) :
    Store × Node :=
  let (st, b) := st.allocSeq bound
  let (st, p) := st.allocNames params
  let (st, k) := st.allocNode body
  (st, .lambda b p k)

/-- Quote a node that is sensitive to evaluation. -/
def requote (st : Store) (x : Node) : Store × Node :=
  if x.needsQuote then st.makeQuote x else (st, x)

/-- A counted handle on the node without its outer quote, if it has one. -/
def unquote (st : Store) : Node → Store × Node
  | .quote c =>
    let x := st.payload c
    (st.share x, x)
  | x => (st.share x, x)

def quotedList? (st : Store) : Node → Option Nat
  | .quote c =>
    match st.payload c with
    | .list l => some l
    | _ => none
  | _ => none

/-- The number of parameters of a lambda that still lack an argument. -/
def arity (st : Store) (bound params : Nat) : Int :=
  ((st.params params).length : Int) - (st.elements bound).length

mutual
/-- Build a node for a tree, all of its cells new and with one holder. -/
def build (st : Store) : Datum → Store × Node
  | .int v => (st, .int v)
  | .bool b => (st, .bool b)
  | .symbol name => (st, .symbol name)
  | .builtin name => (st, .builtin name)
  | .quote d =>
    let (st, x) := st.build d
    st.makeQuote x
  | .list ds =>
    let (st, xs) := st.buildSeq ds
    st.makeList xs
  | .lambda bound params body =>
    let (st, xs) := st.buildSeq bound
    let (st, x) := st.build body
    st.makeLambda xs params x
termination_by structural d => d

def buildSeq (st : Store) : List Datum → Store × List Node
  | [] => (st, [])
  | d :: ds =>
    let (st, x) := st.build d
    let (st, xs) := st.buildSeq ds
    (st, x :: xs)
termination_by structural ds => ds
end

end Store

end CellScheme
