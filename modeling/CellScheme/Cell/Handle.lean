import CellScheme.Cell.Shelf
import CellScheme.Named

/-!
Handles on the cells of a shelf of lists. A handle may be on no cell: it then reads as the empty
list, and the first edit through it makes a cell.
-/

namespace CellScheme

/-- A handle on a cell, or on none. -/
abbrev Handle := Option Nat

namespace Handle

variable {α : Type}

def refs (s : Shelf (List α)) : Handle → Int
  | none => 0
  | some i => s.holders i

def content (s : Shelf (List α)) : Handle → List α
  | none => []
  | some i => (s.value? i).getD []

def make (s : Shelf (List α)) (xs : List α) : Shelf (List α) × Handle :=
  let (s, i) := s.alloc xs
  (s, some i)

def share (s : Shelf (List α)) : Handle → Shelf (List α) × Handle
  | none => (s, none)
  | some i => (s.share i, some i)

def own (s : Shelf (List α)) : Handle → Shelf (List α) × Handle
  | none => make s []
  | some i =>
    let (s, i) := s.own i
    (s, some i)

def append (s : Shelf (List α)) (h : Handle) (xs : List α) : Shelf (List α) × Handle :=
  match own s h with
  | (s, none) => (s, none)
  | (s, some i) => (s.edit i (· ++ xs), some i)

def release (s : Shelf (List α)) : Handle → Shelf (List α) × Handle
  | none => (s, none)
  | some i => (s.release i, none)

def same (a b : Handle) : Bool :=
  a.isSome && a == b

end Handle

/-- What can be done with named handles. -/
inductive HandleStep (α : Type) where
  | make (h : String) (elements : List α)
  | zero (h : String)
  | share (h source : String)
  | alias (h source : String)
  | append (h : String) (elements : List α)
  | own (h : String)
  | release (h : String)
  | same (h other : String)
deriving Repr

structure HandleTable (α : Type) where
  shelf : Shelf (List α)
  handles : Named Handle
deriving Repr

namespace HandleTable

variable {α : Type}

def empty : HandleTable α := ⟨.empty, .empty⟩

/-- A name that stands for no handle yet is a handle on no cell. -/
def find (t : HandleTable α) (name : String) : Handle :=
  (t.handles.find? name).getD none

def bind (t : HandleTable α) (name : String) (r : Shelf (List α) × Handle) : HandleTable α :=
  ⟨r.1, t.handles.insert name r.2⟩

/-- One step. A handle that is overwritten is not released. -/
def step (t : HandleTable α) : HandleStep α → HandleTable α
  | .make h xs => t.bind h (Handle.make t.shelf xs)
  | .zero h => t.bind h (t.shelf, none)
  | .share h g => t.bind h (Handle.share t.shelf (t.find g))
  | .alias h g => t.bind h (t.shelf, t.find g)
  | .append h xs => t.bind h (Handle.append t.shelf (t.find h) xs)
  | .own h => t.bind h (Handle.own t.shelf (t.find h))
  | .release h => t.bind h (Handle.release t.shelf (t.find h))
  | .same h _ => t.bind h (t.shelf, t.find h)

/-- What a step reports besides the handles. -/
def verdict? (t : HandleTable α) : HandleStep α → Option Bool
  | .same h g => some (Handle.same (t.find h) (t.find g))
  | _ => none

end HandleTable

end CellScheme
