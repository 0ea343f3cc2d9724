import CellScheme.Named
import CellScheme.Store.Basic

/-!
Scopes: the global frame and, innermost first, the frames of the calls in progress. A guard
remembers how deep the chain was below its frame, and releases down to that depth once.
-/

namespace CellScheme

structure Frame where
  name : String
  bindings : Named Node
deriving Repr, Inhabited

namespace Frame

def empty (name : String) : Frame := ⟨name, .empty⟩

def find? (f : Frame) (name : Name) : Option Node :=
  f.bindings.find? name

/-- Bind a name. An earlier value is not given up. -/
def set (f : Frame) (name : Name) (x : Node) : Frame :=
  { f with bindings := f.bindings.insert name x }

end Frame

structure Scopes where
  global : Frame
  inner : List Frame
deriving Repr, Inhabited

namespace Scopes

def depth (s : Scopes) : Nat :=
  s.inner.length + 1

def find? (s : Scopes) (name : Name) : Option Node :=
  (s.inner.findSome? fun f => f.find? name).orElse fun _ => s.global.find? name

def top (s : Scopes) : Frame :=
  s.inner.headD s.global

def setTop (s : Scopes) (name : Name) (x : Node) : Scopes :=
  match s.inner with
  | [] => { s with global := s.global.set name x }
  | f :: fs => { s with inner := f.set name x :: fs }

def setGlobal (s : Scopes) (name : Name) (x : Node) : Scopes :=
  { s with global := s.global.set name x }

def frames (s : Scopes) : List Frame :=
  s.inner ++ [s.global]

/-- Cut the chain down to `size` frames, and tell which frames went. The global frame stays. -/
def truncate (s : Scopes) (size : Nat) : Scopes × List Frame :=
  let gone := s.depth - max size 1
  ({ s with inner := s.inner.drop gone }, s.inner.take gone)

end Scopes

/-- The depth of the chain below a pushed frame, and whether the guard has been used. -/
structure Guard where
  depth : Nat
  done : Bool
deriving DecidableEq, Repr, Inhabited

def Scopes.push (s : Scopes) (f : Frame) : Scopes × Guard :=
  ({ s with inner := f :: s.inner }, ⟨s.depth, false⟩)

/-- Give up all that a frame binds. -/
def Store.dropFrame (st : Store) (f : Frame) : Store :=
  f.bindings.values.foldl Store.drop st

end CellScheme
