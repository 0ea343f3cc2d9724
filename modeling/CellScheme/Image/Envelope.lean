import CellScheme.Pack.Reader
import CellScheme.Pack.Writer

/-!
The envelope of an image: a map of the format's version, the hash of the definitions and the bytes
of the definitions. It may have other entries, and in any order.
-/

namespace CellScheme

structure Envelope where
  version : Int64
  sum : UInt64
  defs : Bytes
deriving DecidableEq, Repr, Inhabited

namespace Envelope

def versionKey : Bytes := Text.utf8 "v"

def sumKey : Bytes := Text.utf8 "sum"

def defsKey : Bytes := Text.utf8 "defs"

def write (e : Envelope) : Bytes :=
  Pack.mapHeader 3 ++ Pack.string versionKey ++ Pack.int e.version.toInt ++
    Pack.string sumKey ++ Pack.uint e.sum.toNat ++ Pack.string defsKey ++ Pack.binary e.defs

/-- Room for the longest string header, integer or binary header. -/
def headerRoom : Nat := 5

def numberRoom : Nat := 9

/-- A bound on the length of the written envelope. -/
def room (e : Envelope) : Nat :=
  1 + (headerRoom + 1) + numberRoom + (headerRoom + 3) + numberRoom + (headerRoom + 4) +
    headerRoom + e.defs.length

/-- An envelope before any of its entries has been read. -/
def blank : Envelope := ⟨0, 0, []⟩

/-- Read the value of one entry into its field, or skip it. -/
def readEntry (e : Envelope) (key bs : Bytes) : Pack.Result Envelope :=
  if key = versionKey then
    (Pack.readInt bs).map fun (v, rest) => ({ e with version := v }, rest)
  else if key = sumKey then
    (Pack.readUint bs).map fun (n, rest) => ({ e with sum := UInt64.ofNat n }, rest)
  else if key = defsKey then
    (Pack.readBinary bs).map fun (ds, rest) => ({ e with defs := ds }, rest)
  else (Pack.skip bs).map fun rest => (e, rest)

def readEntries (e : Envelope) : Nat → Bytes → Pack.Result Envelope
  | 0, bs => .ok (e, bs)
  | n + 1, bs =>
    match Pack.readKey bs with
    | .error err => .error err
    | .ok (key, bs) =>
      match readEntry e key bs with
      | .error err => .error err
      | .ok (e, bs) => readEntries e n bs

def read (bs : Bytes) : Pack.Result Envelope :=
  match Pack.readMapHeader bs with
  | .error err => .error err
  | .ok (n, bs) => readEntries blank n bs

end Envelope

end CellScheme
