import CellScheme.Bytes.Blake2b
import CellScheme.Directory
import CellScheme.Image.Definitions
import CellScheme.Image.Envelope
import CellScheme.Machine.Basic

/-!
Saving the definitions of a machine to an image file and loading them again. An existing file is
never overwritten, and an image that is not whole changes nothing.
-/

namespace CellScheme

/-- Failures of saving and loading. -/
inductive ImageFailure where
  | taken (path : String)
  | create (path : String) (cause : FileError)
  | absent (path : String)
  | file (cause : FileError)
  | corrupt (path : String) (cause : ImageError)
  | version (path : String) (found : Int64)
  | checksum (path : String) (stored computed : UInt64)
deriving DecidableEq, Repr

def imageVersion : Int64 := 1

def ImageFailure.message : ImageFailure → String
  | taken path => "error: refusing to write image to existing file '" ++ path ++ "'"
  | create path cause =>
    "error: could not create image file '" ++ path ++ "': '" ++ cause.message ++ "'"
  | absent path => "image file '" ++ path ++ "' does not exist"
  | file cause => cause.message
  | corrupt path cause => "image '" ++ path ++ "' is corrupt: " ++ cause.message
  | version path found =>
    "image '" ++ path ++ "' has version " ++ Text.intText found.toInt ++ ", want " ++
      Text.intText imageVersion.toInt
  | checksum path stored computed =>
    "image '" ++ path ++ "' checksum mismatch: stored " ++
      String.ofList (Text.hexChars 0 stored.toNat) ++ ", computed " ++
      String.ofList (Text.hexChars 0 computed.toNat)

namespace Machine

/-- The defined names with the trees of their global values. A name may have been deleted since. -/
def definitions (m : Machine) : List (Name × Option Datum) :=
  m.defined.map fun name => (name, (m.scopes.global.find? name).map m.view)

def image (m : Machine) : Bytes :=
  let defs := packDefinitions m.definitions
  (Envelope.mk imageVersion (Blake2b.hash defs) defs).write

def save (m : Machine) (d : Directory) (path : String) : Except ImageFailure Directory :=
  if d.hasFile path then .error (.taken path)
  else (d.write path m.image).mapError (.create path)

def readImage (path : String) (bs : Bytes) : Except ImageFailure (List (Name × Datum)) :=
  match Envelope.read bs with
  | .error e => .error (.corrupt path (.pack e))
  | .ok (e, _) =>
    if e.version ≠ imageVersion then .error (.version path e.version)
    else if Blake2b.hash e.defs ≠ e.sum then
      .error (.checksum path e.sum (Blake2b.hash e.defs))
    else
      match unpackDefinitions e.defs with
      | .error e => .error (.corrupt path e)
      | .ok (defs, _) => .ok defs

def defineDatum (m : Machine) (name : Name) (d : Datum) : Machine :=
  let (store, x) := m.store.build d
  { m with store }.define name x

/-- Define all names of an image in its order. -/
def load (m : Machine) (d : Directory) (path : String) : Except ImageFailure Machine :=
  if !d.hasFile path then .error (.absent path)
  else
    match d.read path with
    | .error e => .error (.file e)
    | .ok bs =>
      (readImage path bs).map fun defs => defs.foldl (fun m (name, x) => m.defineDatum name x) m

end Machine

end CellScheme
