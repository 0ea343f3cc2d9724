import CellScheme.Bytes.Word
import CellScheme.Named

/-!
A working directory as a value: files with their bytes, and directories below it.
-/

namespace CellScheme

inductive FileError where
  | missing (path : String)
  | isDirectory (path : String)
  | notDirectory (path : String)
  /-- A directory was opened and cannot be read. -/
  | unreadable (path : String)
  | tooLong (path : String)
  | invalid (path : String)
deriving DecidableEq, Repr

def FileError.message : FileError → String
  | missing path => "open " ++ path ++ ": no such file or directory"
  | isDirectory path => "open " ++ path ++ ": is a directory"
  | notDirectory path => "open " ++ path ++ ": not a directory"
  | unreadable path => "read " ++ path ++ ": is a directory"
  | tooLong path => "open " ++ path ++ ": file name too long"
  | invalid path => "open " ++ path ++ ": invalid argument"

inductive Entry where
  | file (content : Bytes)
  | directory
deriving DecidableEq, Repr, Inhabited

structure Directory where
  entries : Named Entry
deriving Repr, Inhabited

namespace Directory

def empty : Directory := ⟨.empty⟩

def steps (path : String) : List String :=
  (path.toList.splitOn '/').map String.ofList

/-- Where a step leads. Empty steps and single dots stay, and two dots go back. -/
def advance (here : List String) (step : String) : List String :=
  if step = "" ∨ step = "." then here
  else if step = ".." then
    match here.getLast? with
    | none | some ".." => here ++ [step]
    | some "" => here
    | some _ => here.dropLast
  else here ++ [step]

def origin (path : String) : List String :=
  if path.toList.head? = some '/' then [""] else []

/-- Where a path leads if all directories on the way exist. -/
def resolve (path : String) : List String :=
  (steps path).foldl advance (origin path)

def key (way : List String) : String :=
  String.intercalate "/" way

def entryAt? (d : Directory) (way : List String) : Option Entry :=
  if way.all (· = "") then some .directory else d.entries.find? (key way)

def stepLimit : Nat := 255

/-- A path has fewer bytes than this. -/
def pathLimit : Nat := 4096

/-- Follow steps, each of which has to start at a directory. -/
def walk (d : Directory) (path : String) (here : List String) :
    List String → Except FileError (List String)
  | [] => .ok here
  | s :: rest =>
    match d.entryAt? here with
    | some .directory =>
      if stepLimit < s.utf8ByteSize then .error (.tooLong path)
      else walk d path (advance here s) rest
    | some (.file _) => .error (.notDirectory path)
    | none => .error (.missing path)

def follow (d : Directory) (path : String) (steps : List String) : Except FileError (List String) :=
  if path.toList.contains '\x00' then .error (.invalid path)
  else if path = "" then .error (.missing path)
  else if pathLimit ≤ path.utf8ByteSize then .error (.tooLong path)
  else d.walk path (origin path) steps

def locate (d : Directory) (path : String) : Except FileError (List String) :=
  d.follow path (steps path)

def find? (d : Directory) (path : String) : Option Entry :=
  match d.locate path with
  | .error _ => none
  | .ok way => d.entryAt? way

def hasFile (d : Directory) (path : String) : Bool :=
  match d.find? path with
  | some (.file _) => true
  | _ => false

def read (d : Directory) (path : String) : Except FileError Bytes :=
  match d.locate path with
  | .error e => .error e
  | .ok way =>
    match d.entryAt? way with
    | none => .error (.missing path)
    | some .directory => .error (.unreadable path)
    | some (.file content) => .ok content

/-- The steps of a path without the empty ones at its end. -/
def stem (path : String) : List String :=
  ((steps path).reverse.dropWhile (· = "")).reverse

/-- Write a file, in the place of an earlier one. A path that ends in a slash names a directory,
whether or not there is one. -/
def write (d : Directory) (path : String) (content : Bytes) : Except FileError Directory :=
  match d.follow path (stem path) with
  | .error e => .error e
  | .ok way =>
    if (steps path).getLast? = some "" ∨ d.entryAt? way = some .directory then
      .error (.isDirectory path)
    else .ok ⟨d.entries.insert (key way) (.file content)⟩

def makeAll (d : Directory) (done : List String) : List String → Directory
  | [] => d
  | s :: rest =>
    let done := done ++ [s]
    makeAll ⟨d.entries.insert (key done) .directory⟩ done rest

def mkdir (d : Directory) (path : String) : Directory :=
  d.makeAll [] (resolve path)

/-- Put a file or, at a path that ends in a slash, a directory, with the directories on the way. -/
def place (d : Directory) (path : String) (content : Bytes) : Directory :=
  let way := resolve path
  if path.endsWith "/" then d.makeAll [] way
  else
    let d := d.makeAll [] way.dropLast
    ⟨d.entries.insert (key way) (.file content)⟩

def files (d : Directory) : List (String × Bytes) :=
  d.entries.entries.filterMap fun (path, e) =>
    match e with
    | .file content => some (path.text, content)
    | .directory => none

end Directory

end CellScheme
