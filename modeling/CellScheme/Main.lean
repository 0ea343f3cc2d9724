import CellScheme.Command

/-!
The executable. It reads the files that a run may look at into a directory value, lets the library
do the work, and writes back the files that changed.
-/

namespace CellScheme.Main

/-- Layers of evaluation, more than any stack holds. -/
def fuel : Nat := 1000000000

/-- Look at one path of the disk. What exists and cannot be read as a file is a directory. -/
def probe (d : Directory) (way : List String) : IO Directory := do
  let path := Directory.key way
  try
    let content ← IO.FS.readBinFile path
    return d.place path content.toList
  catch e =>
    match e with
    | .noFileOrDirectory _ _ _ => return d
    | _ => return d.mkdir path

def probeWay (d : Directory) (done : List String) : List String → IO Directory
  | [] => return d
  | s :: rest => do
    let done := done ++ [s]
    probeWay (← probe d done) done rest

/-- Read all that these paths lead to. -/
def snapshot (d : Directory) (paths : List String) : IO Directory :=
  paths.foldlM (fun d p => probeWay d [] (Directory.resolve p)) d

def writeBack (old new : Directory) : IO Unit :=
  for (path, content) in new.files do
    if (old.read path).toOption != some content then
      IO.FS.writeBinFile path (ByteArray.mk content.toArray)

def pathsIn (line : String) : List String :=
  match Console.Directive.ofLine? line with
  | some (.save, path) | some (.load, path) => [path]
  | _ => []

def flush (c : Console) : IO Console := do
  let stdout ← IO.getStdout
  stdout.putStr c.out
  stdout.flush
  return { c with out := "" }

/-- The loop, one line of the standard input at a time. -/
partial def converse (stdin : IO.FS.Stream) (c : Console) : IO Console := do
  let c ← flush c
  match Text.lines (← stdin.getLine) with
  | [] => return c.feed fuel []
  | line :: _ => do
    let before ← snapshot c.directory (pathsIn line)
    let (c, goesOn) := { c with directory := before }.step fuel line
    writeBack before c.directory
    if goesOn then converse stdin c else return c

def runSettings (stdin : IO.FS.Stream) (s : Settings) : IO Ending := do
  let paths := [s.cpuProfile, s.memProfile, s.image, s.save, Console.historyFile] ++ s.args.take 1
  let before ← snapshot .empty (paths.filter (· ≠ ""))
  let r := Command.prepare fuel s before
  let r ← if r.phase = .looping then do
      let console ← converse stdin (r.console.start s.quiet s.plainLines)
      pure { r with console := console.writeHistory }
    else pure r
  let r := r.conclude s
  writeBack before r.console.directory
  return r.ending

def runCommand (words : List String) : IO UInt32 := do
  let stdin ← IO.getStdin
  let ending ← match Command.settings words "" (← stdin.isTty) with
    | .error e => pure (Command.refuse .empty e)
    | .ok s => runSettings stdin s
  IO.print ending.stdout
  IO.eprint ending.stderr
  return UInt32.ofNat ending.code

end CellScheme.Main

def main (words : List String) : IO UInt32 :=
  CellScheme.Main.runCommand words
