import CellScheme.Console
import CellScheme.Settings.Basic

/-!
The command: settings, then an image to load, then an expression, a script or the loop, and at the
end the files that were asked for. Work is saved also if evaluation failed.
-/

namespace CellScheme

/-- How a run of the command ends. -/
structure Ending where
  code : Nat
  stdout : String
  stderr : String
  directory : Directory
deriving Repr

namespace Command

def machineFor (s : Settings) : Machine :=
  { Machine.standard with
    limit := s.maxDepth
    tracing := s.tracing
    before := if s.countCalls then ["count"] else [] }

/-- Where a run stands. -/
inductive Phase where
  | refused
  /-- Its image could not be loaded, and nothing is saved at its end. -/
  | unloaded
  /-- The expression or the script has been evaluated. -/
  | worked
  | looping
deriving DecidableEq, Repr

/-- A run in progress: the console, what went to standard error, and the exit code so far. -/
structure Run where
  console : Console
  stderr : String
  code : Nat
  phase : Phase
deriving Repr

namespace Run

def complain (r : Run) (message : String) : Run :=
  { r with stderr := r.stderr ++ message ++ "\n", code := if r.code = 0 then 1 else r.code }

def profile (r : Run) (path : String) : Run :=
  match r.console.directory.write path [] with
  | .error e => r.complain e.message
  | .ok directory => { r with console := { r.console with directory } }

def saveImage (r : Run) (path : String) : Run :=
  match r.console.machine.save r.console.directory path with
  | .error e => r.complain e.message
  | .ok directory => { r with console := { r.console with directory } }

def printCounts (r : Run) : Run :=
  let lines := r.console.calls.entries.map fun (name, n) =>
    "\t" ++ name.text ++ ": " ++ Text.natText n ++ "\n"
  { r with console := r.console.print ("Builtin calls:\n" ++ String.join lines) }

def script (fuel : Nat) (path : String) (r : Run) : Option String × Run :=
  match r.console.directory.read path with
  | .error e => (some e.message, r)
  | .ok bs =>
    let (stopped, console) := r.console.evalLine fuel (Text.ofUtf8 bs)
    (stopped.map Halt.message, { r with console })

/-- The expression, the script or the loop. A failed script is followed by the loop, unless the
command is to exit then. -/
def work (fuel : Nat) (s : Settings) (r : Run) : Run :=
  if s.command ≠ "" then
    let (stopped, console) := r.console.evalLine fuel s.command
    { r with console, code := if stopped.isSome then 1 else 0, phase := .worked }
  else
    match s.args with
    | [] => { r with phase := .looping }
    | path :: _ =>
      match r.script fuel path with
      | (none, r) => { r with phase := .worked }
      | (some message, r) =>
        if s.exitOnFail then { r.complain message with phase := .worked }
        else { r with phase := .looping }

def loadAndWork (fuel : Nat) (s : Settings) (r : Run) : Run :=
  if s.image = "" then r.work fuel s
  else
    match r.console.machine.load r.console.directory s.image with
    | .error e => { r.complain e.message with phase := .unloaded }
    | .ok machine => { r with console := { r.console with machine } }.work fuel s

def saveAll (s : Settings) (r : Run) : Run :=
  let r := if s.memProfile = "" then r else r.profile s.memProfile
  if s.save = "" then r else r.saveImage s.save

def conclude (s : Settings) (r : Run) : Run :=
  match r.phase with
  | .refused => r
  | .unloaded => if s.countCalls then r.printCounts else r
  | .worked | .looping =>
    let r := r.saveAll s
    if s.countCalls then r.printCounts else r

def ending (r : Run) : Ending :=
  ⟨r.code, r.console.out, r.stderr, r.console.directory⟩

end Run

/-- A run up to the point where it ends or reads the standard input. -/
def prepare (fuel : Nat) (s : Settings) (d : Directory) : Run :=
  let console := Console.ofMachine (machineFor s) d s.prompt s.json
  let r : Run := ⟨{ console with verbose := s.verbose }, "", 0, .refused⟩
  let r := if s.cpuProfile = "" then r else r.profile s.cpuProfile
  if r.code ≠ 0 then r else r.loadAndWork fuel s

def run (fuel : Nat) (s : Settings) (input : String) (d : Directory) : Ending :=
  let r := prepare fuel s d
  let r :=
    if r.phase = .looping then
      { r with console := r.console.loop fuel s.quiet s.plainLines input }
    else r
  (r.conclude s).ending

inductive StartError where
  | flag (cause : Settings.FlagError)
  | config (cause : Settings.ConfigError)
deriving DecidableEq, Repr

def settings (words : List String) (prompt : String) (terminal : Bool) :
    Except StartError Settings :=
  match Settings.initial.parse words with
  | .error e => .error (.flag e)
  | .ok s => ({ s with prompt }.validate terminal).mapError .config

def refuse (d : Directory) : StartError → Ending
  | .flag .help => ⟨0, "", "Usage of lispy:\n" ++ Settings.usage, d⟩
  | .flag e => ⟨2, "", e.message ++ "\nUsage of lispy:\n" ++ Settings.usage, d⟩
  | .config e =>
    ⟨1, "lispy command line help:\n",
      "lispy command line error: '" ++ e.message ++ "'\n" ++ Settings.usage, d⟩

def runWords (fuel : Nat) (words : List String) (input : String) (d : Directory) : Ending :=
  match settings words "" false with
  | .error e => refuse d e
  | .ok s => run fuel s input d

end Command

end CellScheme
