import CellScheme.Completion
import CellScheme.Datum.Json
import CellScheme.Image.File
import CellScheme.Json.Reader
import CellScheme.Machine.Run
import CellScheme.Text.Line

/-!
The read-eval-print loop. The console takes one line at a time and keeps the lines of an expression
that is not complete yet; a line that starts with a command word is a command, and every other text
is a script of which each result is printed.
-/

namespace CellScheme

structure Console where
  machine : Machine
  directory : Directory
  out : String
  prompt : String
  json : Bool
  last : Option Node
  verbose : Bool
  /-- How often each builtin was called, if calls are counted. -/
  calls : Named Nat
  /-- The lines that the line editor remembers, if there is one. -/
  history : Option (List String)
  /-- The lines so far of an expression that is not complete. -/
  pending : Option String
deriving Repr, Inhabited

namespace Console

def print (c : Console) (s : String) : Console :=
  { c with out := c.out ++ s }

def printLine (c : Console) (s : String) : Console :=
  c.print (s ++ "\n")

def display (c : Console) (x : Node) : Console :=
  let d := c.machine.view x
  c.printLine (if c.json then d.jsonText else d.print)

def countCalls (calls : Named Nat) (events : Array Event) : Named Nat :=
  events.foldl (fun t e =>
    match e with
    | .before _ name _ _ => t.insert name ((t.find? name).getD 0 + 1)
    | _ => t) calls

def flushEvents (c : Console) : Console :=
  let (events, machine) := c.machine.takeEvents
  let c := { c with machine, calls := countCalls c.calls events }
  c.print (Event.traceText events)

def showAll (c : Console) (xs : List Node) : Console :=
  xs.foldl (fun c x => { c with last := some x }.display x) c

/-- Evaluate a script and print each result, then the reason if it stopped early. -/
def evalLine (fuel : Nat) (c : Console) (text : String) : Option Halt × Console :=
  let ((values, stopped), machine) := Machine.evalScript fuel c.machine text
  let c := { c with machine }.flushEvents.showAll values
  match stopped with
  | none => (none, c)
  | some h => (some h, { c.printLine h.message with machine := c.machine.clear })

inductive Directive where
  | quit
  | list
  | dump
  | json
  | unjson
  | save
  | load
  | trace
  | untrace
  | verbose
deriving DecidableEq, Repr

def Directive.ofWord? (w : String) : Option Directive :=
  match w with
  | ".quit" | ":q" => some .quit
  | ".ls" => some .list
  | ".dump" => some .dump
  | ".json" => some .json
  | ".unjson" => some .unjson
  | ".save" => some .save
  | ".load" => some .load
  | ".trace" => some .trace
  | ".untrace" => some .untrace
  | ".verb" => some .verbose
  | _ => none

def Directive.ofLine? (line : String) : Option (Directive × String) :=
  match Text.splitWord? line.toList with
  | none => none
  | some (w, arg) => (ofWord? (String.ofList w)).map fun c => (c, String.ofList arg)

def dumpText (m : Machine) (x : Node) : String :=
  let record := fun (type field fieldType value : String) =>
    "(lispy." ++ type ++ ")(lispy." ++ type ++ "\x7b\n\t" ++ field ++ ": (" ++ fieldType ++ ")(" ++
      value ++ "),\n\x7d)\n"
  match x with
  | .int v => record "SexpInt" "Val" "int64" (Text.intText v.toInt)
  | .bool b => record "SexpBool" "Val" "bool" (Datum.bool b).print
  | .symbol name => record "SexpSymbol" "Name" "string" (Text.quotedBytes name.bytes)
  | .builtin name => record "SexpBuiltin" "Name" "string" (Text.quotedBytes name.bytes)
  | _ => (m.view x).print ++ "\n"

def noResult : String := "no result yet."

def runUnjson (c : Console) (arg : String) : Console :=
  match Json.Value.ofText? arg with
  | none => c.printLine "error: json"
  | some v =>
    match Datum.ofJson v with
    | .error e => c.printLine ("error: " ++ e.message)
    | .ok d =>
      let (store, x) := c.machine.store.build d
      { c with machine := { c.machine with store }, last := some x }.printLine d.print

def runSave (c : Console) (path : String) : Console :=
  if path = "" then c.printLine "provide a file path to save the image to."
  else
    match c.machine.save c.directory path with
    | .error e => c.printLine e.message
    | .ok directory =>
      { c with directory }.printLine
        ("saved " ++ Text.natText c.machine.defined.length ++ " definition(s) to '" ++ path ++ "'")

def runLoad (c : Console) (path : String) : Console :=
  if path = "" then c.printLine "provide a file path to load the image from."
  else
    match c.machine.load c.directory path with
    | .error e => c.printLine e.message
    | .ok machine => { c with machine }.printLine ("loaded '" ++ path ++ "'")

def runList (c : Console) : Console :=
  let names := c.machine.defined.mergeSort fun a b => !decide (b < a)
  c.print (c.machine.showScopes ++ "user definitions: " ++ Name.spaced names ++ "\n")

def setTracing (c : Console) (on : Bool) : Console :=
  { c with machine := { c.machine with tracing := on } }.printLine
    (if on then "tracing on." else "tracing off.")

/-- Run a command other than the one that ends the loop. -/
def runDirective (c : Console) (cmd : Directive) (arg : String) : Console :=
  match cmd with
  | .quit => c
  | .list => c.runList
  | .dump =>
    match c.last with
    | none => c.printLine noResult
    | some x => c.print (dumpText c.machine x)
  | .json =>
    match c.last with
    | none => c.printLine noResult
    | some x => c.printLine (c.machine.view x).jsonText
  | .unjson => c.runUnjson arg
  | .save => c.runSave arg
  | .load => c.runLoad arg
  | .trace => c.setTracing true
  | .untrace => c.setTracing false
  | .verbose =>
    let c := { c with verbose := !c.verbose }
    c.printLine ("verbose: " ++ (Datum.bool c.verbose).print ++ ".")

def banner : String :=
  "lispy version 1.0.0\n" ++
    "press tab (repeatedly) to get completion suggestions. Ctrl-d or .quit to exit.\n"

def continuationPrompt : String := "... "

def historyLimit : Nat := 1000

/-- Remember a line, unless it is the same as the last one. -/
def pushHistory (lines : List String) (line : String) : List String :=
  if lines.getLast? = some line then lines
  else
    let lines := lines ++ [line]
    lines.drop (lines.length - historyLimit)

def remember (c : Console) (line : String) : Console :=
  { c with history := c.history.map fun lines => pushHistory lines line }

/-- Handle a complete text; tells whether the loop goes on. -/
def handle (fuel : Nat) (c : Console) (text : String) : Console × Bool :=
  if (Text.trim text.toList).isEmpty then (c, true)
  else
    match Directive.ofLine? text with
    | some (.quit, _) => (c, false)
    | some (cmd, arg) => (c.runDirective cmd arg, true)
    | none => ((c.evalLine fuel text).2, true)

/-- Take one line, and print the prompt for the next unless the loop ends. -/
def step (fuel : Nat) (c : Console) (line : String) : Console × Bool :=
  let text := match c.pending with
    | none => line
    | some before => before ++ "\n" ++ line
  let c := c.remember line
  if Datum.isIncomplete text then
    ({ c with pending := some text }.print continuationPrompt, true)
  else
    match handle fuel { c with pending := none } text with
    | (c, false) => (c, false)
    | (c, true) => (c.print c.prompt, true)

/-- Take lines until the loop ends. The end of input ends the last line. -/
def feed (fuel : Nat) (c : Console) : List String → Console
  | [] => c.print "\n"
  | line :: lines =>
    match c.step fuel line with
    | (c, false) => c
    | (c, true) => c.feed fuel lines

def historyFile : String := ".lispyhist"

/-- The lines remembered from earlier runs, up to the first that is wider than a stretch or is no
text. -/
def readHistory (d : Directory) : List String :=
  match d.read historyFile with
  | .error _ => []
  | .ok bs =>
    let known := (Text.stretches bs).takeWhile fun s => !s.goesOn && Text.isUtf8 s.bytes
    (known.drop (known.length - historyLimit)).map fun s => Text.ofUtf8 s.bytes

def writeHistory (c : Console) : Console :=
  match c.history with
  | none => c
  | some lines =>
    match c.directory.write historyFile (Text.utf8 (String.join (lines.map (· ++ "\n")))) with
    | .error _ => c
    | .ok directory => { c with directory }

def start (c : Console) (quiet plainLines : Bool) : Console :=
  let c := if quiet then c else c.print banner
  let c := if plainLines then c else { c with history := some (readHistory c.directory) }
  c.print c.prompt

/-- The whole loop on an input. The line editor takes every stretch of the input for a line. -/
def loop (fuel : Nat) (c : Console) (quiet plainLines : Bool) (input : String) : Console :=
  let lines := if plainLines then Text.lines input else Text.shortLines input
  ((c.start quiet plainLines).feed fuel lines).writeHistory

def ofMachine (m : Machine) (d : Directory) (prompt : String) (json : Bool) : Console :=
  { machine := m, directory := d, out := "", prompt, json, last := none, verbose := false
    calls := .empty, history := none, pending := none }

end Console

end CellScheme
