import CellScheme.Settings.Number
import CellScheme.Text.Quoted

/-!
The settings of the command and the flags that set them. A flag is written with one or two dashes;
its value follows after an equals sign or, except for booleans, as the next word. Flags end at the
first word that is none.
-/

namespace CellScheme

structure Settings where
  cpuProfile : String
  memProfile : String
  exitOnFail : Bool
  countCalls : Bool
  command : String
  quiet : Bool
  tracing : Bool
  verbose : Bool
  /-- The greatest depth of calls; none if zero. -/
  maxDepth : Int
  json : Bool
  image : String
  save : String
  plainLines : Bool
  prompt : String
  /-- The words after the flags. -/
  args : List String
deriving DecidableEq, Repr, Inhabited

namespace Settings

def initial : Settings :=
  { cpuProfile := "", memProfile := "", exitOnFail := false, countCalls := false, command := ""
    quiet := false, tracing := false, verbose := false, maxDepth := 0, json := false
    image := "", save := "", plainLines := false, prompt := "", args := [] }

/-- How a flag sets its setting. -/
inductive Setter where
  | text (set : Settings → String → Settings)
  | number (set : Settings → Int → Settings)
  | switch (set : Settings → Bool → Settings)

def Setter.valueName : Setter → String
  | text _ => " string"
  | number _ => " int"
  | switch _ => ""

structure Flag where
  name : String
  setter : Setter
  usage : String

def flags : List Flag :=
  [⟨"c", .text fun s v => { s with command := v }, "expressions to evaluate"⟩,
   ⟨"countcalls", .switch fun s v => { s with countCalls := v },
     "count how many times each builtin is run"⟩,
   ⟨"cpuprofile", .text fun s v => { s with cpuProfile := v }, "write cpu profile to file"⟩,
   ⟨"exitonfail", .switch fun s v => { s with exitOnFail := v },
     "exit on failure instead of starting repl"⟩,
   ⟨"image", .text fun s v => { s with image := v },
     "load definitions from this image file at startup"⟩,
   ⟨"json", .switch fun s v => { s with json := v }, "print results as JSON"⟩,
   ⟨"maxdepth", .number fun s v => { s with maxDepth := v },
     "fail evaluation when calls nest deeper than this (0: no limit)"⟩,
   ⟨"memprofile", .text fun s v => { s with memProfile := v }, "write mem profile to file"⟩,
   ⟨"noliner", .switch fun s v => { s with plainLines := v },
     "read lines without line editing"⟩,
   ⟨"quiet", .switch fun s v => { s with quiet := v },
     "start repl without printing the banner"⟩,
   ⟨"save", .text fun s v => { s with save := v },
     "save definitions to this image file on exit"⟩,
   ⟨"trace", .switch fun s v => { s with tracing := v },
     "trace special forms and applications (very verbose)"⟩,
   ⟨"verbose", .switch fun s v => { s with verbose := v }, "time-stamped debug logging"⟩]

def usage : String :=
  String.join (flags.map fun f =>
    "  -" ++ f.name ++ f.setter.valueName ++ "\n    \t" ++ f.usage ++ "\n")

inductive FlagError where
  | badSyntax (word : String)
  | undefined (name : String)
  | noValue (name : String)
  | badValue (value name : String) (cause : NumberError)
  | badSwitch (value name : String)
  | help
deriving DecidableEq, Repr

def FlagError.message : FlagError → String
  | badSyntax word => "bad flag syntax: " ++ word
  | undefined name => "flag provided but not defined: -" ++ name
  | noValue name => "flag needs an argument: -" ++ name
  | badValue value name cause =>
    "invalid value " ++ Text.quoted value ++ " for flag -" ++ name ++ ": " ++ cause.message
  | badSwitch value name =>
    "invalid boolean value " ++ Text.quoted value ++ " for -" ++ name ++ ": parse error"
  | help => "flag: help requested"

/-- What a word on the command line is. -/
inductive Word where
  | plain
  | stop
  | flag (name : String) (value : Option String)
  | bad
deriving DecidableEq, Repr

/-- Split a flag's text at its first equals sign that is not its first character. -/
def splitValue (cs : List Char) : String × Option String :=
  match cs with
  | [] => ("", none)
  | c :: cs =>
    let name := String.ofList (c :: cs.takeWhile (· ≠ '='))
    match cs.dropWhile (· ≠ '=') with
    | [] => (name, none)
    | _ :: value => (name, some (String.ofList value))

def flagWord (cs : List Char) : Word :=
  match cs with
  | [] | '-' :: _ | '=' :: _ => .bad
  | cs =>
    let (name, value) := splitValue cs
    .flag name value

def Word.of (s : String) : Word :=
  match s.toList with
  | '-' :: '-' :: [] => .stop
  | '-' :: '-' :: cs => flagWord cs
  | '-' :: c :: cs => flagWord (c :: cs)
  | _ => .plain

def setValue (s : Settings) (f : Flag) (value : String) : Except FlagError Settings :=
  match f.setter with
  | .text set => .ok (set s value)
  | .number set =>
    match parseInt value with
    | .ok i => .ok (set s i)
    | .error e => .error (.badValue value f.name e)
  | .switch set =>
    match parseBool? value with
    | some b => .ok (set s b)
    | none => .error (.badSwitch value f.name)

def isSwitch (f : Flag) : Bool :=
  match f.setter with
  | .switch _ => true
  | _ => false

def findFlag (name : String) : Except FlagError Flag :=
  match flags.find? fun f => f.name == name with
  | some f => .ok f
  | none => .error (if name = "help" ∨ name = "h" then .help else .undefined name)

/-- Read flags from left to right; the last value of a repeated flag counts. -/
def parse (s : Settings) : List String → Except FlagError Settings
  | [] => .ok s
  | w :: ws =>
    match Word.of w with
    | .plain => .ok { s with args := w :: ws }
    | .stop => .ok { s with args := ws }
    | .bad => .error (.badSyntax w)
    | .flag name value =>
      match findFlag name with
      | .error e => .error e
      | .ok f =>
        match value, isSwitch f, ws with
        | some v, _, ws =>
          match s.setValue f v with
          | .error e => .error e
          | .ok s => s.parse ws
        | none, true, ws =>
          match s.setValue f "true" with
          | .error e => .error e
          | .ok s => s.parse ws
        | none, false, v :: ws =>
          match s.setValue f v with
          | .error e => .error e
          | .ok s => s.parse ws
        | none, false, [] => .error (.noValue name)

inductive ConfigError where
  | negativeDepth (depth : Int)
  | sameFile (path : String)
deriving DecidableEq, Repr

def ConfigError.message : ConfigError → String
  | negativeDepth depth => "-maxdepth must be >= 0, got " ++ Text.intText depth
  | sameFile path =>
    "-image and -save name the same file '" ++ path ++ "'; images are never overwritten"

def defaultPrompt : String := "lispy> "

/-- Check settings and fill in what was not set. Without a terminal there is no line editor. -/
def validate (s : Settings) (terminal : Bool) : Except ConfigError Settings :=
  if s.maxDepth < 0 then .error (.negativeDepth s.maxDepth)
  else if s.image ≠ "" ∧ s.image = s.save then .error (.sameFile s.save)
  else .ok { s with
    prompt := if s.prompt = "" then defaultPrompt else s.prompt
    plainLines := s.plainLines || !terminal }

end Settings

end CellScheme
