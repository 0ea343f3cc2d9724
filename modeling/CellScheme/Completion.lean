import CellScheme.Machine.SpecialForm

/-!
What the line editor offers to complete.
-/

namespace CellScheme

/-- The commands of the read-eval-print loop, with a space where an argument follows. -/
def commandWords : List String :=
  [".quit", ":q", ".ls", ".dump", ".json", ".unjson ", ".save ", ".load ", ".trace", ".untrace",
   ".verb"]

/-- An opening bracket, the start of a call of each special form and each builtin, and the
commands. -/
def completionWords (m : Machine) : List String :=
  let call := fun (name : Name) => "(" ++ name.text ++ " "
  "(" :: (SpecialForm.all.map fun f => call f.name) ++ m.builtins.names.map call ++ commandWords

end CellScheme
