import CellScheme.Datum.Basic
import CellScheme.Text.Decimal

/-!
The printed form of expressions. Integers, booleans, symbols, quotes and lists are printed in the
syntax that the reader accepts; procedures are printed as marks that it refuses.
-/

namespace CellScheme

/-- The name of the kind with this code, or the code itself where there is no such kind. -/
def Kind.label (code : Nat) : String :=
  match Kind.all[code]? with
  | some k => k.name
  | none => "Kind(" ++ Text.natText code ++ ")"

namespace Datum

mutual
def chars : Datum → List Char
  | .int v => Text.intChars v.toInt
  | .bool true => "true".toList
  | .bool false => "false".toList
  | .symbol name => name.chars
  | .quote d => '\x27' :: d.chars
  | .list xs => '(' :: (seqChars xs ++ [')'])
  | .lambda _ _ _ => "#<procedure>".toList
  | .builtin name => "#<builtin ".toList ++ name.chars ++ ['>']
termination_by structural d => d

/-- A sequence is printed with one space between neighbours and no brackets. -/
def seqChars : List Datum → List Char
  | [] => []
  | x :: xs => x.chars ++ tailChars xs
termination_by structural xs => xs

def tailChars : List Datum → List Char
  | [] => []
  | x :: xs => ' ' :: (x.chars ++ tailChars xs)
termination_by structural xs => xs
end

theorem chars_bool (b : Bool) :
    (Datum.bool b).chars = if b then "true".toList else "false".toList := by
  cases b <;> rfl

theorem chars_symbol (name : Name) : (Datum.symbol name).chars = name.chars := rfl

theorem chars_quote (d : Datum) : (Datum.quote d).chars = '\x27' :: d.chars := rfl

theorem chars_list (xs : List Datum) :
    (Datum.list xs).chars = '(' :: (seqChars xs ++ [')']) := rfl

theorem chars_lambda (bound : List Datum) (params : List Name) (body : Datum) :
    (Datum.lambda bound params body).chars = "#<procedure>".toList := rfl

theorem chars_builtin (name : Name) :
    (Datum.builtin name).chars = "#<builtin ".toList ++ name.chars ++ ['>'] := rfl

theorem seqChars_cons (x : Datum) (xs : List Datum) :
    seqChars (x :: xs) = x.chars ++ tailChars xs := rfl

theorem tailChars_cons (x : Datum) (xs : List Datum) :
    tailChars (x :: xs) = ' ' :: (x.chars ++ tailChars xs) := rfl

def print (d : Datum) : String :=
  String.ofList d.chars

def printSeq (ds : List Datum) : String :=
  String.ofList (seqChars ds)

def printForm (ds : List Datum) : String :=
  (Datum.list ds).print

/-- An absent expression is printed as the empty list. -/
def printOption : Option Datum → String
  | none => (Datum.list []).print
  | some d => d.print

end Datum

end CellScheme
