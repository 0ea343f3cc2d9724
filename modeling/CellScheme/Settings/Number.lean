import CellScheme.Text.Decimal

/-!
Integers on the command line: a sign, a base mark (`0x`, `0b`, `0o`, or a leading zero for octal),
and digits, between which single underscores may stand.
-/

namespace CellScheme.Settings

inductive NumberError where
  | malformed
  | outOfRange
deriving DecidableEq, Repr

def NumberError.message : NumberError → String
  | malformed => "parse error"
  | outOfRange => "value out of range"

def digitValue? (c : Char) : Option Nat :=
  if '0' ≤ c ∧ c ≤ '9' then some (c.toNat - '0'.toNat)
  else if 'a' ≤ c ∧ c ≤ 'z' then some (c.toNat - 'a'.toNat + 10)
  else if 'A' ≤ c ∧ c ≤ 'Z' then some (c.toNat - 'A'.toNat + 10)
  else none

/-- The base that a numeral announces, and the digits after the announcement. -/
def splitBase (cs : List Char) : Nat × List Char :=
  match cs with
  | '0' :: m :: d :: ds =>
    match m.toLower with
    | 'b' => (2, d :: ds)
    | 'o' => (8, d :: ds)
    | 'x' => (16, d :: ds)
    | _ => (8, m :: d :: ds)
  | '0' :: ds => (8, ds)
  | ds => (10, ds)

/-- Accumulate digits, underscores skipped. The first digit that leads out of 64 bits or is no digit
of the base decides the error. -/
def accumulate (base n : Nat) : List Char → Except NumberError Nat
  | [] => .ok n
  | '_' :: cs => accumulate base n cs
  | c :: cs =>
    match digitValue? c with
    | none => .error .malformed
    | some d =>
      if base ≤ d then .error .malformed
      else if UInt64.size ≤ base * n + d then .error .outOfRange
      else accumulate base (base * n + d) cs

/-- Underscores stand after a digit, or the base mark, and before a digit. `after` tells whether a
digit came last, `under` whether an underscore did. -/
def underscoresFit (hex after under : Bool) : List Char → Bool
  | [] => !under
  | c :: cs =>
    if Text.isDigit c || (hex && (Text.hexDigit? c).isSome) then underscoresFit hex true false cs
    else if c = '_' then after && underscoresFit hex false true cs
    else !under && underscoresFit hex false false cs

def separatorsFit (cs : List Char) : Bool :=
  match cs with
  | '0' :: m :: ds =>
    match m.toLower with
    | 'b' | 'o' => underscoresFit false true false ds
    | 'x' => underscoresFit true true false ds
    | _ => underscoresFit false false false cs
  | _ => underscoresFit false false false cs

def magnitude (cs : List Char) : Except NumberError Nat :=
  if cs.isEmpty then .error .malformed
  else
    let (base, ds) := splitBase cs
    match accumulate base 0 ds with
    | .error e => .error e
    | .ok n => if ds.contains '_' && !separatorsFit cs then .error .malformed else .ok n

def parseInt (s : String) : Except NumberError Int :=
  let (negative, cs) := match s.toList with
    | '-' :: cs => (true, cs)
    | '+' :: cs => (false, cs)
    | cs => (false, cs)
  match magnitude cs with
  | .error e => .error e
  | .ok n =>
    let i : Int := if negative then -(n : Int) else n
    if (Text.int64? i).isSome then .ok i else .error .outOfRange

def parseBool? (s : String) : Option Bool :=
  if ["1", "t", "T", "TRUE", "true", "True"].contains s then some true
  else if ["0", "f", "F", "FALSE", "false", "False"].contains s then some false
  else none

end CellScheme.Settings
