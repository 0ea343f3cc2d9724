/-!
Decimal and hexadecimal numerals. Texts are lists of characters, so that readers and printers
recurse on the data.
-/

namespace CellScheme.Text

def isDigit (c : Char) : Bool :=
  '0' ≤ c && c ≤ '9'

/-- The canonical decimal numeral: no leading zeros, and one digit for zero. -/
def natChars (n : Nat) : List Char :=
  Nat.toDigits 10 n

def intChars (i : Int) : List Char :=
  if i < 0 then '-' :: natChars i.natAbs else natChars i.natAbs

def natText (n : Nat) : String :=
  String.ofList (natChars n)

def intText (i : Int) : String :=
  String.ofList (intChars i)

/-- The number that a run of decimal digits denotes, leading zeros included. -/
def natOfDigits (cs : List Char) : Nat :=
  cs.foldl (fun n c => 10 * n + (c.toNat - '0'.toNat)) 0

def intOfLiteral : List Char → Int
  | '-' :: cs => -(natOfDigits cs : Int)
  | cs => natOfDigits cs

def minInt64 : Int := -0x8000000000000000

def maxInt64 : Int := 0x7FFFFFFFFFFFFFFF

/-- The 64-bit integer of this value, if there is one. -/
def int64? (i : Int) : Option Int64 :=
  if minInt64 ≤ i ∧ i ≤ maxInt64 then some (Int64.ofInt i) else none

/-- Lower-case hexadecimal digits, padded with zeros on the left to a given width. -/
def hexChars (width n : Nat) : List Char :=
  let ds := Nat.toDigits 16 n
  List.replicate (width - ds.length) '0' ++ ds

def hexDigit? (c : Char) : Option Nat :=
  if '0' ≤ c ∧ c ≤ '9' then some (c.toNat - '0'.toNat)
  else if 'a' ≤ c ∧ c ≤ 'f' then some (c.toNat - 'a'.toNat + 10)
  else if 'A' ≤ c ∧ c ≤ 'F' then some (c.toNat - 'A'.toNat + 10)
  else none

end CellScheme.Text
