import CellScheme.Text.Decimal

/-!
Finite double-precision numbers, held exactly as a mantissa and a power of two. A decimal is
rounded to the nearest one, ties to the even mantissa, and a number is written with the fewest
decimal digits that round back to it. All arithmetic is on natural numbers.
-/

namespace CellScheme.Number

/-- The number `± mantissa * 2 ^ exponent`. A number made by `ofDecimal?` has a mantissa below
`2 ^ 53` and the smallest exponent that this allows, but none below `-1074`. -/
structure Binary64 where
  negative : Bool
  mantissa : Nat
  exponent : Int
deriving DecidableEq, Repr, Inhabited

namespace Binary64

def minExponent : Int := -1074

/-- The quotient rounded to the nearest integer, ties to even. -/
def roundDiv (num den : Nat) : Nat :=
  let q := num / den
  let r := num % den
  if 2 * r < den then q
  else if den < 2 * r then q + 1
  else if q % 2 = 0 then q else q + 1

def scaleUp (base : Nat) (e : Int) : Nat := Nat.pow base e.toNat

def mantissaAt (num den : Nat) (e : Int) : Nat :=
  roundDiv (num * scaleUp 2 (-e)) (den * scaleUp 2 e)

/-- The exponent at which `num / den` has a mantissa of 53 bits, or the least exponent. -/
def exponentOf (num den : Nat) : Int :=
  let guess : Int := (num.log2 : Int) - den.log2 - 53
  let large := scaleUp 2 53 * (den * scaleUp 2 guess)
  let e := if num * scaleUp 2 (-guess) < large then guess else guess + 1
  max e minExponent

def ofRatio? (negative : Bool) (num den : Nat) : Option Binary64 :=
  let e := exponentOf num den
  let m := mantissaAt num den e
  let x : Binary64 :=
    if m = scaleUp 2 53 then ⟨negative, scaleUp 2 52, e + 1⟩ else ⟨negative, m, e⟩
  if 971 < x.exponent then none else some x

def ofDecimal? (negative : Bool) (digits : Nat) (scale : Int) : Option Binary64 :=
  let size : Int := (Text.natChars digits).length
  if digits = 0 ∨ size + scale < -330 then some ⟨negative, 0, minExponent⟩
  else if 310 < size + scale then none
  else ofRatio? negative (digits * scaleUp 10 scale) (scaleUp 10 (-scale))

def toInt? (x : Binary64) : Option Int :=
  let num := x.mantissa * scaleUp 2 x.exponent
  let den := scaleUp 2 (-x.exponent)
  if num % den = 0 then
    let n : Int := num / den
    some (if x.negative then -n else n)
  else none

/-- Decimal digits and the power of ten of the first of them. -/
structure Decimal where
  digits : List Char
  power : Int
deriving Repr

/-- The least `k ≥ 1` with `den ≤ num * Nat.pow 10 k`, searched for `fuel` steps. -/
def leadingZeros (num den : Nat) : Nat → Nat → Nat
  | 0, k => k
  | fuel + 1, k => if den ≤ num * Nat.pow 10 k then k else leadingZeros num den fuel (k + 1)

def power (x : Binary64) : Int :=
  let num := x.mantissa * scaleUp 2 x.exponent
  let den := scaleUp 2 (-x.exponent)
  if den ≤ num then ((Text.natChars (num / den)).length : Int) - 1
  else -(leadingZeros num den 400 1 : Int)

/-- The decimal with `count` digits that is nearest to the number, ties to the even digit, if it
lies among the reals that round to the number. Everything is scaled to integers over a common
denominator; the neighbours below a power of two are closer, which the lower bound takes into
account. -/
def digitsAt? (x : Binary64) (p : Int) (count : Nat) : Option Nat :=
  let e := x.exponent - 2
  let step : Int := p - count + 1
  let unit := scaleUp 2 e * scaleUp 10 (-step)
  let grid := scaleUp 10 step * scaleUp 2 (-e)
  let value := 4 * x.mantissa * unit
  let gapBelow := if x.mantissa = scaleUp 2 52 ∧ minExponent < x.exponent then 1 else 2
  let low := (4 * x.mantissa - gapBelow) * unit
  let high := (4 * x.mantissa + 2) * unit
  let inside := fun (n : Nat) =>
    if x.mantissa % 2 = 0 then low ≤ n && n ≤ high else low < n && n < high
  let below := value / grid
  let above := below + 1
  let hitBelow := inside (below * grid)
  let hitAbove := inside (above * grid)
  if hitBelow && hitAbove then
    let missBelow := value - below * grid
    let missAbove := above * grid - value
    if missBelow < missAbove ∨ (missBelow = missAbove ∧ below % 2 = 0) then some below
    else some above
  else if hitBelow then some below
  else if hitAbove then some above
  else none

def searchDigits (x : Binary64) (p : Int) : Nat → Nat → Nat × Nat
  | 0, count => (count, (digitsAt? x p count).getD 0)
  | fuel + 1, count =>
    match digitsAt? x p count with
    | some n => (count, n)
    | none => searchDigits x p fuel (count + 1)

def dropTrailingZeros (cs : List Char) : List Char :=
  match (cs.reverse.dropWhile (· == '0')).reverse with
  | [] => ['0']
  | ds => ds

/-- The fewest digits that round back to the number, and of those the nearest. A decimal that
rounded up to the next power of ten has one digit more than asked for. -/
def shortest (x : Binary64) : Decimal :=
  if x.mantissa = 0 then ⟨['0'], 0⟩
  else
    let p := power x
    let found := searchDigits x p 16 1
    let ds := Text.natChars found.2
    ⟨dropTrailingZeros ds, p + ((ds.length : Int) - found.1)⟩

/-- How many places a number is written out positionally, and the least width of an exponent. -/
structure Layout where
  leastPower : Int
  powerLimit : Int
  exponentWidth : Nat

def messageLayout : Layout := ⟨-4, 6, 2⟩

def exponentChars (width : Nat) (p : Int) : List Char :=
  let ds := Text.natChars p.natAbs
  'e' :: (if p < 0 then '-' else '+') :: (List.replicate (width - ds.length) '0' ++ ds)

def positional (ds : List Char) (p : Int) : List Char :=
  if p < 0 then '0' :: '.' :: (List.replicate (p.natAbs - 1) '0' ++ ds)
  else
    let whole := p.toNat + 1
    if ds.length ≤ whole then ds ++ List.replicate (whole - ds.length) '0'
    else ds.take whole ++ '.' :: ds.drop whole

def scientific (layout : Layout) (ds : List Char) (p : Int) : List Char :=
  match ds with
  | [] => []
  | [d] => d :: exponentChars layout.exponentWidth p
  | d :: rest => d :: '.' :: (rest ++ exponentChars layout.exponentWidth p)

def chars (layout : Layout) (x : Binary64) : List Char :=
  let d := shortest x
  let body :=
    if d.power < layout.leastPower ∨ layout.powerLimit ≤ d.power then
      scientific layout d.digits d.power
    else positional d.digits d.power
  if x.negative then '-' :: body else body

def text (x : Binary64) : String :=
  String.ofList (x.chars messageLayout)

end Binary64

end CellScheme.Number
