import CellScheme.Json.Value

/-!
Numerals. A numeral is any run of digits, signs, points and exponent marks, and an empty count or
exponent is zero. A run of digits that makes a 64-bit integer is that integer, also with leading
zeros; every other numeral is a double.

A numeral is scanned for a short form first: a mantissa and a power of ten. The scan counts digits
in eight bits, and its counts wrap. A numeral whose mantissa or power does not fit is read by the
full rule instead.
-/

namespace CellScheme.Json

/-- What a scan may hold: digits are taken while the mantissa is below `cutoff`, and in the end the
mantissa has to be below `bound` and the power between two bounds. -/
structure Capacity where
  cutoff : Nat
  bound : Nat
  leastPower : Int8
  greatestPower : Int8
deriving Repr

/-- Doubles hold mantissas below `2 ^ 52` exactly, and powers of ten up to `10 ^ 22`; a short
mantissa leaves room for fifteen more. -/
def Capacity.real : Capacity := ⟨0xFFFFFFFFFFFFF, 0x10000000000000, -22, 37⟩

def Capacity.integer : Capacity := ⟨(UInt64.size - 1) / 10 + 1, UInt64.size, -19, 19⟩

/-- The digits scanned so far: how many there are after leading zeros, how many of them the mantissa
has, and where the point is, counted from the first of them. -/
structure Scan where
  mantissa : Nat
  seen : Int8
  taken : Int8
  point : Int8
  pointed : Bool
deriving Repr

def Scan.start : Scan := ⟨0, 0, 0, 0, false⟩

/-- Why a numeral has no short form. -/
inductive Fault where
  | malformed
  | long
deriving DecidableEq, Repr

def digit? (b : UInt8) : Option Nat :=
  if 0x30 ≤ b && b ≤ 0x39 then some (b.toNat - 0x30) else none

def isDigitByte (b : UInt8) : Bool :=
  (digit? b).isSome

def isMark (b : UInt8) : Bool :=
  b = 'e'.toUInt8 || b = 'E'.toUInt8

def isNumeralByte (b : UInt8) : Bool :=
  isDigitByte b || isMark b || b = '-'.toUInt8 || b = '+'.toUInt8 || b = '.'.toUInt8

def Scan.zero (cap : Capacity) (s : Scan) : Scan :=
  if s.seen = 0 then { s with point := s.point - 1 }
  else if s.mantissa < cap.cutoff then
    { s with seen := s.seen + 1, mantissa := 10 * s.mantissa, taken := s.taken + 1 }
  else { s with seen := s.seen + 1 }

def Scan.digit (cap : Capacity) (s : Scan) (d : Nat) : Except Fault Scan :=
  if s.mantissa < cap.cutoff ∧ 10 * s.mantissa + d < UInt64.size then
    .ok { s with seen := s.seen + 1, mantissa := 10 * s.mantissa + d, taken := s.taken + 1 }
  else .error .long

def Scan.run (cap : Capacity) (s : Scan) : Bytes → Except Fault (Scan × Option Bytes)
  | [] => .ok (s, none)
  | b :: bs =>
    if b = '.'.toUInt8 then
      if s.pointed then .error .malformed
      else Scan.run cap { s with pointed := true, point := s.seen } bs
    else if isMark b then .ok (s, some bs)
    else
      match digit? b with
      | none => .error .malformed
      | some 0 => Scan.run cap (s.zero cap) bs
      | some d =>
        match s.digit cap d with
        | .error e => .error e
        | .ok s => Scan.run cap s bs

def splitSign : Bytes → Bool × Bytes
  | [] => (false, [])
  | b :: bs =>
    if b = '-'.toUInt8 then (true, bs)
    else if b = '+'.toUInt8 then (false, bs)
    else (false, b :: bs)

def shortExponent (bs : Bytes) : Except Fault Int8 :=
  let (negative, ds) := splitSign bs
  if 2 < ds.length then .error .long
  else if ds.all isDigitByte then
    let e := ds.foldl (fun (e : Int8) d => 10 * e + Int8.ofNat (d.toNat - 0x30)) 0
    .ok (if negative then -e else e)
  else .error .malformed

def splitMinus : Bytes → Bool × Bytes
  | [] => (false, [])
  | b :: bs => if b = '-'.toUInt8 then (true, bs) else (false, b :: bs)

/-- The number `± mantissa * 10 ^ power`. -/
structure ShortForm where
  negative : Bool
  mantissa : Nat
  power : Int8
deriving Repr

def ShortForm.make (cap : Capacity) (negative : Bool) (s : Scan) (e : Int8) :
    Except Fault ShortForm :=
  let point := (if s.pointed then s.point else s.seen) + e
  let power := point - s.taken
  if s.mantissa = 0 then .ok ⟨negative, 0, 0⟩
  else if power < cap.leastPower ∨ cap.greatestPower < power ∨ cap.bound ≤ s.mantissa then
    .error .long
  else .ok ⟨negative, s.mantissa, power⟩

def ShortForm.of (cap : Capacity) (bs : Bytes) : Except Fault ShortForm :=
  let (negative, ds) := splitMinus bs
  match Scan.start.run cap ds with
  | .error e => .error e
  | .ok (s, none) => ShortForm.make cap negative s 0
  | .ok (s, some rest) =>
    match shortExponent rest with
    | .error e => .error e
    | .ok e => ShortForm.make cap negative s e

/-- Whether the double of a short form is found in two exact steps: a power above `10 ^ 22` needs a
mantissa that stays below `10 ^ 15` when it takes the rest of the power. -/
def ShortForm.isExact (f : ShortForm) : Bool :=
  f.power ≤ 22 || f.mantissa * Nat.pow 10 (f.power.toInt - 22).toNat ≤ 1000000000000000

def natOfBytes (ds : Bytes) : Nat :=
  ds.foldl (fun n d => 10 * n + (d.toNat - 0x30)) 0

def fullExponent? (bs : Bytes) : Option Int :=
  let (negative, ds) := splitSign bs
  if !ds.isEmpty && ds.all isDigitByte then
    let e : Int := natOfBytes ds
    some (if negative then -e else e)
  else none

def splitFraction : Bytes → Bytes × Bytes
  | [] => ([], [])
  | b :: bs =>
    if b = '.'.toUInt8 then (bs.takeWhile isDigitByte, bs.dropWhile isDigitByte) else ([], b :: bs)

def fullReal? (bs : Bytes) : Option Number.Binary64 :=
  let (negative, bs) := splitSign bs
  let whole := bs.takeWhile isDigitByte
  let (fraction, rest) := splitFraction (bs.dropWhile isDigitByte)
  let digits := natOfBytes (whole ++ fraction)
  if whole.isEmpty && fraction.isEmpty then none
  else
    match rest with
    | [] => Number.Binary64.ofDecimal? negative digits (-fraction.length)
    | b :: rest =>
      if isMark b then
        (fullExponent? rest).bind fun e =>
          Number.Binary64.ofDecimal? negative digits (e - fraction.length)
      else none

def real? (bs : Bytes) : Option Number.Binary64 :=
  match ShortForm.of .real bs with
  | .error .malformed => none
  | .error .long => fullReal? bs
  | .ok f =>
    if f.isExact then Number.Binary64.ofDecimal? f.negative f.mantissa f.power.toInt
    else fullReal? bs

/-- Digits of a number below `2 ^ 64`. No digits are zero. -/
def plainNat? (bs : Bytes) : Option Nat :=
  let n := natOfBytes bs
  if bs.all isDigitByte && n < UInt64.size then some n else none

def signed (negative : Bool) (n : Nat) : Int :=
  if negative then -n else n

def numeral? (bs : Bytes) : Option Value :=
  let (negative, ds) := splitMinus bs
  match plainNat? ds with
  | some n => (Text.int64? (signed negative n)).map .int
  | none => (real? bs).map .real

/-- The integer of a short form, modulo `2 ^ 64`; none if it has a fraction. -/
def ShortForm.nat? (f : ShortForm) : Option Nat :=
  if f.power < 0 then
    let unit := Nat.pow 10 (-f.power.toInt).toNat
    if f.mantissa % unit = 0 then some (f.mantissa / unit) else none
  else some (f.mantissa * Nat.pow 10 f.power.toInt.toNat % UInt64.size)

/-- The natural number that a double is, if it is one below `2 ^ 52`: from there on a double has no
room for a fraction, and so does not show whether there was one. -/
def wholeNat? (x : Number.Binary64) : Option Nat :=
  match x.negative, x.toInt? with
  | false, some (.ofNat n) => if n < 0x10000000000000 then some n else none
  | _, _ => none

/-- The integer of a numeral without its minus. A short form with a fraction counts as the double
nearest to it, which is whole if the fraction is lost in rounding. -/
def integerPart? (ds : Bytes) : Option Nat :=
  match plainNat? ds with
  | some n => some n
  | none =>
    match ShortForm.of .integer ds with
    | .error _ => none
    | .ok f =>
      match f.nat? with
      | some n => some n
      | none => (real? ds).bind wholeNat?

/-- The integer of a numeral where an integer has to stand. An empty numeral is zero. -/
def integer? (bs : Bytes) : Option Int64 :=
  let (negative, ds) := splitMinus bs
  if negative && ds.isEmpty then none
  else (integerPart? ds).bind fun n => Text.int64? (signed negative n)

end CellScheme.Json
