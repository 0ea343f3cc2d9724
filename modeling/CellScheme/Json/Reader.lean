import CellScheme.Json.Numeral
import CellScheme.Text.Utf8

/-!
Reading JSON text. Only the first value of a text is read, so what follows it does not matter.

A value is read into a place. An empty place takes any value. The value under a key that has been
there before is read into the value that it has: a string, a number or a truth value takes a value
of its own kind, an object takes more members, and an array takes elements into the places that it
has and no others. Null empties every place.
-/

namespace CellScheme.Json

def isSpace (b : UInt8) : Bool :=
  b < 33

def skipSpace (bs : Bytes) : Bytes :=
  bs.dropWhile isSpace

def depthLimit : Nat := 1024

def expect (w : String) (bs : Bytes) : Option Bytes :=
  let front := Text.utf8 w
  if front.isPrefixOf bs then some (bs.drop front.length) else none

def expectMark (c : Char) (bs : Bytes) : Option Bytes :=
  match skipSpace bs with
  | [] => none
  | b :: rest => if b = c.toUInt8 then some rest else none

def simpleEscape? (b : UInt8) : Option UInt8 :=
  match Char.ofNat b.toNat with
  | '\x22' => some 0x22
  | '\x27' => some 0x27
  | '\x5c' => some 0x5C
  | '/' => some 0x2F
  | 'b' => some 0x08
  | 'f' => some 0x0C
  | 'n' => some 0x0A
  | 'r' => some 0x0D
  | 't' => some 0x09
  | _ => none

def unit? (a b c d : UInt8) : Option Nat := do
  let a ← Text.hexDigit? (Char.ofNat a.toNat)
  let b ← Text.hexDigit? (Char.ofNat b.toNat)
  let c ← Text.hexDigit? (Char.ofNat c.toNat)
  let d ← Text.hexDigit? (Char.ofNat d.toNat)
  return ((a * 16 + b) * 16 + c) * 16 + d

def isHighSurrogate (n : Nat) : Bool := 0xD800 ≤ n && n ≤ 0xDBFF

def isLowSurrogate (n : Nat) : Bool := 0xDC00 ≤ n && n ≤ 0xDFFF

def isSurrogate (n : Nat) : Bool := isHighSurrogate n || isLowSurrogate n

def replacement : Char := '\ufffd'

def joinUnits (n m : Nat) : Char :=
  if isHighSurrogate n && isLowSurrogate m then
    Char.ofNat (0x10000 + (n - 0xD800) * 0x400 + (m - 0xDC00))
  else replacement

/-- The character of a surrogate and the six bytes after it, which are another escape or not. -/
def partner (n : Nat) (e u a b c d : UInt8) : Char :=
  match unit? a b c d with
  | some m => if e = 0x5C && u = 'u'.toUInt8 then joinUnits n m else replacement
  | none => replacement

def stringBody : Bytes → Option (Bytes × Bytes)
  | [] => none
  | 0x22 :: rest => some ([], rest)
  | 0x5C :: 0x75 :: a :: b :: c :: d :: rest =>
    match unit? a b c d with
    | none => (stringBody rest).map fun (s, rest) => (String.utf8EncodeChar replacement ++ s, rest)
    | some n =>
      if isSurrogate n then
        match rest with
        | e :: u :: a' :: b' :: c' :: d' :: rest =>
          (stringBody rest).map fun (s, rest) =>
            (String.utf8EncodeChar (partner n e u a' b' c' d') ++ s, rest)
        | _ => none
      else
        (stringBody rest).map fun (s, rest) => (String.utf8EncodeChar (Char.ofNat n) ++ s, rest)
  | 0x5C :: c :: rest =>
    match simpleEscape? c with
    | none => none
    | some e => (stringBody rest).map fun (s, rest) => (e :: s, rest)
  | c :: rest => if c = 0x5C then none else (stringBody rest).map fun (s, rest) => (c :: s, rest)

def numeralBytes (bs : Bytes) : Bytes × Bytes :=
  (bs.takeWhile isNumeralByte, bs.dropWhile isNumeralByte)

/-- Read text where text has to stand: a string, or a word or numeral as it is written. Null is the
empty text. -/
def textual (bs : Bytes) : Option (Bytes × Bytes) :=
  match skipSpace bs with
  | [] => none
  | b :: rest =>
    if b = 0x22 then stringBody rest
    else if b = 'n'.toUInt8 then (expect "ull" rest).map fun rest => ([], rest)
    else if b = 't'.toUInt8 then (expect "rue" rest).map fun rest => (Text.utf8 "true", rest)
    else if b = 'f'.toUInt8 then (expect "alse" rest).map fun rest => (Text.utf8 "false", rest)
    else some (numeralBytes (b :: rest))

/-- Read the bytes of a number where a number has to stand: a numeral, or all between quotes. -/
def numeric (bs : Bytes) : Option (Bytes × Bytes) :=
  match skipSpace bs with
  | [] => none
  | b :: rest =>
    if b = 0x22 then
      match rest.dropWhile (· ≠ 0x22) with
      | [] => none
      | _ :: after => some (rest.takeWhile (· ≠ 0x22), after)
    else some (numeralBytes (b :: rest))

/-- Read the rest of a truth value after its first byte; null is false. -/
def truthRest (b : UInt8) (rest : Bytes) : Option (Bool × Bytes) :=
  if b = 'f'.toUInt8 then (expect "alse" rest).map fun rest => (false, rest)
  else if b = 't'.toUInt8 then (expect "rue" rest).map fun rest => (true, rest)
  else if b = 'n'.toUInt8 then (expect "ull" rest).map fun rest => (false, rest)
  else none

/-- Read a truth value. As a key it may stand between quotes, of which the second is any byte. -/
def truth (asKey : Bool) (bs : Bytes) : Option (Bool × Bytes) :=
  match skipSpace bs with
  | [] => none
  | b :: rest =>
    if asKey && b = 0x22 then
      match rest with
      | [] => none
      | c :: rest =>
        match truthRest c rest with
        | some (v, _ :: rest) => some (v, rest)
        | _ => none
    else truthRest b rest

/-- Skip to the end of this many open containers, inside a string or not. Brackets and braces close
each other, and nothing else in a container is looked at. -/
def skipOpen : Nat → Bool → Bytes → Option Bytes
  | 0, false, bs => some bs
  | _, _, [] => none
  | level, true, b :: bs =>
    if b = 0x22 then skipOpen level false bs
    else if b = 0x5C then
      match bs with
      | [] => none
      | _ :: bs => skipOpen level true bs
    else skipOpen level true bs
  | level + 1, false, b :: bs =>
    if b = 0x22 then skipOpen (level + 1) true bs
    else if b = '['.toUInt8 || b = '\x7b'.toUInt8 then skipOpen (level + 2) false bs
    else if b = ']'.toUInt8 || b = '\x7d'.toUInt8 then skipOpen level false bs
    else skipOpen (level + 1) false bs

/-- Skip a value that has no place. What is no value is left where it is. -/
def skipValue (bs : Bytes) : Option Bytes :=
  match skipSpace bs with
  | [] => none
  | b :: rest =>
    if b = 0x22 then skipOpen 0 true rest
    else if b = '['.toUInt8 || b = '\x7b'.toUInt8 then skipOpen 1 false rest
    else if b = 'n'.toUInt8 then expect "ull" rest
    else if b = 't'.toUInt8 then expect "rue" rest
    else if b = 'f'.toUInt8 then expect "alse" rest
    else some (numeralBytes (b :: rest)).2

/-- How the parts of a container are written: one after the other, or as keys and values. -/
inductive Layout where
  | sequence
  | pairs
deriving DecidableEq, Repr

namespace Layout

def opening : Layout → Char
  | sequence => '['
  | pairs => '\x7b'

def closing : Layout → Char
  | sequence => ']'
  | pairs => '\x7d'

def isKey (l : Layout) (i : Nat) : Bool :=
  l = .pairs && i % 2 = 0

def separator (l : Layout) (i : Nat) : Option Char :=
  if i = 0 then none
  else if l = .pairs ∧ i % 2 = 1 then some ':'
  else some ','

end Layout

inductive Next where
  | done (rest : Bytes)
  | part (rest : Bytes)

/-- Take the mark in front of the part at a position, or the end of the container. -/
def Layout.next (l : Layout) (i : Nat) (bs : Bytes) : Option Next :=
  match skipSpace bs with
  | [] => none
  | b :: rest =>
    if b = ']'.toUInt8 || b = '\x7d'.toUInt8 then
      if b = l.closing.toUInt8 then some (.done rest) else none
    else
      match l.separator i with
      | none => some (.part (b :: rest))
      | some c => if b = c.toUInt8 then some (.part rest) else none

def Layout.enter (l : Layout) (depth : Nat) (bs : Bytes) : Option Bytes :=
  if depthLimit ≤ depth + 1 then none else expectMark l.opening bs

def Layout.ofStart? (bs : Bytes) : Option Layout :=
  match skipSpace bs with
  | [] => none
  | b :: _ =>
    if b = '['.toUInt8 then some .sequence
    else if b = '\x7b'.toUInt8 then some .pairs
    else none

/-- Read a value other than null and the containers into an empty place. -/
def scalar (bs : Bytes) : Option (Value × Bytes) :=
  match skipSpace bs with
  | [] => none
  | b :: rest =>
    if b = 0x22 then (stringBody rest).map fun (s, rest) => (.string s, rest)
    else if b = 't'.toUInt8 || b = 'f'.toUInt8 then
      (truthRest b rest).map fun (v, rest) => (.bool v, rest)
    else
      let (n, rest) := numeralBytes (b :: rest)
      if n.isEmpty then none else (numeral? n).map fun v => (v, rest)

def null? (bs : Bytes) : Option (Option Bytes) :=
  match skipSpace bs with
  | [] => none
  | b :: rest => if b = 'n'.toUInt8 then some (expect "ull" rest) else none

mutual
/-- Read one value, which stands inside `depth` containers and maybe as a key, into a place that
holds `old`; null is an empty place. The fuel bounds the number of nested calls, of which a byte
costs at most two. -/
def value : Nat → Nat → Bool → Value → Bytes → Option (Value × Bytes)
  | 0, _, _, _, _ => none
  | fuel + 1, depth, asKey, old, bs =>
    match null? bs with
    | some rest => rest.map fun rest => (.null, rest)
    | none =>
      match old with
      | .null =>
        match Layout.ofStart? bs with
        | some .sequence =>
          match Layout.enter .sequence depth bs with
          | none => none
          | some bs => (elements fuel (depth + 1) 0 bs).map fun (vs, rest) => (.array vs, rest)
        | some .pairs =>
          match Layout.enter .pairs depth bs with
          | none => none
          | some bs =>
            (members fuel (depth + 1) true [] bs).map fun (ms, rest) => (.object ms, rest)
        | none => scalar bs
      | .bool _ => (truth asKey bs).map fun (v, rest) => (.bool v, rest)
      | .int _ => (numeric bs).bind fun (n, rest) => (integer? n).map fun i => (.int i, rest)
      | .real _ => (numeric bs).bind fun (n, rest) => (real? n).map fun x => (.real x, rest)
      | .string _ => (textual bs).map fun (s, rest) => (.string s, rest)
      | .array vs =>
        match Layout.ofStart? bs with
        | none => none
        | some l =>
          match l.enter depth bs with
          | none => none
          | some bs => (places fuel (depth + 1) l 0 vs bs).map fun (vs, rest) => (.array vs, rest)
      | .object ms =>
        match Layout.enter .pairs depth bs with
        | none => none
        | some bs => (members fuel (depth + 1) true ms bs).map fun (ms, rest) => (.object ms, rest)

def elements : Nat → Nat → Nat → Bytes → Option (List Value × Bytes)
  | 0, _, _, _ => none
  | fuel + 1, depth, i, bs =>
    match Layout.next .sequence i bs with
    | none => none
    | some (.done rest) => some ([], rest)
    | some (.part bs) =>
      match value fuel depth false .null bs with
      | none => none
      | some (v, bs) => (elements fuel depth (i + 1) bs).map fun (vs, rest) => (v :: vs, rest)

/-- Read the parts of a container from a position on into the places that are left. Parts without a
place are skipped, and places without a part keep their values. -/
def places : Nat → Nat → Layout → Nat → List Value → Bytes → Option (List Value × Bytes)
  | 0, _, _, _, _, _ => none
  | fuel + 1, depth, l, i, olds, bs =>
    match l.next i bs with
    | none => none
    | some (.done rest) => some (olds, rest)
    | some (.part bs) =>
      match olds with
      | [] =>
        match skipValue bs with
        | none => none
        | some bs => places fuel depth l (i + 1) [] bs
      | old :: olds =>
        match value fuel depth (l.isKey i) old bs with
        | none => none
        | some (v, bs) =>
          (places fuel depth l (i + 1) olds bs).map fun (vs, rest) => (v :: vs, rest)

def members : Nat → Nat → Bool → List (Bytes × Value) → Bytes →
    Option (List (Bytes × Value) × Bytes)
  | 0, _, _, _, _ => none
  | fuel + 1, depth, first, ms, bs =>
    match Layout.next .pairs (if first then 0 else 2) bs with
    | none => none
    | some (.done rest) => some (ms, rest)
    | some (.part bs) =>
      match textual bs with
      | none => none
      | some (key, bs) =>
        match expectMark ':' bs with
        | none => none
        | some bs =>
          match value fuel depth false ((Value.lookup? key ms).getD .null) bs with
          | none => none
          | some (v, bs) => members fuel depth false (Value.put key v ms) bs
end

def Value.ofText? (text : String) : Option Value :=
  let bs := Text.utf8 text
  (value (2 * bs.length + 2) 0 false .null bs).map Prod.fst

end CellScheme.Json
