import CellScheme.Text.Decimal
import CellScheme.Text.Utf8

/-!
Reading MessagePack: each reader takes one value off the front of the bytes. Integers are read from
every integer form, signed or not.
-/

namespace CellScheme.Pack

/-- What the lead byte of a value says that the value is. -/
inductive Form where
  | invalid
  | int
  | uint
  | str
  | bin
  | map
  | array
  | float64
  | float32
  | bool
  | nil
  | ext
deriving DecidableEq, Repr

namespace Form

def name : Form → String
  | invalid => "<invalid>"
  | int => "int"
  | uint => "uint"
  | str => "str"
  | bin => "bin"
  | map => "map"
  | array => "array"
  | float64 => "float64"
  | float32 => "float32"
  | bool => "bool"
  | nil => "nil"
  | ext => "ext"

def ofLead (b : UInt8) : Form :=
  let n := b.toNat
  if n < 0x80 then .int
  else if n < 0x90 then .map
  else if n < 0xA0 then .array
  else if n < 0xC0 then .str
  else if n = 0xC0 then .nil
  else if n = 0xC1 then .invalid
  else if n ≤ 0xC3 then .bool
  else if n ≤ 0xC6 then .bin
  else if n ≤ 0xC9 then .ext
  else if n = 0xCA then .float32
  else if n = 0xCB then .float64
  else if n ≤ 0xCF then .uint
  else if n ≤ 0xD3 then .int
  else if n ≤ 0xD8 then .ext
  else if n ≤ 0xDB then .str
  else if n ≤ 0xDD then .array
  else if n ≤ 0xDF then .map
  else .int

end Form

inductive Error where
  | short
  | wrongForm (found wanted : Form)
  | badLead (lead : UInt8)
  | tooLarge (value : Nat)
  | negative (value : Int)
deriving DecidableEq, Repr

def Error.message : Error → String
  | short => "msgp: too few bytes left to read object"
  | wrongForm found wanted =>
    "msgp: attempted to decode type \"" ++ found.name ++ "\" with method for \"" ++ wanted.name ++
      "\""
  | badLead lead =>
    "msgp: unrecognized type prefix 0x" ++ String.ofList (Text.hexChars 0 lead.toNat)
  | tooLarge value => "msgp: " ++ Text.natText value ++ " overflows uint64"
  | negative value => "msgp: attempted to cast int " ++ Text.intText value ++ " to unsigned"

abbrev Result (α : Type) := Except Error (α × Bytes)

/-- The failure of a reader that meets a value of another form. -/
def mismatch (wanted : Form) (lead : UInt8) : Error :=
  match Form.ofLead lead with
  | .invalid => .badLead lead
  | found => .wrongForm found wanted

def number (width : Nat) (bs : Bytes) : Result Nat :=
  match bs.split? width with
  | some (front, rest) => .ok (Bytes.ofBigEndian front, rest)
  | none => .error .short

def take (n : Nat) (bs : Bytes) : Result Bytes :=
  match bs.split? n with
  | some r => .ok r
  | none => .error .short

def anyInt (wanted : Form) : Bytes → Result Int
  | [] => .error .short
  | lead :: bs =>
    let n := lead.toNat
    let unsigned := fun width => (number width bs).map fun (v, rest) => ((v : Int), rest)
    let signed := fun width => (number width bs).map fun (v, rest) => (Bytes.signed width v, rest)
    if n < 0x80 then .ok (n, bs)
    else if 0xE0 ≤ n then .ok ((n : Int) - 256, bs)
    else if n = 0xCC then unsigned 1
    else if n = 0xCD then unsigned 2
    else if n = 0xCE then unsigned 4
    else if n = 0xCF then unsigned 8
    else if n = 0xD0 then signed 1
    else if n = 0xD1 then signed 2
    else if n = 0xD2 then signed 4
    else if n = 0xD3 then signed 8
    else .error (mismatch wanted lead)

def readInt (bs : Bytes) : Result Int64 :=
  match anyInt .int bs with
  | .error e => .error e
  | .ok (v, rest) =>
    match Text.int64? v with
    | some i => .ok (i, rest)
    | none => .error (.tooLarge v.toNat)

def readUint (bs : Bytes) : Result Nat :=
  match anyInt .uint bs with
  | .error e => .error e
  | .ok (v, rest) => if v < 0 then .error (.negative v) else .ok (v.toNat, rest)

def readBool : Bytes → Result Bool
  | [] => .error .short
  | lead :: bs =>
    if lead = 0xC2 then .ok (false, bs)
    else if lead = 0xC3 then .ok (true, bs)
    else .error (mismatch .bool lead)

def counted (width : Nat) (bs : Bytes) : Result Bytes :=
  match number width bs with
  | .error e => .error e
  | .ok (n, rest) => take n rest

/-- A string, which may be any bytes. A byte that leads no value is here a form of its own. -/
def readString : Bytes → Result Bytes
  | [] => .error .short
  | lead :: bs =>
    let n := lead.toNat
    if 0xA0 ≤ n ∧ n < 0xC0 then take (n - 0xA0) bs
    else if n = 0xD9 then counted 1 bs
    else if n = 0xDA then counted 2 bs
    else if n = 0xDB then counted 4 bs
    else .error (.wrongForm (Form.ofLead lead) .str)

def readBinary : Bytes → Result Bytes
  | [] => .error .short
  | lead :: bs =>
    if lead = 0xC4 then counted 1 bs
    else if lead = 0xC5 then counted 2 bs
    else if lead = 0xC6 then counted 4 bs
    else .error (mismatch .bin lead)

/-- The key of a map entry, which is a string or binary. -/
def readKey (bs : Bytes) : Result Bytes :=
  match readString bs with
  | .error (.wrongForm .bin _) => readBinary bs
  | r => r

def readArrayHeader : Bytes → Result Nat
  | [] => .error .short
  | lead :: bs =>
    let n := lead.toNat
    if 0x90 ≤ n ∧ n < 0xA0 then .ok (n - 0x90, bs)
    else if n = 0xDC then number 2 bs
    else if n = 0xDD then number 4 bs
    else .error (mismatch .array lead)

def readMapHeader : Bytes → Result Nat
  | [] => .error .short
  | lead :: bs =>
    let n := lead.toNat
    if 0x80 ≤ n ∧ n < 0x90 then .ok (n - 0x80, bs)
    else if n = 0xDE then number 2 bs
    else if n = 0xDF then number 4 bs
    else .error (mismatch .map lead)

/-- What follows the lead byte of a value. -/
inductive Layout where
  | invalid
  | fixed (size : Nat)
  | sized (width extra : Nat)
  | values (count : Nat)
  /-- A count of this many bytes, then `factor` values for each. -/
  | sizedValues (width factor : Nat)
deriving DecidableEq, Repr

def Layout.ofLead (b : UInt8) : Layout :=
  let n := b.toNat
  if n < 0x80 then .fixed 0
  else if n < 0x90 then .values (2 * (n - 0x80))
  else if n < 0xA0 then .values (n - 0x90)
  else if n < 0xC0 then .fixed (n - 0xA0)
  else match n with
    | 0xC0 | 0xC2 | 0xC3 => .fixed 0
    | 0xC1 => .invalid
    | 0xC4 | 0xD9 => .sized 1 0
    | 0xC5 | 0xDA => .sized 2 0
    | 0xC6 | 0xDB => .sized 4 0
    | 0xC7 => .sized 1 1
    | 0xC8 => .sized 2 1
    | 0xC9 => .sized 4 1
    | 0xCA | 0xCE | 0xD2 => .fixed 4
    | 0xCB | 0xCF | 0xD3 => .fixed 8
    | 0xCC | 0xD0 => .fixed 1
    | 0xCD | 0xD1 => .fixed 2
    | 0xD4 => .fixed 2
    | 0xD5 => .fixed 3
    | 0xD6 => .fixed 5
    | 0xD7 => .fixed 9
    | 0xD8 => .fixed 17
    | 0xDC => .sizedValues 2 1
    | 0xDD => .sizedValues 4 1
    | 0xDE => .sizedValues 2 2
    | 0xDF => .sizedValues 4 2
    | _ => .fixed 0

/-- Take the bytes of one value off the front, up to the values inside it, whose number is given. -/
def skipHead : Bytes → Result Nat
  | [] => .error .short
  | lead :: bs =>
    match Layout.ofLead lead with
    | .invalid => .error (.badLead lead)
    | .fixed size => (take size bs).map fun (_, rest) => (0, rest)
    | .sized width extra =>
      match number width bs with
      | .error e => .error e
      | .ok (n, rest) => (take (n + extra) rest).map fun (_, rest) => (0, rest)
    | .values count => .ok (count, bs)
    | .sizedValues width factor => (number width bs).map fun (n, rest) => (factor * n, rest)

/-- Skip this many values. Each takes a byte at least, so the number of bytes is fuel enough. -/
def skipValues : Nat → Nat → Bytes → Except Error Bytes
  | _, 0, bs => .ok bs
  | 0, _ + 1, _ => .error .short
  | fuel + 1, count + 1, bs =>
    match skipHead bs with
    | .error e => .error e
    | .ok (inside, rest) => skipValues fuel (inside + count) rest

def skip (bs : Bytes) : Except Error Bytes :=
  skipValues (bs.length + 1) 1 bs

end CellScheme.Pack
