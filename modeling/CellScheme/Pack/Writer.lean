import CellScheme.Text.Utf8

/-!
Writing MessagePack: every value in its shortest form. Signed integers take signed forms only.
-/

namespace CellScheme.Pack

def nil : Bytes := [0xC0]

def bool (b : Bool) : Bytes :=
  [if b then 0xC3 else 0xC2]

def int (i : Int) : Bytes :=
  if 0 ≤ i then
    if i < 0x80 then [UInt8.ofNat i.toNat]
    else if i < 0x8000 then 0xD1 :: Bytes.bigEndian 2 i.toNat
    else if i < 0x80000000 then 0xD2 :: Bytes.bigEndian 4 i.toNat
    else 0xD3 :: Bytes.bigEndian 8 i.toNat
  else if -32 ≤ i then [UInt8.ofNat (i + 0x100).toNat]
  else if -0x80 ≤ i then 0xD0 :: Bytes.bigEndian 1 (i + 0x100).toNat
  else if -0x8000 ≤ i then 0xD1 :: Bytes.bigEndian 2 (i + 0x10000).toNat
  else if -0x80000000 ≤ i then 0xD2 :: Bytes.bigEndian 4 (i + 0x100000000).toNat
  else 0xD3 :: Bytes.bigEndian 8 (i + 0x10000000000000000).toNat

def uint (n : Nat) : Bytes :=
  if n < 0x80 then [UInt8.ofNat n]
  else if n < 0x100 then 0xCC :: Bytes.bigEndian 1 n
  else if n < 0x10000 then 0xCD :: Bytes.bigEndian 2 n
  else if n < 0x100000000 then 0xCE :: Bytes.bigEndian 4 n
  else 0xCF :: Bytes.bigEndian 8 n

def stringHeader (size : Nat) : Bytes :=
  if size < 32 then [UInt8.ofNat (0xA0 + size)]
  else if size < 0x100 then 0xD9 :: Bytes.bigEndian 1 size
  else if size < 0x10000 then 0xDA :: Bytes.bigEndian 2 size
  else 0xDB :: Bytes.bigEndian 4 size

/-- A string may be any bytes. -/
def string (bs : Bytes) : Bytes :=
  stringHeader bs.length ++ bs

def binaryHeader (size : Nat) : Bytes :=
  if size < 0x100 then 0xC4 :: Bytes.bigEndian 1 size
  else if size < 0x10000 then 0xC5 :: Bytes.bigEndian 2 size
  else 0xC6 :: Bytes.bigEndian 4 size

def binary (bs : Bytes) : Bytes :=
  binaryHeader bs.length ++ bs

def arrayHeader (size : Nat) : Bytes :=
  if size < 16 then [UInt8.ofNat (0x90 + size)]
  else if size < 0x10000 then 0xDC :: Bytes.bigEndian 2 size
  else 0xDD :: Bytes.bigEndian 4 size

def mapHeader (size : Nat) : Bytes :=
  if size < 16 then [UInt8.ofNat (0x80 + size)]
  else if size < 0x10000 then 0xDE :: Bytes.bigEndian 2 size
  else 0xDF :: Bytes.bigEndian 4 size

end CellScheme.Pack
