/-!
Bytes and the words made of them.
-/

namespace CellScheme

abbrev Bytes := List UInt8

namespace Bytes

/-- The `width` low bytes of a number, most significant first. -/
def bigEndian (width n : Nat) : Bytes :=
  match width with
  | 0 => []
  | w + 1 => UInt8.ofNat (n / Nat.pow 256 w) :: bigEndian w n

def ofBigEndian (bs : Bytes) : Nat :=
  bs.foldl (fun n b => 256 * n + b.toNat) 0

/-- The number whose bytes these are, least significant first. -/
def ofLittleEndian (bs : Bytes) : Nat :=
  bs.foldr (fun b n => b.toNat + 256 * n) 0

def signed (width n : Nat) : Int :=
  if n < Nat.pow 256 width / 2 then n else (n : Int) - Nat.pow 256 width

def split? (n : Nat) (bs : Bytes) : Option (Bytes × Bytes) :=
  let front := bs.take n
  if front.length = n then some (front, bs.drop n) else none

end Bytes

end CellScheme
