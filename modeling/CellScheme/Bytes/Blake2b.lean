import CellScheme.Bytes.Word

/-!
BLAKE2b without key and with a digest of eight bytes, read as one little-endian word.
-/

namespace CellScheme.Blake2b

def iv : Array UInt64 :=
  #[0x6a09e667f3bcc908, 0xbb67ae8584caa73b, 0x3c6ef372fe94f82b, 0xa54ff53a5f1d36f1,
    0x510e527fade682d1, 0x9b05688c2b3e6c1f, 0x1f83d9abfb41bd6b, 0x5be0cd19137e2179]

/-- In each round, the order in which the words of the block are mixed in. -/
def schedules : List (Array Nat) :=
  [#[0, 1, 2, 3, 4, 5, 6, 7, 8, 9, 10, 11, 12, 13, 14, 15],
   #[14, 10, 4, 8, 9, 15, 13, 6, 1, 12, 0, 2, 11, 7, 5, 3],
   #[11, 8, 12, 0, 5, 2, 15, 13, 10, 14, 3, 6, 7, 1, 9, 4],
   #[7, 9, 3, 1, 13, 12, 11, 14, 2, 6, 5, 10, 4, 0, 15, 8],
   #[9, 0, 5, 7, 2, 4, 10, 15, 14, 1, 11, 12, 6, 8, 3, 13],
   #[2, 12, 6, 10, 0, 11, 8, 3, 4, 13, 7, 5, 15, 14, 1, 9],
   #[12, 5, 1, 15, 14, 13, 4, 10, 0, 7, 6, 3, 9, 2, 8, 11],
   #[13, 11, 7, 14, 12, 1, 3, 9, 5, 0, 15, 4, 8, 6, 2, 10],
   #[6, 15, 14, 9, 11, 3, 0, 8, 12, 2, 13, 7, 1, 4, 10, 5],
   #[10, 2, 8, 4, 7, 6, 1, 5, 15, 11, 9, 14, 3, 12, 13, 0],
   #[0, 1, 2, 3, 4, 5, 6, 7, 8, 9, 10, 11, 12, 13, 14, 15],
   #[14, 10, 4, 8, 9, 15, 13, 6, 1, 12, 0, 2, 11, 7, 5, 3]]

/-- The columns and then the diagonals of the working state. -/
def lanes : List (Nat × Nat × Nat × Nat) :=
  [(0, 4, 8, 12), (1, 5, 9, 13), (2, 6, 10, 14), (3, 7, 11, 15),
   (0, 5, 10, 15), (1, 6, 11, 12), (2, 7, 8, 13), (3, 4, 9, 14)]

def rotateRight (x : UInt64) (n : UInt64) : UInt64 :=
  (x >>> n) ||| (x <<< (64 - n))

def word (v : Array UInt64) (i : Nat) : UInt64 :=
  v.getD i 0

def mix (v : Array UInt64) (lane : Nat × Nat × Nat × Nat) (x y : UInt64) : Array UInt64 :=
  let (a, b, c, d) := lane
  let va := word v a + word v b + x
  let vd := rotateRight (word v d ^^^ va) 32
  let vc := word v c + vd
  let vb := rotateRight (word v b ^^^ vc) 24
  let va := va + vb + y
  let vd := rotateRight (vd ^^^ va) 16
  let vc := vc + vd
  let vb := rotateRight (vb ^^^ vc) 63
  (((v.setIfInBounds a va).setIfInBounds b vb).setIfInBounds c vc).setIfInBounds d vd

def round (block : Array UInt64) (v : Array UInt64) (schedule : Array Nat) : Array UInt64 :=
  lanes.zipIdx.foldl
    (fun v (lane, i) =>
      mix v lane (word block (schedule.getD (2 * i) 0)) (word block (schedule.getD (2 * i + 1) 0)))
    v

def compress (h block : Array UInt64) (count : Nat) (last : Bool) : Array UInt64 :=
  let v := h ++ iv
  let v := v.setIfInBounds 12 (word v 12 ^^^ UInt64.ofNat count)
  let v := v.setIfInBounds 13 (word v 13 ^^^ UInt64.ofNat (count / UInt64.size))
  let v := if last then v.setIfInBounds 14 (word v 14 ^^^ 0xffffffffffffffff) else v
  let v := schedules.foldl (round block) v
  (Array.range 8).map fun i => word h i ^^^ word v i ^^^ word v (i + 8)

def blockWords (bs : Bytes) : Array UInt64 :=
  (Array.range 16).map fun i =>
    UInt64.ofNat (Bytes.ofLittleEndian ((bs.drop (8 * i)).take 8))

/-- Take in `full` blocks of which none is the last, then the rest as the last block. -/
def absorb (h : Array UInt64) (count : Nat) : Nat → Bytes → Array UInt64
  | 0, bs => compress h (blockWords bs) (count + bs.length) true
  | full + 1, bs =>
    absorb (compress h (blockWords (bs.take 128)) (count + 128) false) (count + 128) full
      (bs.drop 128)

/-- The state at the start: the digest length, and a tree of one node. -/
def start : Array UInt64 :=
  iv.setIfInBounds 0 (word iv 0 ^^^ 0x01010000 ^^^ 8)

def hash (bs : Bytes) : UInt64 :=
  word (absorb start 0 ((bs.length - 1) / 128) bs) 0

end CellScheme.Blake2b
