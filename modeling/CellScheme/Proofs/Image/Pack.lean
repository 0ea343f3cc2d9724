import CellScheme.Pack.Reader
import CellScheme.Pack.Writer
import CellScheme.Proofs.Reading.Grammar
import Mathlib.Algebra.Order.Ring.Nat
import Mathlib.Tactic.Ring

/-!
Every reader takes back what its writer wrote and leaves the bytes after it.
-/

namespace CellScheme

namespace Bytes

@[simp]
theorem length_bigEndian (width n : Nat) : (bigEndian width n).length = width := by
  induction width with
  | zero => rfl
  | succ w ih => simp [bigEndian, ih]

theorem ofBigEndian_bigEndian (width n : Nat) :
    ofBigEndian (bigEndian width n) = n % 256 ^ width := by
  -- the digits already read stand before those that are still to come
  have digits : ∀ w high : Nat, (bigEndian w n).foldl (fun n b => 256 * n + b.toNat) high =
      256 ^ w * high + n % 256 ^ w := by
    intro w
    induction w with
    | zero => intro high; simp [bigEndian, Nat.mod_one]
    | succ w ih =>
        intro high
        have hdigit : (UInt8.ofNat (n / Nat.pow 256 w)).toNat = n / 256 ^ w % 256 := by
          simp
        rw [bigEndian, List.foldl_cons, ih, hdigit, Nat.mod_pow_succ]
        ring
  rw [ofBigEndian, digits]
  omega

theorem split?_append (front rest : Bytes) :
    split? front.length (front ++ rest) = some (front, rest) := by
  simp [split?]

theorem signed_of_nonneg {width n : Nat} (h : n < 256 ^ width / 2) : signed width n = n := by
  rw [signed]
  exact if_pos h

theorem signed_of_neg {width n : Nat} {i : Int} (hn : (n : Int) = i + (256 ^ width : Nat))
    (h : ¬ n < 256 ^ width / 2) : signed width n = i := by
  have hs : signed width n = (n : Int) - (256 ^ width : Nat) := by
    rw [signed]
    exact if_neg h
  omega

end Bytes

namespace Pack

/-- The reader takes these bytes off the front of any bytes, as this value. -/
def Reads {ε α : Type} (read : Bytes → Except ε (α × Bytes)) (bs : Bytes) (v : α) : Prop :=
  ∀ rest, read (bs ++ rest) = .ok (v, rest)

namespace Reads

variable {ε α β : Type} {read : Bytes → Except ε (α × Bytes)} {bs : Bytes} {v : α}

theorem lead {next : Bytes → Except ε (α × Bytes)} {b : UInt8} (h : Reads next bs v)
    (hread : ∀ rest, read (b :: rest) = next rest) : Reads read (b :: bs) v := by
  intro rest
  rw [List.cons_append, hread, h rest]

theorem map (h : Reads read bs v) (f : α → β) :
    Reads (fun bs => (read bs).map fun (a, rest) => (f a, rest)) bs (f v) := by
  intro rest
  simp only [h rest, Except.map]

end Reads

theorem number_reads_mod (width n : Nat) :
    Reads (number width) (Bytes.bigEndian width n) (n % 256 ^ width) := by
  intro rest
  have hs := Bytes.split?_append (Bytes.bigEndian width n) rest
  rw [Bytes.length_bigEndian] at hs
  simp only [number, hs, Bytes.ofBigEndian_bigEndian]

theorem number_reads {width n : Nat} (h : n < 256 ^ width) :
    Reads (number width) (Bytes.bigEndian width n) n := by
  have hr := number_reads_mod width n
  rwa [Nat.mod_eq_of_lt h] at hr

theorem take_reads (bs : Bytes) : Reads (take bs.length) bs bs := by
  intro rest
  rw [take, Bytes.split?_append]

theorem counted_reads {width : Nat} {bs : Bytes} (h : bs.length < 256 ^ width) :
    Reads (counted width) (Bytes.bigEndian width bs.length ++ bs) bs := by
  intro rest
  rw [counted, List.append_assoc, number_reads h]
  exact take_reads bs rest

theorem toNat_ofNat {n : Nat} (h : n < 256) : (UInt8.ofNat n).toNat = n := by
  simp [h]

theorem anyInt_lead (wanted : Form) {n : Nat} (h : n < 0x80) (rest : Bytes) :
    anyInt wanted (UInt8.ofNat n :: rest) = .ok (n, rest) := by
  simp only [anyInt, toNat_ofNat (by omega : n < 256), if_pos h]

theorem anyInt_negativeLead (wanted : Form) {n : Nat} (h : 0xE0 ≤ n) (h' : n < 256) (rest : Bytes) :
    anyInt wanted (UInt8.ofNat n :: rest) = .ok ((n : Int) - 256, rest) := by
  simp only [anyInt, toNat_ofNat h', if_neg (by omega : ¬ n < 0x80), if_pos h]

theorem signed_reads {width n : Nat} {i : Int} (hn : n < 256 ^ width)
    (hi : Bytes.signed width n = i) :
    Reads (fun bs => (number width bs).map fun (v, rest) => (Bytes.signed width v, rest))
      (Bytes.bigEndian width n) i :=
  hi ▸ (number_reads hn).map (Bytes.signed width)

theorem anyInt_int (wanted : Form) {i : Int} (hl : -2 ^ 63 ≤ i) (hu : i < 2 ^ 63) :
    Reads (anyInt wanted) (int i) i := by
  unfold int
  split
  · obtain ⟨n, rfl⟩ := Int.eq_ofNat_of_zero_le ‹_›
    rw [Int.toNat_natCast]
    split
    · exact anyInt_lead wanted (by omega)
    · split_ifs <;>
        exact (signed_reads (by omega) (Bytes.signed_of_nonneg (by omega))).lead fun _ => rfl
  · split
    · intro rest
      have hlead := anyInt_negativeLead wanted (n := (i + 0x100).toNat) (by omega) (by omega) rest
      have hi : (((i + 0x100).toNat : Nat) : Int) - 256 = i := by omega
      rwa [hi] at hlead
    · split_ifs <;>
        exact (signed_reads (by omega)
          (Bytes.signed_of_neg (by omega) (by omega))).lead fun _ => rfl

theorem anyInt_uint (wanted : Form) {n : Nat} (h : n < 2 ^ 64) :
    Reads (anyInt wanted) (uint n) n := by
  unfold uint
  split
  · exact anyInt_lead wanted ‹_›
  · split_ifs <;> exact ((number_reads (by omega)).map Int.ofNat).lead fun _ => rfl

theorem readInt_reads (v : Int64) : Reads readInt (int v.toInt) v := by
  intro rest
  simp only [readInt, anyInt_int .int v.le_toInt v.toInt_lt rest, Grammar.int64?_eq_some.mpr rfl]

theorem readUint_reads {n : Nat} (h : n < 2 ^ 64) : Reads readUint (uint n) n := by
  intro rest
  simp only [readUint, anyInt_uint .uint h rest, if_neg (by omega : ¬ (n : Int) < 0),
    Int.toNat_natCast]

theorem readBool_reads (b : Bool) : Reads readBool (bool b) b := by
  cases b <;> exact fun _ => rfl

/-- The spellings of a string: its bytes behind a lead byte that holds their number, or behind a
number of one, two or four bytes. -/
inductive StringOf (bs : Bytes) : Bytes → Prop where
  | short : bs.length < 32 → StringOf bs (UInt8.ofNat (0xA0 + bs.length) :: bs)
  | one : bs.length < 0x100 → StringOf bs (0xD9 :: (Bytes.bigEndian 1 bs.length ++ bs))
  | two : bs.length < 0x10000 → StringOf bs (0xDA :: (Bytes.bigEndian 2 bs.length ++ bs))
  | four : bs.length < 0x100000000 → StringOf bs (0xDB :: (Bytes.bigEndian 4 bs.length ++ bs))

theorem StringOf.reads {bs used : Bytes} (h : StringOf bs used) : Reads readString used bs := by
  cases h with
  | short h =>
      intro rest
      have hlead : (UInt8.ofNat (0xA0 + bs.length)).toNat = 0xA0 + bs.length :=
        toNat_ofNat (by omega)
      simp only [List.cons_append, readString, hlead, Nat.add_sub_cancel_left]
      rw [if_pos (by omega)]
      exact take_reads bs rest
  | one h => exact (counted_reads (by omega : bs.length < 256 ^ 1)).lead fun _ => rfl
  | two h => exact (counted_reads (by omega : bs.length < 256 ^ 2)).lead fun _ => rfl
  | four h => exact (counted_reads (by omega : bs.length < 256 ^ 4)).lead fun _ => rfl

theorem StringOf.readKey {bs used : Bytes} (h : StringOf bs used) : Reads readKey used bs := by
  intro rest
  simp only [Pack.readKey, h.reads rest]

/-- A string is written in its shortest spelling. -/
theorem string_spelling {bs : Bytes} (h : bs.length < 2 ^ 32) : StringOf bs (string bs) := by
  unfold string stringHeader
  split
  · exact .short ‹_›
  · split
    · exact .one ‹_›
    · split
      · exact .two ‹_›
      · exact .four (by omega)

theorem readString_reads {bs : Bytes} (h : bs.length < 2 ^ 32) :
    Reads readString (string bs) bs :=
  (string_spelling h).reads

theorem readKey_reads {bs : Bytes} (h : bs.length < 2 ^ 32) : Reads readKey (string bs) bs :=
  (string_spelling h).readKey

theorem readBinary_reads {bs : Bytes} (h : bs.length < 2 ^ 32) :
    Reads readBinary (binary bs) bs := by
  unfold binary binaryHeader
  split
  · exact (counted_reads (by omega : bs.length < 256 ^ 1)).lead fun _ => rfl
  · split
    · exact (counted_reads (by omega : bs.length < 256 ^ 2)).lead fun _ => rfl
    · exact (counted_reads (by omega : bs.length < 256 ^ 4)).lead fun _ => rfl

/-- A header tells a size below `2 ^ 32`: of a binary, so many bytes are read. -/
theorem readBinary_front (bs rest : Bytes) :
    readBinary (binary bs ++ rest) =
      .ok (bs.take (bs.length % 2 ^ 32), bs.drop (bs.length % 2 ^ 32) ++ rest) := by
  by_cases h : bs.length < 2 ^ 32
  · rw [Nat.mod_eq_of_lt h, readBinary_reads h, List.take_length, List.drop_length, List.nil_append]
  · have hmod : bs.length % 2 ^ 32 ≤ bs.length := Nat.mod_le _ _
    have hheader : binaryHeader bs.length = 0xC6 :: Bytes.bigEndian 4 bs.length := by
      rw [binaryHeader, if_neg (by omega), if_neg (by omega)]
    have hcount : readBinary (0xC6 :: (Bytes.bigEndian 4 bs.length ++ (bs ++ rest))) =
        take (bs.length % 2 ^ 32) (bs ++ rest) := by
      have hlead : readBinary (0xC6 :: (Bytes.bigEndian 4 bs.length ++ (bs ++ rest))) =
        counted 4 (Bytes.bigEndian 4 bs.length ++ (bs ++ rest)) := rfl
      simp only [hlead, counted, number_reads_mod 4 bs.length _, (by norm_num : 256 ^ 4 = 2 ^ 32)]
    have htake := take_reads (bs.take (bs.length % 2 ^ 32)) (bs.drop (bs.length % 2 ^ 32) ++ rest)
    rw [List.length_take_of_le hmod, ← List.append_assoc, List.take_append_drop] at htake
    rw [binary, hheader, List.append_assoc, List.cons_append, hcount, htake]

theorem readArrayHeader_reads {n : Nat} (h : n < 2 ^ 32) :
    Reads readArrayHeader (arrayHeader n) n := by
  unfold arrayHeader
  split
  · intro rest
    have hlead : (UInt8.ofNat (0x90 + n)).toNat = 0x90 + n := toNat_ofNat (by omega)
    simp only [List.singleton_append, readArrayHeader, hlead, Nat.add_sub_cancel_left]
    rw [if_pos (by omega)]
  · split
    · exact (number_reads (by omega : n < 256 ^ 2)).lead fun _ => rfl
    · exact (number_reads (by omega : n < 256 ^ 4)).lead fun _ => rfl

/-- The headers of a map of this many entries. -/
inductive MapHeaderOf (n : Nat) : Bytes → Prop where
  | short : n < 16 → MapHeaderOf n [UInt8.ofNat (0x80 + n)]
  | two : n < 0x10000 → MapHeaderOf n (0xDE :: Bytes.bigEndian 2 n)
  | four : n < 0x100000000 → MapHeaderOf n (0xDF :: Bytes.bigEndian 4 n)

theorem MapHeaderOf.reads {n : Nat} {bs : Bytes} (h : MapHeaderOf n bs) :
    Reads readMapHeader bs n := by
  cases h with
  | short h =>
      intro rest
      have hlead : (UInt8.ofNat (0x80 + n)).toNat = 0x80 + n := toNat_ofNat (by omega)
      simp only [List.singleton_append, readMapHeader, hlead, Nat.add_sub_cancel_left]
      rw [if_pos (by omega)]
  | two h => exact (number_reads (by omega : n < 256 ^ 2)).lead fun _ => rfl
  | four h => exact (number_reads (by omega : n < 256 ^ 4)).lead fun _ => rfl

theorem mapHeader_spelling {n : Nat} (h : n < 2 ^ 32) : MapHeaderOf n (mapHeader n) := by
  unfold mapHeader
  split
  · exact .short ‹_›
  · split
    · exact .two ‹_›
    · exact .four (by omega)

end Pack

end CellScheme
