import CellScheme.Bytes.Word

/-!
Text as UTF-8 bytes. Every text has bytes; bytes that are no text are read as glyphs, which are
characters and single bytes that belong to no character.
-/

namespace CellScheme.Text

def utf8 (s : String) : Bytes :=
  s.toList.flatMap String.utf8EncodeChar

def isContinuation (b : UInt8) : Bool :=
  0x80 ≤ b && b < 0xC0

/-- The character of these six-bit groups after the lead's bits, if it is written no longer than
needed and is no surrogate. -/
def charOf? (least : Nat) (lead : Nat) (tail : List UInt8) : Option Char :=
  let n := tail.foldl (fun n b => 64 * n + (b.toNat - 0x80)) lead
  if tail.all isContinuation && least ≤ n && n.isValidChar then some (Char.ofNat n) else none

def two? (a b : UInt8) : Option Char :=
  if 0xC0 ≤ a && a < 0xE0 then charOf? 0x80 (a.toNat - 0xC0) [b] else none

def three? (a b c : UInt8) : Option Char :=
  if 0xE0 ≤ a && a < 0xF0 then charOf? 0x800 (a.toNat - 0xE0) [b, c] else none

def four? (a b c d : UInt8) : Option Char :=
  if 0xF0 ≤ a && a < 0xF8 then charOf? 0x10000 (a.toNat - 0xF0) [b, c, d] else none

/-- What bytes show: a character, or a byte that belongs to none. -/
inductive Glyph where
  | char (c : Char)
  | stray (b : UInt8)
deriving DecidableEq, Repr, Inhabited

namespace Glyph

/-- A single byte: a character if it is ASCII. -/
def ofByte (a : UInt8) : Glyph :=
  if a < 0x80 then char (Char.ofNat a.toNat) else stray a

/-- The character that a glyph is shown as; a stray byte is shown as the replacement character. -/
def shown : Glyph → Char
  | char c => c
  | stray _ => '\ufffd'

def isChar : Glyph → Bool
  | char _ => true
  | stray _ => false

end Glyph

/-- The glyphs of bytes. A byte is stray if no form of a character starts at it. -/
def glyphs : Bytes → List Glyph
  | [] => []
  | [a] => [.ofByte a]
  | [a, b] =>
    match two? a b with
    | some ch => [.char ch]
    | none => .ofByte a :: glyphs [b]
  | [a, b, c] =>
    match two? a b, three? a b c with
    | some ch, _ => .char ch :: glyphs [c]
    | none, some ch => [.char ch]
    | none, none => .ofByte a :: glyphs [b, c]
  | a :: b :: c :: d :: bs =>
    match two? a b, three? a b c, four? a b c d with
    | some ch, _, _ => .char ch :: glyphs (c :: d :: bs)
    | none, some ch, _ => .char ch :: glyphs (d :: bs)
    | none, none, some ch => .char ch :: glyphs bs
    | none, none, none => .ofByte a :: glyphs (b :: c :: d :: bs)

def decodeUtf8 (bs : Bytes) : List Char :=
  (glyphs bs).map Glyph.shown

def ofUtf8 (bs : Bytes) : String :=
  String.ofList (decodeUtf8 bs)

def isUtf8 (bs : Bytes) : Bool :=
  (glyphs bs).all Glyph.isChar

end CellScheme.Text
