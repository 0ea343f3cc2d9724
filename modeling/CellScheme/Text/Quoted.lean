import CellScheme.Text.Decimal
import CellScheme.Text.Printable
import CellScheme.Text.Utf8

/-!
Quoted text for messages: a text between double quotes with every character that would not show
as itself written as an escape.
-/

namespace CellScheme.Text

/-- The escape of a character that is not shown as itself. -/
def escapeChars (c : Char) : List Char :=
  match c with
  | '\x07' => ['\x5c', 'a']
  | '\x08' => ['\x5c', 'b']
  | '\x0c' => ['\x5c', 'f']
  | '\x0a' => ['\x5c', 'n']
  | '\x0d' => ['\x5c', 'r']
  | '\x09' => ['\x5c', 't']
  | '\x0b' => ['\x5c', 'v']
  | c =>
    let n := c.toNat
    if n < 0x20 ∨ n = 0x7F then '\x5c' :: 'x' :: hexChars 2 n
    else if n < 0x10000 then '\x5c' :: 'u' :: hexChars 4 n
    else '\x5c' :: 'U' :: hexChars 8 n

def quotedChar (c : Char) : List Char :=
  if c = '\x22' ∨ c = '\x5c' then ['\x5c', c]
  else if isPrintable c then [c]
  else escapeChars c

/-- A stray byte is written by its number. -/
def quotedGlyph : Glyph → List Char
  | .char c => quotedChar c
  | .stray b => '\x5c' :: 'x' :: hexChars 2 b.toNat

def quoted (s : String) : String :=
  String.ofList ('\x22' :: (s.toList.flatMap quotedChar ++ ['\x22']))

def quotedBytes (bs : Bytes) : String :=
  String.ofList ('\x22' :: ((glyphs bs).flatMap quotedGlyph ++ ['\x22']))

end CellScheme.Text
