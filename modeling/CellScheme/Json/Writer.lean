import CellScheme.Json.Value
import CellScheme.Text.Utf8

/-!
The text of JSON values: no spaces, members in the order given, and the characters that are special
in markup or that end a line in scripts written as escapes.
-/

namespace CellScheme.Json

def escapedChar (c : Char) : List Char :=
  match c with
  | '\x22' => ['\x5c', '\x22']
  | '\x5c' => ['\x5c', '\x5c']
  | '\x08' => ['\x5c', 'b']
  | '\x0c' => ['\x5c', 'f']
  | '\x0a' => ['\x5c', 'n']
  | '\x0d' => ['\x5c', 'r']
  | '\x09' => ['\x5c', 't']
  | c =>
    let n := c.toNat
    if n < 0x20 ∨ c = '<' ∨ c = '>' ∨ c = '&' ∨ n = 0x2028 ∨ n = 0x2029 then
      '\x5c' :: 'u' :: Text.hexChars 4 n
    else [c]

/-- A stray byte is written as the escape of the replacement character. -/
def escapedGlyph : Text.Glyph → List Char
  | .char c => escapedChar c
  | .stray _ => ['\x5c', 'u', 'F', 'F', 'F', 'D']

def stringChars (bs : Bytes) : List Char :=
  '\x22' :: ((Text.glyphs bs).flatMap escapedGlyph ++ ['\x22'])

namespace Value

mutual
def chars : Value → List Char
  | .null => "null".toList
  | .bool true => "true".toList
  | .bool false => "false".toList
  | .int v => Text.intChars v.toInt
  | .real x => x.text.toList
  | .string s => stringChars s
  | .array xs => '[' :: (arrayChars xs ++ [']'])
  | .object ms => '\x7b' :: (objectChars ms ++ ['\x7d'])
termination_by structural v => v

def arrayChars : List Value → List Char
  | [] => []
  | x :: xs => x.chars ++ moreArrayChars xs
termination_by structural xs => xs

def moreArrayChars : List Value → List Char
  | [] => []
  | x :: xs => ',' :: (x.chars ++ moreArrayChars xs)
termination_by structural xs => xs

def objectChars : List (Bytes × Value) → List Char
  | [] => []
  | m :: ms => memberChars m ++ moreObjectChars ms
termination_by structural ms => ms

def moreObjectChars : List (Bytes × Value) → List Char
  | [] => []
  | m :: ms => ',' :: (memberChars m ++ moreObjectChars ms)
termination_by structural ms => ms

def memberChars : Bytes × Value → List Char
  | (k, v) => stringChars k ++ ':' :: v.chars
termination_by structural m => m
end

def text (v : Value) : String :=
  String.ofList v.chars

end Value

end CellScheme.Json
