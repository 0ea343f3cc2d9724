/-!
Blank characters, and the words that they separate.
-/

namespace CellScheme.Text

/-- The characters that separate words: the ASCII blanks, the next-line and no-break characters,
and the Unicode spaces and line separators. -/
def isBlank (c : Char) : Bool :=
  let n := c.toNat
  (0x09 ≤ n && n ≤ 0x0D) || n == 0x20 || n == 0x85 || n == 0xA0 || n == 0x1680 ||
    (0x2000 ≤ n && n ≤ 0x200A) || n == 0x2028 || n == 0x2029 || n == 0x202F ||
    n == 0x205F || n == 0x3000

def trimLeft (cs : List Char) : List Char :=
  cs.dropWhile isBlank

/-- The text without the blanks at its two ends. -/
def trim (cs : List Char) : List Char :=
  (trimLeft (trimLeft cs).reverse).reverse

def firstWord? (cs : List Char) : Option (List Char) :=
  match (trimLeft cs).takeWhile (fun c => !isBlank c) with
  | [] => none
  | w => some w

def splitWord? (cs : List Char) : Option (List Char × List Char) :=
  (firstWord? cs).map fun w => (w, trim ((trimLeft cs).drop w.length))

end CellScheme.Text
