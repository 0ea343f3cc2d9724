import CellScheme.Text.Utf8

/-!
Names of symbols, builtins and bindings. A name read from source text is the bytes of that text; a
name from an image may be any bytes.
-/

namespace CellScheme

structure Name where
  bytes : Bytes
deriving DecidableEq, Repr, Inhabited

namespace Name

def ofString (s : String) : Name :=
  ⟨Text.utf8 s⟩

instance : Coe String Name := ⟨ofString⟩

/-- The characters that a name is shown as. -/
def chars (n : Name) : List Char :=
  Text.decodeUtf8 n.bytes

def text (n : Name) : String :=
  String.ofList n.chars

/-- Names are ordered by their bytes. -/
instance : LT Name := ⟨fun a b => a.bytes < b.bytes⟩

instance (a b : Name) : Decidable (a < b) :=
  inferInstanceAs (Decidable (a.bytes < b.bytes))

theorem lt_irrefl (a : Name) : ¬ a < a :=
  fun h => List.lt_irrefl (α := UInt8) a.bytes h

theorem lt_trans {a b c : Name} (h : a < b) (h' : b < c) : a < c :=
  List.lt_trans (α := UInt8) h h'

theorem lt_of_not_lt {a b : Name} (hne : a ≠ b) (h : ¬ a < b) : b < a := by
  have hle : b.bytes ≤ a.bytes := h
  rcases List.le_iff_lt_or_eq.mp hle with hlt | heq
  · exact hlt
  · cases a
    cases b
    exact absurd (congrArg mk heq.symm) hne

end Name

/-- Names with one space between neighbours. -/
def Name.spaced (ns : List Name) : String :=
  String.intercalate " " (ns.map Name.text)

end CellScheme
