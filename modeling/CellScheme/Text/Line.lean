import CellScheme.Text.Utf8

/-!
Lines of input. A line ends at a line feed, and a carriage return before that is dropped; the last
line may lack the line feed. Input arrives in stretches of bounded width, and a line that is wider
comes in several.
-/

namespace CellScheme.Text

/-- Part of a line, and whether the line goes on after it. -/
structure Stretch where
  bytes : Bytes
  goesOn : Bool
deriving DecidableEq, Repr

def stretchWidth : Nat := 4096

def lineFeed : UInt8 := 0x0A

def carriageReturn : UInt8 := 0x0D

/-- A finished line, held last byte first, without the carriage return that it may end with. -/
def closeLine : Bytes → Bytes
  | [] => []
  | b :: bs => if b = carriageReturn then bs.reverse else (b :: bs).reverse

/-- Cut input into stretches, after the bytes of the current stretch, held last first, and their
number. A carriage return at the end of a full stretch waits for the next one. -/
def cutStretches (run : Bytes) (width : Nat) : Bytes → List Stretch
  | [] => if run.isEmpty then [] else [⟨run.reverse, false⟩]
  | b :: bs =>
    if b = lineFeed then ⟨closeLine run, false⟩ :: cutStretches [] 0 bs
    else if width + 1 < stretchWidth then cutStretches (b :: run) (width + 1) bs
    else if b = carriageReturn then ⟨run.reverse, true⟩ :: cutStretches [b] 1 bs
    else ⟨(b :: run).reverse, true⟩ :: cutStretches [] 0 bs

def stretches (bs : Bytes) : List Stretch :=
  cutStretches [] 0 bs

def joinStretches (line : Bytes) : List Stretch → List Bytes
  | [] => []
  | s :: ss =>
    let line := line ++ s.bytes
    if s.goesOn then joinStretches line ss else line :: joinStretches [] ss

def lines (s : String) : List String :=
  (joinStretches [] (stretches (utf8 s))).map ofUtf8

def shortLines (s : String) : List String :=
  (stretches (utf8 s)).map fun s => ofUtf8 s.bytes

end CellScheme.Text
