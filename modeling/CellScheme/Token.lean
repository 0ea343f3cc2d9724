import CellScheme.Failure
import CellScheme.Text.Blank

/-!
Tokens and the splitting of text into tokens. Brackets and quotes are tokens of their own, blanks
separate, and every maximal run of other characters is an atom.
-/

namespace CellScheme

/-- The classes of atoms. A text that is in several of them has the first. -/
inductive AtomClass where
  | decimal
  | bool
  | symbol
deriving DecidableEq, Repr, Inhabited

def isSymbolChar (c : Char) : Bool :=
  ('a' ≤ c && c ≤ 'z') || ('A' ≤ c && c ≤ 'Z') || Text.isDigit c ||
    "_+-*/\\=<>!&?".toList.contains c

/-- An optional minus sign, then at least one digit. -/
def isDecimal : List Char → Bool
  | '-' :: cs => !cs.isEmpty && cs.all Text.isDigit
  | cs => !cs.isEmpty && cs.all Text.isDigit

def isBoolean (cs : List Char) : Bool :=
  cs = "true".toList ∨ cs = "false".toList

def isSymbol (cs : List Char) : Bool :=
  !cs.isEmpty && cs.all isSymbolChar

def AtomClass.of? (cs : List Char) : Option AtomClass :=
  if isDecimal cs then some .decimal
  else if isBoolean cs then some .bool
  else if isSymbol cs then some .symbol
  else none

def AtomClass.decode (cs : List Char) (offset : Int) : Except ParseFailure AtomClass :=
  match AtomClass.of? cs with
  | some c => .ok c
  | none => .error (.badAtom (String.ofList cs) offset)

inductive Token where
  | opening (offset : Nat)
  | closing (offset : Nat)
  | quote (offset : Nat)
  | atom (cls : AtomClass) (text : List Char) (offset : Nat)
deriving DecidableEq, Repr, Inhabited

namespace Token

def offset : Token → Nat
  | opening o | closing o | quote o | atom _ _ o => o

def lexeme : Token → List Char
  | opening _ => ['(']
  | closing _ => [')']
  | quote _ => ['\x27']
  | atom _ cs _ => cs

def ofAtom (cs : List Char) (offset : Nat) : Except ParseFailure Token :=
  (AtomClass.decode cs offset).map fun c => .atom c cs offset

/-- The token of a character that is a token of its own. -/
def ofMark? (c : Char) (offset : Nat) : Option Token :=
  if c = '(' then some (.opening offset)
  else if c = ')' then some (.closing offset)
  else if c = '\x27' then some (.quote offset)
  else none

/-- Put the pending run, which ends before `offset` and is held last character first, in front of
the tokens that follow. -/
def flush (run : List Char) (offset : Nat) (rest : Except ParseFailure (List Token)) :
    Except ParseFailure (List Token) :=
  match run with
  | [] => rest
  | _ :: _ =>
    match ofAtom run.reverse (offset - run.length) with
    | .error e => .error e
    | .ok t => rest.map (t :: ·)

/-- The tokens of a text whose first character has the given offset, after a pending run of atom
characters, held last character first. -/
def scan : List Char → Nat → List Char → Except ParseFailure (List Token)
  | run, offset, [] => flush run offset (.ok [])
  | run, offset, c :: cs =>
    match ofMark? c offset with
    | some t => flush run offset ((scan [] (offset + 1) cs).map (t :: ·))
    | none =>
      if Text.isBlank c then flush run offset (scan [] (offset + 1) cs)
      else scan (c :: run) (offset + 1) cs

def tokens (text : String) : Except ParseFailure (List Token) :=
  scan [] 0 text.toList

end Token

end CellScheme
