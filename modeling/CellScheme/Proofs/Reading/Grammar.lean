import CellScheme.Reader
import Mathlib.Tactic.Common

/-!
The grammar of source text, stated without the reader. A text is cut into marks, blanks and words;
a word is the spelling of an atom; a script is a sequence of expressions, and an expression is an
atom, a quoted expression or a sequence of expressions in brackets.
-/

namespace CellScheme.Grammar

/-- What a text is cut into once the blanks are gone. -/
inductive Terminal where
  | opening
  | closing
  | quote
  | word (cs : List Char)

/-- A character that is neither a blank nor a mark. -/
def WordChar (c : Char) : Prop :=
  Text.isBlank c = false ∧ c ≠ '(' ∧ c ≠ ')' ∧ c ≠ '\x27'

/-- A text cut into blanks, marks and words. A word is as long as it can be. -/
inductive Cut : List Char → List Terminal → Prop where
  | done : Cut [] []
  | blank {c cs ts} : Text.isBlank c → Cut cs ts → Cut (c :: cs) ts
  | opening {cs ts} : Cut cs ts → Cut ('(' :: cs) (.opening :: ts)
  | closing {cs ts} : Cut cs ts → Cut (')' :: cs) (.closing :: ts)
  | quote {cs ts} : Cut cs ts → Cut ('\x27' :: cs) (.quote :: ts)
  | word {w cs ts} : w ≠ [] → (∀ c ∈ w, WordChar c) → (∀ c ∈ cs.head?, ¬ WordChar c) →
      Cut cs ts → Cut (w ++ cs) (.word w :: ts)

def Digits (cs : List Char) : Prop :=
  cs ≠ [] ∧ ∀ c ∈ cs, c.isDigit

/-- The decimal spellings of an integer. Leading zeros are allowed, also after the sign. -/
inductive Decimal : List Char → Int → Prop where
  | natural {cs} : Digits cs → Decimal cs (Nat.ofDigitChars 10 cs 0)
  | negative {cs} : Digits cs → Decimal ('-' :: cs) (-(Nat.ofDigitChars 10 cs 0 : Int))

def SymbolChar (c : Char) : Prop :=
  c.isAlphanum ∨ c ∈ "_+-*/\\=<>!&?".toList

/-- The spellings of a symbol: what is written in the characters of symbols and is neither a decimal
nor the name of a truth value. -/
structure Spelling (cs : List Char) : Prop where
  ne_nil : cs ≠ []
  chars : ∀ c ∈ cs, SymbolChar c
  not_decimal : ∀ v, ¬ Decimal cs v
  not_boolean : cs ≠ "true".toList ∧ cs ≠ "false".toList

/-- The spellings of an atom. A decimal has to be that of a 64-bit integer. -/
inductive Atom : List Char → Datum → Prop where
  | int {cs} {v : Int64} : Decimal cs v.toInt → Atom cs (.int v)
  | true : Atom "true".toList (.bool true)
  | false : Atom "false".toList (.bool false)
  | symbol {cs} : Spelling cs → Atom cs (.symbol (Name.ofString (String.ofList cs)))

mutual
/-- The derivation of an expression; the expression is its tree. -/
inductive Sexp : List Terminal → Datum → Prop where
  | atom {w d} : Atom w d → Sexp [.word w] d
  | quote {ts d} : Sexp ts d → Sexp (.quote :: ts) (.quote d)
  | list {ts ds} : Sexps ts ds → Sexp (.opening :: (ts ++ [.closing])) (.list ds)

inductive Sexps : List Terminal → List Datum → Prop where
  | nil : Sexps [] []
  | cons {ts us d ds} : Sexp ts d → Sexps us ds → Sexps (ts ++ us) (d :: ds)
end

/-- A text is a script of these expressions. -/
def Script (cs : List Char) (ds : List Datum) : Prop :=
  ∃ ts, Cut cs ts ∧ Sexps ts ds

theorem Sexps.append {ts us : List Terminal} {ds es : List Datum} (h : Sexps ts ds)
    (h' : Sexps us es) : Sexps (ts ++ us) (ds ++ es) := by
  induction ds generalizing ts with
  | nil =>
      cases h
      exact h'
  | cons d ds ih =>
      cases h with
      | cons hd hds =>
          rw [List.append_assoc]
          exact .cons hd (ih hds)

theorem Sexps.singleton {ts : List Terminal} {d : Datum} (h : Sexp ts d) : Sexps ts [d] := by
  have hc := Sexps.cons h .nil
  rwa [List.append_nil] at hc

theorem Sexps.snoc {ts us : List Terminal} {ds : List Datum} {d : Datum} (h : Sexps ts ds)
    (hd : Sexp us d) : Sexps (ts ++ us) (ds ++ [d]) :=
  h.append (.singleton hd)

theorem isDigit_eq (c : Char) : Text.isDigit c = c.isDigit := by
  rw [Text.isDigit, Char.isDigit]
  rfl

theorem all_isDigit_iff {cs : List Char} :
    (!cs.isEmpty && cs.all Text.isDigit) = true ↔ Digits cs := by
  simp [Digits, isDigit_eq]

theorem Digits.not_minus {cs : List Char} (h : Digits ('-' :: cs)) : False := by
  have hd := h.2 '-' (by simp)
  revert hd
  decide

theorem Digits.isDecimal {cs : List Char} (h : Digits cs) : isDecimal cs = true := by
  unfold CellScheme.isDecimal
  split
  · exact h.not_minus.elim
  · exact all_isDigit_iff.mpr h

theorem Digits.intOfLiteral {cs : List Char} (h : Digits cs) :
    Text.intOfLiteral cs = Text.natOfDigits cs := by
  unfold Text.intOfLiteral
  split
  · exact h.not_minus.elim
  · rfl

theorem decimal_iff {cs : List Char} {v : Int} :
    Decimal cs v ↔ isDecimal cs = true ∧ Text.intOfLiteral cs = v := by
  constructor
  · rintro (hd | hd)
    · exact ⟨hd.isDecimal, hd.intOfLiteral⟩
    · exact ⟨all_isDigit_iff.mpr hd, rfl⟩
  · rintro ⟨hd, rfl⟩
    unfold isDecimal at hd
    split at hd
    · exact .negative (all_isDigit_iff.mp hd)
    · rename_i hne
      unfold Text.intOfLiteral
      split
      · exact (hne _ rfl).elim
      · exact .natural (all_isDigit_iff.mp hd)

theorem isSymbolChar_iff {c : Char} : isSymbolChar c = true ↔ SymbolChar c := by
  unfold SymbolChar Char.isAlphanum Char.isAlpha Char.isUpper Char.isLower
  simp only [isSymbolChar, isDigit_eq, Bool.or_eq_true, Bool.and_eq_true, decide_eq_true_eq,
    List.contains_iff_mem]
  tauto

theorem isSymbol_iff {cs : List Char} :
    isSymbol cs = true ↔ cs ≠ [] ∧ ∀ c ∈ cs, SymbolChar c := by
  simp [isSymbol, isSymbolChar_iff]

theorem int64?_eq_some {i : Int} {v : Int64} : Text.int64? i = some v ↔ v.toInt = i := by
  unfold Text.int64? Text.minInt64 Text.maxInt64
  constructor
  · intro h
    split at h
    · obtain rfl := Option.some.inj h
      exact Int64.toInt_ofInt_of_le (by omega) (by omega)
    · cases h
  · rintro rfl
    have hlo := v.le_toInt
    have hhi := v.toInt_lt
    rw [if_pos (by omega), Int64.ofInt_toInt]

theorem Spelling.class_eq {cs : List Char} (h : Spelling cs) :
    AtomClass.of? cs = some .symbol := by
  have hd : ¬ isDecimal cs = true := fun hd => h.not_decimal _ (decimal_iff.mpr ⟨hd, rfl⟩)
  have hb : ¬ isBoolean cs = true := by simpa [isBoolean] using h.not_boolean
  rw [AtomClass.of?, if_neg hd, if_neg hb, if_pos (isSymbol_iff.mpr ⟨h.ne_nil, h.chars⟩)]

/-- The class of a word, and the atom that is made of it, are as the grammar says. -/
theorem atom_iff {cs : List Char} {d : Datum} (offset : Nat) :
    Atom cs d ↔
      ∃ c, AtomClass.of? cs = some c ∧ Reading.atomDatum c cs offset = .ok d := by
  constructor
  · intro h
    cases h with
    | int hd =>
        obtain ⟨hd, hv⟩ := decimal_iff.mp hd
        refine ⟨.decimal, by rw [AtomClass.of?, if_pos hd], ?_⟩
        simp only [Reading.atomDatum, hv, int64?_eq_some.mpr rfl]
    | true => exact ⟨.bool, by decide, rfl⟩
    | false => exact ⟨.bool, by decide, rfl⟩
    | symbol hs => exact ⟨.symbol, hs.class_eq, rfl⟩
  · rintro ⟨c, hc, hd⟩
    unfold AtomClass.of? at hc
    split at hc
    · rename_i hdec
      obtain rfl := Option.some.inj hc
      simp only [Reading.atomDatum] at hd
      split at hd
      · rename_i v hv
        obtain rfl := Except.ok.inj hd
        exact .int (decimal_iff.mpr ⟨hdec, (int64?_eq_some.mp hv).symm⟩)
      · cases hd
    · rename_i hdec
      split at hc
      · rename_i hbool
        obtain rfl := Option.some.inj hc
        obtain rfl := Except.ok.inj hd
        rcases of_decide_eq_true hbool with rfl | rfl
        · exact .true
        · exact .false
      · rename_i hbool
        split at hc
        · rename_i hsym
          obtain rfl := Option.some.inj hc
          obtain rfl := Except.ok.inj hd
          obtain ⟨ne, chars⟩ := isSymbol_iff.mp hsym
          refine .symbol ⟨ne, chars, fun v hv => hdec (decimal_iff.mp hv).1, ?_⟩
          simpa [isBoolean] using hbool
        · cases hc

mutual
theorem Sexp.word_atom {ts : List Terminal} {d : Datum} (h : Sexp ts d) {w : List Char}
    (hw : .word w ∈ ts) : ∃ a, Atom w a := by
  cases h with
  | atom ha =>
      obtain rfl : w = _ := by simpa using hw
      exact ⟨d, ha⟩
  | quote hd => exact hd.word_atom (by simpa using hw)
  | list hds => exact hds.word_atom (by simpa using hw)

theorem Sexps.word_atom {ts : List Terminal} {ds : List Datum} (h : Sexps ts ds) {w : List Char}
    (hw : .word w ∈ ts) : ∃ a, Atom w a := by
  cases h with
  | nil => cases hw
  | cons hd hds =>
      rcases List.mem_append.mp hw with hw | hw
      · exact hd.word_atom hw
      · exact hds.word_atom hw
end

end CellScheme.Grammar
