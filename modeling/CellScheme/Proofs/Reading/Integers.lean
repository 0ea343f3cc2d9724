import CellScheme.Proofs.Reading.RoundTrip
import CellScheme.Proofs.Reading.Tiling
import Mathlib.Algebra.Ring.Int.Defs

/-!
Integers in texts. A decimal of any length is read as the integer that it denotes if that has 64
bits, and refused otherwise, wherever it stands; and an integer is printed as the only decimal for
it that is written without needless zeros.
-/

namespace CellScheme

open Grammar (Terminal WordChar Cut Digits Decimal Sexps Script)

namespace Grammar

/-- A decimal without needless zeros: the first of several digits is none, and neither is the one
behind a sign. -/
inductive Canonical : List Char → Prop where
  | zero : Canonical ['0']
  | natural {cs} : Digits cs → cs.head? ≠ some '0' → Canonical cs
  | negative {cs} : Digits cs → cs.head? ≠ some '0' → Canonical ('-' :: cs)

theorem digitChar_value {c : Char} (h : c.isDigit) :
    c.toNat - '0'.toNat < 10 ∧ Nat.digitChar (c.toNat - '0'.toNat) = c := by
  have range : 48 ≤ c.toNat ∧ c.toNat ≤ 57 := by
    simpa [Char.isDigit, UInt32.le_iff_toNat_le] using h
  have value : c.toNat - '0'.toNat < 10 := by
    change c.toNat - 48 < 10
    omega
  refine ⟨value, Char.toNat_inj.mp ?_⟩
  rw [Nat.toNat_digitChar_of_lt_ten value]
  change 48 + (c.toNat - 48) = c.toNat
  omega

/-- Digits behind those of a positive number are the last ones of the number that all denote. -/
theorem toDigits_append {cs : List Char} (h : ∀ c ∈ cs, c.isDigit) {n : Nat} (hn : 0 < n) :
    Nat.toDigits 10 n ++ cs = Nat.toDigits 10 (Nat.ofDigitChars 10 cs n) := by
  induction cs generalizing n with
  | nil => simp
  | cons c cs ih =>
      obtain ⟨value, char⟩ := digitChar_value (h c (by simp))
      have one : Nat.toDigits 10 n ++ [c] = Nat.toDigits 10 (10 * n + (c.toNat - '0'.toNat)) := by
        rw [← Nat.toDigits_append_toDigits (by decide) hn value, Nat.toDigits_of_lt_base value,
          char]
      rw [Nat.ofDigitChars_cons, ← ih (fun d hd => h d (by simp [hd])) (by omega), ← one,
        List.append_assoc]
      rfl

theorem Digits.eq_natChars {cs : List Char} (h : Digits cs) (hz : cs.head? ≠ some '0') :
    cs = Text.natChars (Nat.ofDigitChars 10 cs 0) ∧ 0 < Nat.ofDigitChars 10 cs 0 := by
  obtain ⟨c, cs, rfl⟩ := List.exists_cons_of_ne_nil h.1
  obtain ⟨value, char⟩ := digitChar_value (h.2 c (by simp))
  have pos : 0 < c.toNat - '0'.toNat := by
    refine Nat.pos_of_ne_zero fun h0 => hz ?_
    rw [h0] at char
    rw [← char]
    rfl
  have digits : ∀ d ∈ cs, d.isDigit := fun d hd => h.2 d (by simp [hd])
  have all := toDigits_append digits pos
  rw [Nat.toDigits_of_lt_base value, char] at all
  have same : c :: cs = Text.natChars (Nat.ofDigitChars 10 (c :: cs) 0) := by
    rw [Nat.ofDigitChars_cons, Text.natChars]
    simpa using all
  refine ⟨same, Nat.pos_of_ne_zero fun h0 => hz ?_⟩
  rw [h0] at same
  rw [same]
  rfl

theorem Canonical.eq_intChars {cs : List Char} (h : Canonical cs) {i : Int} (hi : Decimal cs i) :
    cs = Text.intChars i := by
  have denotes {ds : List Char} {j : Int} (hd : Digits ds) (hj : Decimal ds j) :
      j = Nat.ofDigitChars 10 ds 0 := by
    cases hj with
    | natural _ => rfl
    | negative _ => exact hd.not_minus.elim
  cases h with
  | zero =>
      cases hi with
      | natural _ => rfl
  | natural hd hz =>
      obtain ⟨same, _⟩ := hd.eq_natChars hz
      rw [denotes hd hi, Text.intChars, if_neg (by omega)]
      exact same
  | negative hd hz =>
      obtain ⟨same, pos⟩ := hd.eq_natChars hz
      cases hi with
      | natural hd' => exact hd'.not_minus.elim
      | negative _ =>
          rw [Text.intChars, if_pos (by omega), Int.natAbs_neg, Int.natAbs_natCast, ← same]

end Grammar

namespace Text

theorem head?_natChars {n : Nat} (h : 0 < n) : (natChars n).head? ≠ some '0' := by
  unfold natChars
  induction n using Nat.strongRecOn with
  | ind n ih =>
      rw [Nat.toDigits_eq_if (by decide)]
      split
      · intro hc
        have zero : n.digitChar = '0' := Option.some.inj hc
        exact absurd (Nat.digitChar_eq_zero.mp zero) (by omega)
      · rw [List.head?_append, Option.or_of_isSome (by simp [Nat.toDigits_ne_nil])]
        exact ih (n / 10) (by omega) (by omega)

theorem intChars_canonical (i : Int) : Grammar.Canonical (intChars i) := by
  unfold intChars
  split
  · exact .negative (natChars_digits _) (head?_natChars (by omega))
  · by_cases h : i = 0
    · subst h
      exact .zero
    · exact .natural (natChars_digits _) (head?_natChars (by omega))

end Text

theorem Text.int64?_eq_none {i : Int} : int64? i = none ↔ ¬ (-2 ^ 63 ≤ i ∧ i < 2 ^ 63) := by
  unfold int64? minInt64 maxInt64
  split
  · simp only [reduceCtorEq, false_iff, not_not]
    omega
  · simp only [true_iff]
    omega

theorem Text.exists_int64 {i : Int} (h : -2 ^ 63 ≤ i ∧ i < 2 ^ 63) : ∃ v : Int64, v.toInt = i := by
  cases hv : int64? i with
  | none => exact absurd h (int64?_eq_none.mp hv)
  | some v => exact ⟨v, Grammar.int64?_eq_some.mp hv⟩

namespace Reading

theorem atomDatum_outOfRange {cs : List Char} {i : Int} (h : Decimal cs i)
    (hi : ¬ (-2 ^ 63 ≤ i ∧ i < 2 ^ 63)) (offset : Nat) :
    atomDatum .decimal cs offset = .error (.literalOutOfRange (String.ofList cs) offset) := by
  rw [atomDatum, (Grammar.decimal_iff.mp h).2, Text.int64?_eq_none.mpr hi]

theorem feedAll_error {t : Token} (ht : ∀ r : Reading, ∃ e, r.feed t = .error e)
    {ts : List Token} (hmem : t ∈ ts) (r : Reading) : ∃ e, r.feedAll ts = .error e := by
  induction ts generalizing r with
  | nil => cases hmem
  | cons u ts ih =>
      rw [feedAll]
      cases hu : r.feed u with
      | error e => exact ⟨e, rfl⟩
      | ok r' =>
          rcases List.mem_cons.mp hmem with rfl | hmem
          · obtain ⟨e, he⟩ := ht r
            rw [hu] at he
            cases he
          · exact ih hmem r'

end Reading

namespace Datum

/-- A decimal alone is read as the integer that it denotes. -/
theorem parse_decimal {cs : List Char} {v : Int64} (h : Decimal cs v.toInt) :
    parse (String.ofList cs) = .ok (.int v) := by
  rw [parse_eq_ok, String.toList_ofList]
  obtain ⟨us, cut, hus⟩ := Writes.atom (.int h) [] [] (by simp) .done
  rw [List.append_nil, List.append_nil] at cut
  exact ⟨us, cut, .singleton hus⟩

/-- A decimal alone that denotes none of the integers is refused. -/
theorem parse_decimal_outOfRange {cs : List Char} {i : Int} (h : Decimal cs i)
    (hi : ¬ (-2 ^ 63 ≤ i ∧ i < 2 ^ 63)) :
    parse (String.ofList cs) = .error (.parse (.literalOutOfRange (String.ofList cs) 0)) := by
  have word : ∀ c ∈ cs, WordChar c := fun c hc => (h.symbolChar hc).wordChar
  have cls : AtomClass.of? cs = some .decimal := by
    rw [AtomClass.of?, if_pos (Grammar.decimal_iff.mp h).1]
  have scanned : Token.scan [] 0 cs = .ok [.atom .decimal cs 0] := by
    have hs := Token.scan_word word [] 0 []
    rw [List.append_nil, List.append_nil] at hs
    obtain ⟨a, v, hav⟩ := List.exists_cons_of_ne_nil (List.reverse_ne_nil_iff.mpr h.ne_nil)
    have hrev : (a :: v).reverse = cs := by rw [← hav, List.reverse_reverse]
    have hlen : (a :: v).length = cs.length := by rw [← hav, List.length_reverse]
    rw [hs, hav, Token.scan]
    simp only [Token.flush, Token.ofAtom, AtomClass.decode, hrev, hlen, cls, Except.map]
    simp
  rw [parse, parseAll, readAll, Token.tokens, String.toList_ofList, scanned]
  simp only [Reading.feedAll, Reading.feed, Reading.atomDatum_outOfRange h hi, Except.map]

theorem parseAll_outOfRange {text : String} {p : Nat} {cs : List Char}
    (hrun : Grammar.Run text.toList p cs) {i : Int} (h : Decimal cs i)
    (hi : ¬ (-2 ^ 63 ≤ i ∧ i < 2 ^ 63)) : ∃ e, parseAll text = .error (.parse e) := by
  refine parseAll_error_of_not fun ⟨ds, hs⟩ => ?_
  have hread := readAll_eq_ok.mpr hs
  have answers : Token.Answers text.toList 0 (Token.tokens text) :=
    @Token.scan_answers _ [] [] _ rfl (by simp) (by simp)
  rw [readAll] at hread
  cases hts : Token.tokens text with
  | error e => rw [hts] at hread; cases hread
  | ok ts =>
      rw [hts] at hread answers
      obtain ⟨cls, hmem⟩ := (answers.runs p cs (Nat.zero_le p)).mp hrun
      have hcls : AtomClass.of? cs = some cls := answers.classed _ hmem
      rw [AtomClass.of?, if_pos (Grammar.decimal_iff.mp h).1] at hcls
      obtain rfl := Option.some.inj hcls
      obtain ⟨e, he⟩ := Reading.feedAll_error (t := .atom .decimal cs p) (fun r => ⟨_, by
        rw [Reading.feed, Reading.atomDatum_outOfRange h hi]
        rfl⟩) hmem .start
      simp only [he] at hread
      cases hread

/-- Decimals one after the other spell their integers. -/
theorem sexps_decimals {ls : List (List Char)} {vs : List Int64}
    (h : List.Forall₂ (fun l v => Decimal l v.toInt) ls vs) :
    Sexps (ls.map .word) (vs.map .int) := by
  induction h with
  | nil => exact .nil
  | cons hl _ ih => exact .cons (.atom (.int hl)) ih

theorem parse_call {text : String} {w : List Char} (hw : Grammar.Spelling w)
    {ls : List (List Char)} {vs : List Int64}
    (hls : List.Forall₂ (fun l v => Decimal l v.toInt) ls vs)
    (cut : Cut text.toList (.opening :: (.word w :: ls.map .word ++ [.closing]))) :
    parse text = .ok (.list (.symbol (Name.ofString (String.ofList w)) :: vs.map .int)) :=
  parse_eq_ok.mpr
    ⟨_, cut, .singleton (.list (.cons (.atom (.symbol hw)) (sexps_decimals hls)))⟩

end Datum

end CellScheme
