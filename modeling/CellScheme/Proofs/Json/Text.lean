import CellScheme.Json.Reader
import CellScheme.Json.Writer
import CellScheme.Proofs.Text.Utf8
import Mathlib.Data.List.Basic
import Mathlib.Tactic.IntervalCases

/-!
JSON text is read as the value that it was written for. A written value is read in front of any
bytes that cannot lengthen a numeral, in as many calls as the reader allows for its length, as long
as its containers nest no deeper than the reader goes.
-/

namespace CellScheme

namespace Text

def encode (cs : List Char) : Bytes :=
  cs.flatMap String.utf8EncodeChar

@[simp] theorem encode_nil : encode [] = [] := rfl

@[simp] theorem encode_append (cs ds : List Char) : encode (cs ++ ds) = encode cs ++ encode ds :=
  List.flatMap_append

theorem encode_cons (c : Char) (cs : List Char) :
    encode (c :: cs) = String.utf8EncodeChar c ++ encode cs := rfl

theorem encode_ascii {c : Char} (h : c.toNat < 0x80) (cs : List Char) :
    encode (c :: cs) = UInt8.ofNat c.toNat :: encode cs := by
  rw [encode_cons, encodeChar_one h, List.singleton_append]

theorem length_le_encode (cs : List Char) : cs.length ≤ (encode cs).length := by
  induction cs with
  | nil => exact Nat.le_refl 0
  | cons c cs ih =>
      have hpos := c.utf8Size_pos
      rw [encode_cons, List.length_append, String.length_utf8EncodeChar, List.length_cons]
      omega

theorem encode_ne_nil {cs : List Char} (h : cs ≠ []) : encode cs ≠ [] := by
  have hle := length_le_encode cs
  have hpos := List.length_pos_iff.mpr h
  exact List.length_pos_iff.mp (by omega)

end Text

namespace Json

open Text (encode encode_cons encode_ascii encode_ne_nil)

theorem stringBody_byte {b : UInt8} (hq : b ≠ 0x22) (he : b ≠ 0x5C) (more : Bytes) :
    stringBody (b :: more) = (stringBody more).map fun (s, rest) => (b :: s, rest) := by
  rw [stringBody]
  · simp [he]
  · exact hq
  · intros; simp_all
  · intros; simp_all

theorem stringBody_simple {c e : UInt8} (h : simpleEscape? c = some e) (hu : c ≠ 0x75)
    (more : Bytes) :
    stringBody (0x5C :: c :: more) = (stringBody more).map fun (s, rest) => (e :: s, rest) := by
  rw [stringBody]
  · simp [h]
  · intro a b c d rest hc
    exact absurd hc hu

theorem stringBody_unit {a b c d : UInt8} {n : Nat} (h : unit? a b c d = some n)
    (hn : isSurrogate n = false) (more : Bytes) :
    stringBody (0x5C :: 0x75 :: a :: b :: c :: d :: more) =
      (stringBody more).map fun (s, rest) => (String.utf8EncodeChar (Char.ofNat n) ++ s, rest) := by
  rw [stringBody]
  simp [h, hn]

theorem stringBody_bytes {bs : Bytes} (h : ∀ b ∈ bs, b ≠ 0x22 ∧ b ≠ 0x5C) (more : Bytes) :
    stringBody (bs ++ more) = (stringBody more).map fun (s, rest) => (bs ++ s, rest) := by
  induction bs with
  | nil => simp
  | cons b bs ih =>
      have hb := h b (by simp)
      rw [List.cons_append, stringBody_byte hb.1 hb.2, ih fun c hc => h c (by simp [hc])]
      simp [Function.comp_def]

/-- The characters that are written as escapes by number. -/
def IsNumbered (n : Nat) : Prop :=
  n < 0x20 ∨ n = 0x3C ∨ n = 0x3E ∨ n = 0x26 ∨ n = 0x2028 ∨ n = 0x2029

theorem unit?_hexChars {n : Nat} (h : IsNumbered n) :
    ∃ a b c d, encode (Text.hexChars 4 n) = [a, b, c, d] ∧ unit? a b c d = some n ∧
      isSurrogate n = false := by
  have hsmall : ∀ n < 0x20, ∃ a b c d, encode (Text.hexChars 4 n) = [a, b, c, d] ∧
      unit? a b c d = some n ∧ isSurrogate n = false := by
    intro n hn
    interval_cases n <;> exact ⟨_, _, _, _, rfl, rfl, rfl⟩
  rcases h with h | rfl | rfl | rfl | rfl | rfl
  · exact hsmall n h
  all_goals exact ⟨_, _, _, _, rfl, rfl, rfl⟩

/-- A character that is written as itself. -/
theorem stringBody_char {c : Char} (hquote : c ≠ '\x22') (hslash : c ≠ '\x5c') (more : Bytes) :
    stringBody (String.utf8EncodeChar c ++ more) =
      (stringBody more).map fun (s, rest) => (String.utf8EncodeChar c ++ s, rest) := by
  refine stringBody_bytes (fun b hb => ?_) more
  by_cases hc : c.toNat < 0x80
  · rw [Text.encodeChar_one hc, List.mem_singleton] at hb
    have hchar : Char.ofNat b.toNat = c := by
      rw [hb, Text.toNat_ofNat (by omega), Char.ofNat_toNat]
    constructor
    · rintro rfl
      exact hquote hchar.symm
    · rintro rfl
      exact hslash hchar.symm
  · have hle := Text.le_of_mem_encodeChar (by omega) hb
    constructor
    · rintro rfl
      exact absurd hle (by decide)
    · rintro rfl
      exact absurd hle (by decide)

/-- Each character of a string is read off its written form. -/
theorem stringBody_escapedChar (c : Char) (more : Bytes) :
    stringBody (encode (escapedChar c) ++ more) =
      (stringBody more).map fun (s, rest) => (String.utf8EncodeChar c ++ s, rest) := by
  unfold escapedChar
  split
  · exact stringBody_simple (e := 0x22) rfl (by decide) more
  · exact stringBody_simple (e := 0x5C) rfl (by decide) more
  · exact stringBody_simple (e := 0x08) rfl (by decide) more
  · exact stringBody_simple (e := 0x0C) rfl (by decide) more
  · exact stringBody_simple (e := 0x0A) rfl (by decide) more
  · exact stringBody_simple (e := 0x0D) rfl (by decide) more
  · exact stringBody_simple (e := 0x09) rfl (by decide) more
  · rename_i hquote hslash _ _ _ _ _
    dsimp only
    split
    · rename_i hc
      have hn : IsNumbered c.toNat := by
        rcases hc with h | rfl | rfl | rfl | h | h
        · exact .inl h
        · exact .inr (.inl rfl)
        · exact .inr (.inr (.inl rfl))
        · exact .inr (.inr (.inr (.inl rfl)))
        · exact .inr (.inr (.inr (.inr (.inl h))))
        · exact .inr (.inr (.inr (.inr (.inr h))))
      obtain ⟨a, b, d, e, hhex, hunit, hsur⟩ := unit?_hexChars hn
      have hread := stringBody_unit hunit hsur more
      rw [Char.ofNat_toNat] at hread
      rw [encode_ascii (by decide), encode_ascii (by decide), hhex]
      exact hread
    · rw [encode_cons, Text.encode_nil, List.append_nil]
      exact stringBody_char hquote hslash more

theorem stringBody_escaped (cs : List Char) (more : Bytes) :
    stringBody (encode (cs.flatMap escapedChar) ++ 0x22 :: more) = some (encode cs, more) := by
  induction cs with
  | nil => rw [List.flatMap_nil, Text.encode_nil, List.nil_append, stringBody]
  | cons c cs ih =>
      rw [List.flatMap_cons, Text.encode_append, List.append_assoc, stringBody_escapedChar, ih]
      rfl

/-- A written string, after its opening quote. -/
theorem stringBody_stringChars (s : String) (more : Bytes) :
    ∃ bs, encode (stringChars (Text.utf8 s)) ++ more = 0x22 :: bs ∧
      stringBody bs = some (Text.utf8 s, more) := by
  refine ⟨encode (s.toList.flatMap escapedChar) ++ 0x22 :: more, ?_, stringBody_escaped _ _⟩
  rw [stringChars, Text.glyphs_utf8, List.flatMap_map, encode_ascii (by decide),
    Text.encode_append, List.cons_append, List.append_assoc]
  rfl

/-- What follows a value does not lengthen a numeral. -/
def Stops (rest : Bytes) : Prop :=
  ∀ b ∈ rest.head?, isNumeralByte b = false

theorem Stops.cons {b : UInt8} (h : isNumeralByte b = false) (rest : Bytes) :
    Stops (b :: rest) := by
  intro c hc
  obtain rfl : b = c := by simpa using hc
  exact h

theorem numeralBytes_append {bs rest : Bytes} (h : ∀ b ∈ bs, isNumeralByte b = true)
    (hrest : Stops rest) : numeralBytes (bs ++ rest) = (bs, rest) := by
  have htake : rest.takeWhile isNumeralByte = [] := by
    cases rest with
    | nil => rfl
    | cons b rest => exact List.takeWhile_cons_of_neg (by simp [hrest b rfl])
  have hdrop : rest.dropWhile isNumeralByte = rest := by
    cases rest with
    | nil => rfl
    | cons b rest => exact List.dropWhile_cons_of_neg (by simp [hrest b rfl])
  rw [numeralBytes, List.takeWhile_append_of_pos h, List.dropWhile_append_of_pos h, htake, hdrop,
    List.append_nil]

theorem digit_range {c : Char} (h : c.isDigit) : 48 ≤ c.toNat ∧ c.toNat ≤ 57 := by
  simp only [Char.isDigit, Bool.and_eq_true, decide_eq_true_eq, UInt32.le_iff_toNat_le] at h
  exact h

theorem encode_digits {cs : List Char} (h : ∀ c ∈ cs, c.isDigit) :
    encode cs = cs.map fun c => UInt8.ofNat c.toNat := by
  induction cs with
  | nil => rfl
  | cons c cs ih =>
      have hc := digit_range (h c (by simp))
      rw [encode_ascii (by omega), ih fun d hd => h d (by simp [hd]), List.map_cons]

theorem isDigitByte_of_mem {cs : List Char} (h : ∀ c ∈ cs, c.isDigit) {b : UInt8}
    (hb : b ∈ encode cs) : isDigitByte b = true := by
  rw [encode_digits h] at hb
  obtain ⟨c, hc, rfl⟩ := List.mem_map.mp hb
  have hr := digit_range (h c hc)
  have hval := Text.toNat_ofNat (n := c.toNat) (by omega)
  rw [isDigitByte, digit?, if_pos, Option.isSome_some]
  simp only [Bool.and_eq_true, decide_eq_true_eq, UInt8.le_iff_toNat_le, hval]
  exact hr

theorem natOfBytes_encode {cs : List Char} (h : ∀ c ∈ cs, c.isDigit) :
    natOfBytes (encode cs) = Text.natOfDigits cs := by
  rw [encode_digits h, natOfBytes, Text.natOfDigits, List.foldl_map]
  apply List.foldl_ext
  intro n c hc
  have hr := digit_range (h c hc)
  rw [Text.toNat_ofNat (by omega)]
  rfl

theorem plainNat?_encode {cs : List Char} (h : ∀ c ∈ cs, c.isDigit)
    (hlt : Text.natOfDigits cs < UInt64.size) :
    plainNat? (encode cs) = some (Text.natOfDigits cs) := by
  have hall : (encode cs).all isDigitByte = true :=
    List.all_eq_true.mpr fun b hb => isDigitByte_of_mem h hb
  rw [plainNat?]
  simp only [natOfBytes_encode h, hall, hlt, decide_true, Bool.and_self, if_true]

theorem isNumeralByte_of_digit {b : UInt8} (h : isDigitByte b = true) : isNumeralByte b = true := by
  simp [isNumeralByte, h]

theorem splitMinus_digits {cs : List Char} (h : Grammar.Digits cs) :
    splitMinus (encode cs) = (false, encode cs) := by
  cases hcs : encode cs with
  | nil => rfl
  | cons b bs =>
      have hb : isDigitByte b = true := isDigitByte_of_mem h.2 (by simp [hcs])
      refine if_neg ?_
      rintro rfl
      exact absurd hb (by decide)

/-- The decimal spellings of a 64-bit integer are numerals of it. -/
theorem numeral?_decimal {cs : List Char} {v : Int64} (h : Grammar.Decimal cs v.toInt) :
    numeral? (encode cs) = some (.int v) := by
  have hlo := v.le_toInt
  have hhi := v.toInt_lt
  have hvalue := (Grammar.decimal_iff.mp h).2
  generalize hi : v.toInt = i at h
  cases h with
  | natural hd =>
      rw [hd.intOfLiteral] at hvalue
      have hnat := plainNat?_encode hd.2 (by rw [show UInt64.size = 2 ^ 64 from rfl]; omega)
      simp only [numeral?, splitMinus_digits hd, hnat]
      rw [Grammar.int64?_eq_some.mpr]
      · rfl
      · simp [signed, hvalue]
  | @negative ds hd =>
      change -(Text.natOfDigits ds : Int) = v.toInt at hvalue
      have hnat := plainNat?_encode hd.2 (by rw [show UInt64.size = 2 ^ 64 from rfl]; omega)
      have hsplit : splitMinus (encode ('-' :: ds)) = (true, encode ds) := by
        rw [encode_ascii (by decide)]
        rfl
      simp only [numeral?, hsplit, hnat]
      rw [Grammar.int64?_eq_some.mpr]
      · rfl
      · simp [signed, hvalue]

theorem isNumeralByte_decimal {cs : List Char} {i : Int} (h : Grammar.Decimal cs i) {b : UInt8}
    (hb : b ∈ encode cs) : isNumeralByte b = true := by
  cases h with
  | natural hd => exact isNumeralByte_of_digit (isDigitByte_of_mem hd.2 hb)
  | negative hd =>
      rw [encode_ascii (by decide)] at hb
      rcases List.mem_cons.mp hb with rfl | hb
      · decide
      · exact isNumeralByte_of_digit (isDigitByte_of_mem hd.2 hb)

/-- A byte that starts neither a space nor a container nor null. -/
structure StartsScalar (b : UInt8) : Prop where
  not_space : isSpace b = false
  not_null : b ≠ 0x6E
  not_bracket : b ≠ 0x5B
  not_brace : b ≠ 0x7B

theorem skipSpace_cons {b : UInt8} (h : isSpace b = false) (bs : Bytes) :
    skipSpace (b :: bs) = b :: bs :=
  List.dropWhile_cons_of_neg (by simp [h])

theorem value_scalar {b : UInt8} (h : StartsScalar b) (fuel depth : Nat) (asKey : Bool)
    (bs : Bytes) : value (fuel + 1) depth asKey .null (b :: bs) = scalar (b :: bs) := by
  have hnull : null? (b :: bs) = none := by
    rw [null?, skipSpace_cons h.not_space]
    exact if_neg h.not_null
  have hstart : Layout.ofStart? (b :: bs) = none := by
    rw [Layout.ofStart?, skipSpace_cons h.not_space]
    exact (if_neg h.not_bracket).trans (if_neg h.not_brace)
  rw [value]
  simp only [hnull, hstart]

theorem startsScalar_of_numeral {b : UInt8} (h : isNumeralByte b = true) : StartsScalar b where
  not_space := by
    have hlow : ∀ n < 33, isNumeralByte (UInt8.ofNat n) = false := by decide
    refine decide_eq_false fun hb => ?_
    have hfalse := hlow b.toNat (UInt8.lt_iff_toNat_lt.mp hb)
    rw [UInt8.ofNat_toNat, h] at hfalse
    cases hfalse
  not_null := by
    rintro rfl
    exact absurd h (by decide)
  not_bracket := by
    rintro rfl
    exact absurd h (by decide)
  not_brace := by
    rintro rfl
    exact absurd h (by decide)

theorem scalar_numeral {b : UInt8} {bs rest : Bytes} {v : Value}
    (h : ∀ c ∈ b :: bs, isNumeralByte c = true) (hv : numeral? (b :: bs) = some v)
    (hrest : Stops rest) : scalar (b :: bs ++ rest) = some (v, rest) := by
  have hb : isNumeralByte b = true := h b (by simp)
  have hquote : b ≠ 0x22 := by
    rintro rfl
    exact absurd hb (by decide)
  have hword : ¬ (decide (b = 't'.toUInt8) || decide (b = 'f'.toUInt8)) = true := by
    simp only [Bool.or_eq_true, decide_eq_true_eq]
    rintro (rfl | rfl)
    · exact absurd hb (by decide)
    · exact absurd hb (by decide)
  have hnumeral := numeralBytes_append h hrest
  rw [scalar, List.cons_append, skipSpace_cons (startsScalar_of_numeral hb).not_space]
  rw [List.cons_append] at hnumeral
  simp only [hquote, if_false, hword, hnumeral, hv]
  rfl

theorem expect_append (w : String) (rest : Bytes) :
    expect w (Text.utf8 w ++ rest) = some rest := by
  have hprefix : (Text.utf8 w).isPrefixOf (Text.utf8 w ++ rest) = true :=
    List.isPrefixOf_iff_prefix.mpr (List.prefix_append _ _)
  simp only [expect, hprefix, if_true, List.drop_left]

namespace Value

mutual
/-- How many containers stand inside each other. -/
def nesting : Value → Nat
  | .array xs => nestingOf xs + 1
  | .object ms => nestingOfMembers ms + 1
  | _ => 0
termination_by structural v => v

def nestingOf : List Value → Nat
  | [] => 0
  | x :: xs => max x.nesting (nestingOf xs)
termination_by structural xs => xs

def nestingOfMembers : List (Bytes × Value) → Nat
  | [] => 0
  | m :: ms => max (nestingOfMember m) (nestingOfMembers ms)
termination_by structural ms => ms

def nestingOfMember : Bytes × Value → Nat
  | (_, v) => v.nesting
termination_by structural m => m
end

/-- A value without reals whose strings and keys are text and whose keys differ. -/
inductive Plain : Value → Prop where
  | bool (b : Bool) : Plain (.bool b)
  | int (v : Int64) : Plain (.int v)
  | string (s : String) : Plain (.string (Text.utf8 s))
  | array {xs : List Value} : (∀ x ∈ xs, Plain x) → Plain (.array xs)
  | object {ms : List (Bytes × Value)} : (∀ m ∈ ms, ∃ s, m.1 = Text.utf8 s) →
      (∀ m ∈ ms, Plain m.2) → (ms.map Prod.fst).Nodup → Plain (.object ms)

/-- The text of the value is read back, in front of any bytes that may follow a value. -/
def ReadBack (fuel depth : Nat) (v : Value) : Prop :=
  ∀ rest, Stops rest → value fuel depth false .null (encode v.chars ++ rest) = some (v, rest)

end Value

theorem value_int (fuel depth : Nat) (v : Int64) : Value.ReadBack (fuel + 1) depth (.int v) := by
  intro rest hrest
  have hd := Text.intChars_decimal v.toInt
  have hmem : ∀ b ∈ encode (Text.intChars v.toInt), isNumeralByte b = true :=
    fun b hb => isNumeralByte_decimal hd hb
  have hnum := numeral?_decimal hd
  have hne : encode (Text.intChars v.toInt) ≠ [] := encode_ne_nil hd.ne_nil
  obtain ⟨b, bs, hbs⟩ := List.exists_cons_of_ne_nil hne
  rw [Value.chars, hbs, List.cons_append, value_scalar, ← List.cons_append]
  · rw [hbs] at hmem hnum
    exact scalar_numeral hmem hnum hrest
  · exact startsScalar_of_numeral (hmem b (by simp [hbs]))

theorem value_bool (fuel depth : Nat) (b : Bool) :
    Value.ReadBack (fuel + 1) depth (.bool b) := by
  intro rest _
  cases b with
  | true =>
      have hscalar (bs : Bytes) : scalar (0x74 :: bs) =
          ((expect "rue" bs).map fun rest => (true, rest)).map fun p => (.bool p.1, p.2) :=
        rfl
      change value (fuel + 1) depth false .null (0x74 :: (Text.utf8 "rue" ++ rest)) = _
      rw [value_scalar ⟨by decide, by decide, by decide, by decide⟩, hscalar, expect_append]
      rfl
  | false =>
      have hscalar (bs : Bytes) : scalar (0x66 :: bs) =
          ((expect "alse" bs).map fun rest => (false, rest)).map fun p => (.bool p.1, p.2) :=
        rfl
      change value (fuel + 1) depth false .null (0x66 :: (Text.utf8 "alse" ++ rest)) = _
      rw [value_scalar ⟨by decide, by decide, by decide, by decide⟩, hscalar, expect_append]
      rfl

theorem value_string (fuel depth : Nat) (s : String) :
    Value.ReadBack (fuel + 1) depth (.string (Text.utf8 s)) := by
  intro rest _
  obtain ⟨bs, hbs, hread⟩ := stringBody_stringChars s rest
  rw [Value.chars, hbs, value_scalar ⟨by decide, by decide, by decide, by decide⟩, scalar,
    skipSpace_cons (by decide)]
  simp [hread]

theorem value_sequence {depth : Nat} (h : depth + 1 < depthLimit) (fuel : Nat) (asKey : Bool)
    (bs : Bytes) :
    value (fuel + 1) depth asKey .null (0x5B :: bs) =
      (elements fuel (depth + 1) 0 bs).map fun (vs, rest) => (.array vs, rest) := by
  have henter : Layout.enter .sequence depth (0x5B :: bs) = some bs :=
    if_neg (Nat.not_le.mpr h)
  have hnull : null? (0x5B :: bs) = none := rfl
  have hstart : Layout.ofStart? (0x5B :: bs) = some .sequence := rfl
  rw [value]
  simp only [hnull, hstart, henter]

theorem value_pairs {depth : Nat} (h : depth + 1 < depthLimit) (fuel : Nat) (asKey : Bool)
    (bs : Bytes) :
    value (fuel + 1) depth asKey .null (0x7B :: bs) =
      (members fuel (depth + 1) true [] bs).map fun (ms, rest) => (.object ms, rest) := by
  have henter : Layout.enter .pairs depth (0x7B :: bs) = some bs :=
    if_neg (Nat.not_le.mpr h)
  have hnull : null? (0x7B :: bs) = none := rfl
  have hstart : Layout.ofStart? (0x7B :: bs) = some .pairs := rfl
  rw [value]
  simp only [hnull, hstart, henter]

/-- A byte that a part of a container can start with. -/
structure StartsPart (b : UInt8) : Prop where
  not_space : isSpace b = false
  not_closing : b ≠ 0x5D ∧ b ≠ 0x7D

theorem Layout.next_part {b : UInt8} (h : StartsPart b) (l : Layout) (bs : Bytes) :
    l.next 0 (b :: bs) = some (.part (b :: bs)) := by
  rw [Layout.next, skipSpace_cons h.not_space]
  have hclose : ¬ (decide (b = ']'.toUInt8) || decide (b = '\x7d'.toUInt8)) = true := by
    simp only [Bool.or_eq_true, decide_eq_true_eq]
    exact not_or.mpr h.not_closing
  simp only [hclose]
  rfl

theorem Layout.next_done (l : Layout) (i : Nat) (rest : Bytes) :
    l.next i (l.closing.toUInt8 :: rest) = some (.done rest) := by
  cases l <;> rfl

theorem Layout.next_comma (i : Nat) (bs : Bytes) :
    Layout.next .sequence (i + 1) (0x2C :: bs) = some (.part bs) := by
  have hsep : Layout.separator .sequence (i + 1) = some ',' := by simp [Layout.separator]
  rw [Layout.next, skipSpace_cons (by decide)]
  simp only [hsep]
  rfl

theorem Value.Plain.startsPart {v : Value} (h : v.Plain) :
    ∃ b bs, encode v.chars = b :: bs ∧ StartsPart b := by
  cases h with
  | bool b => cases b <;> exact ⟨_, _, rfl, by decide, by decide⟩
  | int v =>
      have hd := Text.intChars_decimal v.toInt
      obtain ⟨b, bs, hbs⟩ := List.exists_cons_of_ne_nil (encode_ne_nil hd.ne_nil)
      have hb : isNumeralByte b = true := isNumeralByte_decimal hd (by simp [hbs])
      refine ⟨b, bs, hbs, (startsScalar_of_numeral hb).not_space, ?_, ?_⟩
      · rintro rfl
        exact absurd hb (by decide)
      · rintro rfl
        exact absurd hb (by decide)
  | string s => exact ⟨0x22, _, encode_ascii (by decide) _, by decide, by decide⟩
  | array _ => exact ⟨0x5B, _, encode_ascii (by decide) _, by decide, by decide⟩
  | object _ _ _ => exact ⟨0x7B, _, encode_ascii (by decide) _, by decide, by decide⟩

/-- Values are read back with fuel of twice their length, up to this amount of fuel. -/
def ReadsUpTo (n : Nat) : Prop :=
  ∀ fuel ≤ n, ∀ depth (v : Value), v.Plain → depth + v.nesting < depthLimit →
    2 * v.chars.length ≤ fuel → v.ReadBack fuel depth

/-- Elements from a position on. -/
def elementChars : Nat → List Value → List Char
  | 0, xs => Value.arrayChars xs
  | _ + 1, xs => Value.moreArrayChars xs

theorem elementChars_nil (i : Nat) : elementChars i [] = [] := by
  cases i <;> rfl

theorem stops_more (xs : List Value) (rest : Bytes) :
    Stops (encode (Value.moreArrayChars xs) ++ 0x5D :: rest) := by
  cases xs with
  | nil => exact .cons (by decide) _
  | cons x xs =>
      rw [Value.moreArrayChars, encode_ascii (by decide)]
      exact .cons (by decide) _

/-- The mark in front of an element is taken. -/
theorem next_elementChars {x : Value} (h : x.Plain) (xs : List Value) (i : Nat) (rest : Bytes) :
    Layout.next .sequence i (encode (elementChars i (x :: xs)) ++ rest) =
      some (.part (encode x.chars ++ (encode (Value.moreArrayChars xs) ++ rest))) := by
  cases i with
  | zero =>
      obtain ⟨b, bs, hbs, hb⟩ := h.startsPart
      rw [elementChars, Value.arrayChars, Text.encode_append, List.append_assoc, hbs,
        List.cons_append, Layout.next_part hb]
  | succ i =>
      rw [elementChars, Value.moreArrayChars, encode_ascii (by decide), List.cons_append,
        Text.encode_append, List.append_assoc]
      exact Layout.next_comma i _

theorem length_elementChars (x : Value) (xs : List Value) (i : Nat) :
    x.chars.length + (Value.moreArrayChars xs).length ≤ (elementChars i (x :: xs)).length := by
  cases i with
  | zero => simp [elementChars, Value.arrayChars]
  | succ i => simp [elementChars, Value.moreArrayChars]

theorem chars_length_pos {v : Value} (h : v.Plain) : 0 < v.chars.length := by
  obtain ⟨b, bs, hbs, _⟩ := h.startsPart
  refine List.length_pos_iff.mpr fun hnil => ?_
  rw [hnil] at hbs
  cases hbs

theorem elements_reads {n : Nat} (below : ReadsUpTo n) {depth : Nat} {xs : List Value}
    (hx : ∀ x ∈ xs, x.Plain) (hdepth : depth + Value.nestingOf xs < depthLimit) {fuel : Nat}
    (hn : fuel ≤ n + 1) (i : Nat) (hf : 2 * (elementChars i xs).length < fuel) (rest : Bytes) :
    elements fuel depth i (encode (elementChars i xs) ++ 0x5D :: rest) = some (xs, rest) := by
  induction xs generalizing fuel i with
  | nil =>
      obtain ⟨fuel, rfl⟩ := Nat.exists_eq_succ_of_ne_zero (Nat.ne_of_gt (Nat.zero_lt_of_lt hf))
      have hdone := Layout.next_done .sequence i rest
      rw [elementChars_nil, elements]
      exact hdone ▸ rfl
  | cons x xs ih =>
      obtain ⟨fuel, rfl⟩ := Nat.exists_eq_succ_of_ne_zero (Nat.ne_of_gt (Nat.zero_lt_of_lt hf))
      have hlen := length_elementChars x xs i
      have hpos := chars_length_pos (hx x (by simp))
      rw [Value.nestingOf] at hdepth
      have hvalue := below fuel (by omega) depth x (hx x (by simp)) (by omega) (by omega)
        _ (stops_more xs rest)
      have hmore : elements fuel depth (i + 1) (encode (Value.moreArrayChars xs) ++ 0x5D :: rest) =
          some (xs, rest) :=
        ih (fun y hy => hx y (by simp [hy])) (by omega) (by omega) (i + 1)
          (by rw [elementChars]; omega)
      rw [elements]
      simp only [next_elementChars (hx x (by simp)), hvalue, hmore]
      rfl

/-- The first members, or those after others. -/
def memberSeqChars : Bool → List (Bytes × Value) → List Char
  | true, ms => Value.objectChars ms
  | false, ms => Value.moreObjectChars ms

theorem memberSeqChars_nil (first : Bool) : memberSeqChars first [] = [] := by
  cases first <;> rfl

theorem stops_moreMembers (ms : List (Bytes × Value)) (rest : Bytes) :
    Stops (encode (Value.moreObjectChars ms) ++ 0x7D :: rest) := by
  cases ms with
  | nil => exact .cons (by decide) _
  | cons m ms =>
      rw [Value.moreObjectChars, encode_ascii (by decide)]
      exact .cons (by decide) _

/-- The mark in front of a member is taken. -/
theorem next_memberSeqChars (key : Bytes) (v : Value) (ms : List (Bytes × Value)) (first : Bool)
    (rest : Bytes) :
    Layout.next .pairs (if first then 0 else 2)
        (encode (memberSeqChars first ((key, v) :: ms)) ++ rest) =
      some (.part (encode (stringChars key) ++
        0x3A :: (encode v.chars ++ (encode (Value.moreObjectChars ms) ++ rest)))) := by
  have hmember : encode (Value.memberChars (key, v)) =
      encode (stringChars key) ++ 0x3A :: encode v.chars := by
    rw [Value.memberChars, Text.encode_append, encode_ascii (by decide)]
    rfl
  cases first with
  | true =>
      rw [memberSeqChars, Value.objectChars, Text.encode_append, hmember, stringChars,
        encode_ascii (by decide)]
      simp only [List.append_assoc, List.cons_append]
      exact Layout.next_part ⟨by decide, by decide⟩ _ _
  | false =>
      rw [memberSeqChars, Value.moreObjectChars, encode_ascii (by decide), List.cons_append,
        Text.encode_append, hmember]
      simp only [List.append_assoc, List.cons_append]
      rfl

theorem length_memberSeqChars (key : Bytes) (v : Value) (ms : List (Bytes × Value))
    (first : Bool) :
    v.chars.length + (Value.moreObjectChars ms).length + 1 ≤
      (memberSeqChars first ((key, v) :: ms)).length := by
  cases first with
  | true =>
      simp only [memberSeqChars, Value.objectChars, Value.memberChars, List.length_append,
        List.length_cons]
      omega
  | false =>
      simp only [memberSeqChars, Value.moreObjectChars, Value.memberChars, List.length_append,
        List.length_cons]
      omega

theorem lookup?_of_not_mem {key : Bytes} {ms : List (Bytes × Value)}
    (h : key ∉ ms.map Prod.fst) : Value.lookup? key ms = none := by
  rw [Value.lookup?, Option.map_eq_none_iff, List.find?_eq_none]
  rintro m hm hkey
  exact h (List.mem_map.mpr ⟨m, hm, by simpa using hkey⟩)

theorem put_of_not_mem {key : Bytes} {ms : List (Bytes × Value)} (h : key ∉ ms.map Prod.fst)
    (v : Value) : Value.put key v ms = ms ++ [(key, v)] := by
  induction ms with
  | nil => rfl
  | cons m ms ih =>
      rw [List.map_cons, List.mem_cons, not_or] at h
      have hne : ¬ (m.1 == key) = true := by simpa using Ne.symm h.1
      rw [Value.put, if_neg hne, ih h.2, List.cons_append]

theorem textual_stringChars (s : String) (rest : Bytes) :
    textual (encode (stringChars (Text.utf8 s)) ++ rest) = some (Text.utf8 s, rest) := by
  obtain ⟨bs, hbs, hread⟩ := stringBody_stringChars s rest
  rw [hbs, textual, skipSpace_cons (by decide)]
  exact hread

theorem members_reads {n : Nat} (below : ReadsUpTo n) {depth : Nat}
    {ms new : List (Bytes × Value)} (hkey : ∀ m ∈ new, ∃ s, m.1 = Text.utf8 s)
    (hv : ∀ m ∈ new, m.2.Plain) (hnodup : ((ms ++ new).map Prod.fst).Nodup)
    (hdepth : depth + Value.nestingOfMembers new < depthLimit) {fuel : Nat} (hn : fuel ≤ n + 1)
    (first : Bool) (hf : 2 * (memberSeqChars first new).length < fuel) (rest : Bytes) :
    members fuel depth first ms (encode (memberSeqChars first new) ++ 0x7D :: rest) =
      some (ms ++ new, rest) := by
  induction new generalizing fuel first ms with
  | nil =>
      obtain ⟨fuel, rfl⟩ := Nat.exists_eq_succ_of_ne_zero (Nat.ne_of_gt (Nat.zero_lt_of_lt hf))
      have hdone := Layout.next_done .pairs (if first then 0 else 2) rest
      rw [memberSeqChars_nil, members, List.append_nil]
      exact hdone ▸ rfl
  | cons m new ih =>
      obtain ⟨fuel, rfl⟩ := Nat.exists_eq_succ_of_ne_zero (Nat.ne_of_gt (Nat.zero_lt_of_lt hf))
      obtain ⟨key, v⟩ := m
      obtain ⟨s, rfl⟩ : ∃ s, key = Text.utf8 s := hkey (key, v) (by simp)
      have hlen := length_memberSeqChars (Text.utf8 s) v new first
      rw [Value.nestingOfMembers, Value.nestingOfMember] at hdepth
      have hfresh : Text.utf8 s ∉ ms.map Prod.fst := by
        rw [List.map_append, List.nodup_append] at hnodup
        intro hmem
        exact hnodup.2.2 _ hmem _ (by simp) rfl
      have hvalue := below fuel (by omega) depth v (hv (Text.utf8 s, v) (by simp)) (by omega)
        (by omega)        _ (stops_moreMembers new rest)
      have hmore : members fuel depth false (ms ++ [(Text.utf8 s, v)])
          (encode (Value.moreObjectChars new) ++ 0x7D :: rest) =
            some (ms ++ [(Text.utf8 s, v)] ++ new, rest) :=
        ih (fun m hm => hkey m (by simp [hm])) (fun m hm => hv m (by simp [hm]))
          (by simpa using hnodup) (by omega) (by omega) false (by rw [memberSeqChars]; omega)
      have hcolon (bs : Bytes) : expectMark ':' (0x3A :: bs) = some bs := rfl
      rw [members]
      simp only [next_memberSeqChars, textual_stringChars, hcolon, lookup?_of_not_mem hfresh,
        Option.getD_none, hvalue, put_of_not_mem hfresh, hmore]
      simp

/-- Values are read back with fuel of twice their length. The induction is on the fuel: parts are
read with less. -/
theorem readsUpTo (n : Nat) : ReadsUpTo n := by
  induction n with
  | zero =>
      intro fuel hfuel depth v hv _ hlen
      have hpos := chars_length_pos hv
      omega
  | succ n below =>
      intro fuel hfuel depth v hv hdepth hlen
      have hpos := chars_length_pos hv
      obtain ⟨fuel, rfl⟩ : ∃ k, fuel = k + 1 := ⟨fuel - 1, by omega⟩
      cases hv with
      | bool b => exact value_bool fuel depth b
      | int v => exact value_int fuel depth v
      | string s => exact value_string fuel depth s
      | @array xs hx =>
          intro rest _
          rw [Value.nesting] at hdepth
          rw [Value.chars, List.length_cons, List.length_append] at hlen
          have hparts : elements fuel (depth + 1) 0
              (encode (Value.arrayChars xs) ++ 0x5D :: rest) = some (xs, rest) :=
            elements_reads below hx (by omega) (by omega) 0 (by rw [elementChars]; omega) rest
          have hbytes : encode (Value.array xs).chars ++ rest =
              0x5B :: (encode (Value.arrayChars xs) ++ 0x5D :: rest) := by
            rw [Value.chars, encode_ascii (by decide), List.cons_append, Text.encode_append,
              List.append_assoc]
            rfl
          rw [hbytes, value_sequence (by omega), hparts]
          rfl
      | @object ms hkey hm hnodup =>
          intro rest _
          rw [Value.nesting] at hdepth
          rw [Value.chars, List.length_cons, List.length_append] at hlen
          have hparts : members fuel (depth + 1) true []
              (encode (Value.objectChars ms) ++ 0x7D :: rest) = some (ms, rest) :=
            members_reads below hkey hm (by exact hnodup) (by omega) (by omega) true
              (by rw [memberSeqChars]; omega) rest
          have hbytes : encode (Value.object ms).chars ++ rest =
              0x7B :: (encode (Value.objectChars ms) ++ 0x7D :: rest) := by
            rw [Value.chars, encode_ascii (by decide), List.cons_append, Text.encode_append,
              List.append_assoc]
            rfl
          rw [hbytes, value_pairs (by omega), hparts]
          rfl

/-- A plain value is read back from its text, if it nests no deeper than the reader goes. -/
theorem ofText?_text {v : Value} (h : v.Plain) (hdepth : v.nesting < depthLimit) :
    Value.ofText? v.text = some v := by
  have hbytes : Text.utf8 v.text = encode v.chars := by
    rw [Value.text, Text.utf8, String.toList_ofList]
    rfl
  have hlen := Text.length_le_encode v.chars
  have hread := readsUpTo _ (2 * (encode v.chars).length + 2) (Nat.le_refl _) 0 v h (by omega)
    (by omega) [] (by simp [Stops])
  rw [List.append_nil] at hread
  rw [Value.ofText?, hbytes]
  simp only [hread]
  rfl

end Json

end CellScheme
