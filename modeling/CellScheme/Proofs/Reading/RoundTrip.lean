import CellScheme.Proofs.Reading.Accepts

/-!
Printing and reading are inverse on the expressions that have a written form. The printed form of
such an expression is cut and derived in front of any rest that cannot lengthen its last word.
Procedures have no written form: they are printed with a mark that no atom contains.
-/

namespace CellScheme

open Grammar (Terminal WordChar Cut SymbolChar Spelling Decimal Atom Sexp Sexps Script)

namespace Datum

/-- The expressions that have a written form. -/
inductive Readable : Datum → Prop where
  | int (v : Int64) : Readable (.int v)
  | bool (b : Bool) : Readable (.bool b)
  | symbol {cs : List Char} : Spelling cs → Readable (.symbol (Name.ofString (String.ofList cs)))
  | quote {d : Datum} : Readable d → Readable (.quote d)
  | list {ds : List Datum} : (∀ d ∈ ds, Readable d) → Readable (.list ds)

/-- A procedure stands somewhere in the expression. -/
inductive HasProcedure : Datum → Prop where
  | lambda (bound : List Datum) (params : List Name) (body : Datum) :
      HasProcedure (.lambda bound params body)
  | builtin (name : Name) : HasProcedure (.builtin name)
  | quote {d : Datum} : HasProcedure d → HasProcedure (.quote d)
  | list {d : Datum} {ds : List Datum} : d ∈ ds → HasProcedure d → HasProcedure (.list ds)

end Datum

namespace Grammar

theorem SymbolChar.range {c : Char} (h : SymbolChar c) : 33 ≤ c.toNat ∧ c.toNat < 127 := by
  rcases h with h | h
  · unfold Char.isAlphanum Char.isAlpha Char.isUpper Char.isLower Char.isDigit at h
    simp only [Bool.or_eq_true, Bool.and_eq_true, decide_eq_true_eq, UInt32.le_iff_toNat_le] at h
    change ((65 ≤ c.toNat ∧ c.toNat ≤ 90) ∨ (97 ≤ c.toNat ∧ c.toNat ≤ 122)) ∨
      (48 ≤ c.toNat ∧ c.toNat ≤ 57) at h
    omega
  · have hall : ∀ c ∈ "_+-*/\\=<>!&?".toList, 33 ≤ c.toNat ∧ c.toNat < 127 := by simp
    exact hall c h

theorem SymbolChar.wordChar {c : Char} (h : SymbolChar c) : WordChar c := by
  refine ⟨?_, ?_, ?_, ?_⟩
  · have hr := h.range
    simp only [Text.isBlank, Bool.or_eq_false_iff, Bool.and_eq_false_iff, beq_eq_false_iff_ne,
      decide_eq_false_iff_not]
    omega
  all_goals
    rintro rfl
    exact absurd (isSymbolChar_iff.mpr h) (by decide)

theorem Digits.symbolChar {cs : List Char} (h : Digits cs) {c : Char} (hc : c ∈ cs) :
    SymbolChar c :=
  .inl (by simp [Char.isAlphanum, h.2 c hc])

theorem Decimal.symbolChar {cs : List Char} {v : Int} (h : Decimal cs v) {c : Char}
    (hc : c ∈ cs) : SymbolChar c := by
  cases h with
  | natural hd => exact hd.symbolChar hc
  | negative hd =>
      rcases List.mem_cons.mp hc with rfl | hc
      · exact .inr (by decide)
      · exact hd.symbolChar hc

theorem Decimal.ne_nil {cs : List Char} {v : Int} (h : Decimal cs v) : cs ≠ [] := by
  cases h with
  | natural hd => exact hd.1
  | negative hd => exact List.cons_ne_nil _ _

/-- Every atom is written in the characters of symbols, decimals included. -/
theorem Atom.symbolChar {w : List Char} {d : Datum} (h : Atom w d) {c : Char} (hc : c ∈ w) :
    SymbolChar c := by
  cases h with
  | int hd => exact hd.symbolChar hc
  | true | false =>
      rw [← isSymbolChar_iff]
      exact List.all_eq_true.mp (by decide) c hc
  | symbol hs => exact hs.chars c hc

theorem Atom.ne_nil {w : List Char} {d : Datum} (h : Atom w d) : w ≠ [] := by
  cases h with
  | int hd => exact hd.ne_nil
  | true | false => decide
  | symbol hs => exact hs.ne_nil

/-- A character of a word stays in a word, however the text is cut. -/
theorem Cut.mem_word {cs : List Char} {ls : List Terminal} (h : Cut cs ls) {c : Char}
    (hc : c ∈ cs) (hw : WordChar c) : ∃ w, .word w ∈ ls ∧ c ∈ w := by
  induction h with
  | done => cases hc
  | blank hb _ ih =>
      rcases List.mem_cons.mp hc with rfl | hc
      · exact absurd hb (by simp [hw.1])
      · exact ih hc
  | opening _ ih =>
      obtain ⟨w, hmem, hcw⟩ := ih ((List.mem_cons.mp hc).resolve_left hw.2.1)
      exact ⟨w, by simp [hmem], hcw⟩
  | closing _ ih =>
      obtain ⟨w, hmem, hcw⟩ := ih ((List.mem_cons.mp hc).resolve_left hw.2.2.1)
      exact ⟨w, by simp [hmem], hcw⟩
  | quote _ ih =>
      obtain ⟨w, hmem, hcw⟩ := ih ((List.mem_cons.mp hc).resolve_left hw.2.2.2)
      exact ⟨w, by simp [hmem], hcw⟩
  | @word v _ _ _ _ _ _ ih =>
      rcases List.mem_append.mp hc with hc | hc
      · exact ⟨v, by simp, hc⟩
      · obtain ⟨w, hmem, hcw⟩ := ih hc
        exact ⟨w, by simp [hmem], hcw⟩

end Grammar

namespace Text

theorem glyphs_ascii {a : UInt8} (h : a < 0x80) (bs : Bytes) :
    glyphs (a :: bs) = .char (Char.ofNat a.toNat) :: glyphs bs := by
  have ha : a.toNat < 0x80 := h
  have h₂ (b : UInt8) : two? a b = none := by
    simp [two?, UInt8.le_iff_toNat_le, UInt8.lt_iff_toNat_lt]
    omega
  have h₃ (b c : UInt8) : three? a b c = none := by
    simp [three?, UInt8.le_iff_toNat_le, UInt8.lt_iff_toNat_lt]
    omega
  have h₄ (b c d : UInt8) : four? a b c d = none := by
    simp [four?, UInt8.le_iff_toNat_le, UInt8.lt_iff_toNat_lt]
    omega
  match bs with
  | [] => simp [glyphs, Glyph.ofByte, h]
  | [b] => simp [glyphs, Glyph.ofByte, h, h₂]
  | [b, c] => simp [glyphs, Glyph.ofByte, h, h₂, h₃]
  | b :: c :: d :: bs => simp [glyphs, Glyph.ofByte, h, h₂, h₃, h₄]

theorem decodeUtf8_ascii {cs : List Char} (h : ∀ c ∈ cs, c.toNat < 0x80) :
    decodeUtf8 (cs.flatMap String.utf8EncodeChar) = cs := by
  induction cs with
  | nil => rfl
  | cons c cs ih =>
      have hc : c.toNat < 0x80 := h c (by simp)
      have hval : c.val.toUInt8.toNat = c.toNat := by
        rw [UInt32.toNat_toUInt8]
        exact Nat.mod_eq_of_lt (by change c.toNat < _; omega)
      have hsize : c.utf8Size = 1 := by
        rw [Char.utf8Size, if_pos]
        rw [UInt32.le_iff_toNat_le]
        change c.toNat ≤ 127
        omega
      have hrest := ih fun d hd => h d (by simp [hd])
      rw [decodeUtf8] at hrest
      rw [List.flatMap_cons, String.utf8EncodeChar_eq_singleton hsize, List.singleton_append,
        decodeUtf8, glyphs_ascii (UInt8.lt_iff_toNat_lt.mpr (by rw [hval]; exact hc)), hval,
        List.map_cons, hrest, Glyph.shown, Char.ofNat_toNat]

end Text

theorem Grammar.Spelling.chars_ofString {cs : List Char} (h : Spelling cs) :
    (Name.ofString (String.ofList cs)).chars = cs := by
  rw [Name.chars, Name.ofString, Text.utf8, String.toList_ofList]
  apply Text.decodeUtf8_ascii
  intro c hc
  have hr := (h.chars c hc).range
  omega

theorem Text.natChars_digits (n : Nat) : Grammar.Digits (natChars n) :=
  ⟨List.length_pos_iff.mp Nat.length_toDigits_pos,
    fun _ hc => Nat.isDigit_of_mem_toDigits (by decide) (by decide) hc⟩

theorem Text.intChars_decimal (i : Int) : Decimal (intChars i) i := by
  unfold intChars
  split
  · have hd := Decimal.negative (natChars_digits i.natAbs)
    rw [natChars, Nat.ofDigitChars_ten_toDigits] at hd
    rwa [show -(i.natAbs : Int) = i by omega] at hd
  · have hd := Decimal.natural (natChars_digits i.natAbs)
    rw [natChars, Nat.ofDigitChars_ten_toDigits] at hd
    rwa [show (i.natAbs : Int) = i by omega] at hd

namespace Datum

/-- Characters that are cut and derived as this expression in front of every rest that is cut and
does not lengthen the last word. -/
def Writes (cs : List Char) (d : Datum) : Prop :=
  ∀ rest ls, (∀ c ∈ rest.head?, ¬ WordChar c) → Cut rest ls →
    ∃ us, Cut (cs ++ rest) (us ++ ls) ∧ Sexp us d

theorem Writes.atom {w : List Char} {d : Datum} (h : Atom w d) : Writes w d := by
  intro rest ls hb hrest
  exact ⟨[.word w], .word h.ne_nil (fun c hc => (h.symbolChar hc).wordChar) hb hrest, .atom h⟩

theorem Writes.quote {cs : List Char} {d : Datum} (h : Writes cs d) :
    Writes ('\x27' :: cs) (.quote d) := by
  intro rest ls hb hrest
  obtain ⟨us, cut, hd⟩ := h rest ls hb hrest
  exact ⟨.quote :: us, .quote cut, .quote hd⟩

/-- The same for a sequence of expressions. -/
def WritesSeq (cs : List Char) (ds : List Datum) : Prop :=
  ∀ rest ls, (∀ c ∈ rest.head?, ¬ WordChar c) → Cut rest ls →
    ∃ us, Cut (cs ++ rest) (us ++ ls) ∧ Sexps us ds

theorem WritesSeq.script {cs : List Char} {ds : List Datum} (h : WritesSeq cs ds) :
    Script cs ds := by
  obtain ⟨us, cut, hds⟩ := h [] [] (by simp) .done
  rw [List.append_nil, List.append_nil] at cut
  exact ⟨us, cut, hds⟩

theorem WritesSeq.list {cs : List Char} {ds : List Datum} (h : WritesSeq cs ds) :
    Writes ('(' :: (cs ++ [')'])) (.list ds) := by
  intro rest ls _ hrest
  obtain ⟨us, cut, hds⟩ := h (')' :: rest) (.closing :: ls) (by simp [WordChar]) (.closing hrest)
  refine ⟨.opening :: (us ++ [.closing]), ?_, .list hds⟩
  simpa using Cut.opening cut

/-- What follows the first expression of a sequence begins with a blank, if there is any. -/
theorem tailChars_boundary (ds : List Datum) {rest : List Char}
    (hb : ∀ c ∈ rest.head?, ¬ WordChar c) :
    ∀ c ∈ (tailChars ds ++ rest).head?, ¬ WordChar c := by
  cases ds with
  | nil => exact hb
  | cons d ds =>
      intro c hc
      obtain rfl : ' ' = c := by simpa [tailChars_cons] using hc
      exact fun hw => absurd hw.1 (by decide)

theorem WritesSeq.cons {cs : List Char} {d : Datum} {ds : List Datum} (hd : Writes cs d)
    (hds : WritesSeq (tailChars ds) ds) : WritesSeq (cs ++ tailChars ds) (d :: ds) := by
  intro rest ls hb hrest
  obtain ⟨vs, cut, hvs⟩ := hds rest ls hb hrest
  obtain ⟨us, cut, hus⟩ := hd _ _ (tailChars_boundary ds hb) cut
  refine ⟨us ++ vs, ?_, .cons hus hvs⟩
  simpa only [List.append_assoc] using cut

theorem writes_tailChars {ds : List Datum} (h : ∀ d ∈ ds, Writes d.chars d) :
    WritesSeq (tailChars ds) ds := by
  induction ds with
  | nil => exact fun rest ls _ hrest => ⟨[], hrest, .nil⟩
  | cons d ds ih =>
      have hseq := WritesSeq.cons (h d (by simp)) (ih fun e he => h e (by simp [he]))
      intro rest ls hb hrest
      obtain ⟨us, cut, hus⟩ := hseq rest ls hb hrest
      exact ⟨us, .blank (by decide) cut, hus⟩

theorem writes_seqChars {ds : List Datum} (h : ∀ d ∈ ds, Writes d.chars d) :
    WritesSeq (seqChars ds) ds := by
  cases ds with
  | nil => exact writes_tailChars h
  | cons d ds =>
      exact .cons (h d (by simp)) (writes_tailChars fun e he => h e (by simp [he]))

theorem Readable.writes {d : Datum} (h : d.Readable) : Writes d.chars d := by
  induction h with
  | int v => exact .atom (.int (Text.intChars_decimal v.toInt))
  | bool b =>
      rw [chars_bool]
      cases b with
      | true => exact .atom .true
      | false => exact .atom .false
  | symbol hs =>
      rw [chars_symbol, hs.chars_ofString]
      exact .atom (.symbol hs)
  | quote _ ih => exact ih.quote
  | list _ ih => exact (writes_seqChars ih).list

theorem Readable.of_atom {w : List Char} {d : Datum} (h : Atom w d) : d.Readable := by
  cases h with
  | int _ => exact .int _
  | true | false => exact .bool _
  | symbol hs => exact .symbol hs

mutual
theorem Readable.of_sexp {ls : List Terminal} {d : Datum} (h : Sexp ls d) : d.Readable := by
  cases h with
  | atom ha => exact .of_atom ha
  | quote hd => exact .quote (.of_sexp hd)
  | list hds => exact .list (Readable.of_sexps hds)

theorem Readable.of_sexps {ls : List Terminal} {ds : List Datum} (h : Sexps ls ds) :
    ∀ d ∈ ds, d.Readable := by
  cases h with
  | nil => simp
  | cons hd hds => exact List.forall_mem_cons.mpr ⟨.of_sexp hd, Readable.of_sexps hds⟩
end

theorem mem_tailChars {d : Datum} {ds : List Datum} (hd : d ∈ ds) {c : Char} (hc : c ∈ d.chars) :
    c ∈ tailChars ds := by
  induction ds with
  | nil => cases hd
  | cons e ds ih =>
      rw [tailChars_cons]
      rcases List.mem_cons.mp hd with rfl | hd
      · simp [hc]
      · simp [ih hd]

theorem mem_seqChars {d : Datum} {ds : List Datum} (hd : d ∈ ds) {c : Char} (hc : c ∈ d.chars) :
    c ∈ seqChars ds := by
  cases ds with
  | nil => cases hd
  | cons e ds =>
      rw [seqChars_cons]
      rcases List.mem_cons.mp hd with rfl | hd
      · simp [hc]
      · simp [mem_tailChars hd hc]

theorem HasProcedure.hash_mem {d : Datum} (h : d.HasProcedure) : '#' ∈ d.chars := by
  induction h with
  | lambda =>
      rw [chars_lambda]
      decide
  | builtin name =>
      rw [chars_builtin, List.append_assoc]
      exact List.mem_append_left _ (by decide)
  | quote _ ih =>
      rw [chars_quote]
      exact List.mem_cons_of_mem _ ih
  | list hd _ ih =>
      rw [chars_list]
      exact List.mem_cons_of_mem _ (List.mem_append_left _ (mem_seqChars hd ih))

/-- The words of a script are written in the characters of symbols. -/
theorem isSymbolChar_of_script {cs : List Char} {ds : List Datum} (h : Script cs ds) {c : Char}
    (hc : c ∈ cs) (hword : WordChar c) : isSymbolChar c = true := by
  obtain ⟨ls, cut, hds⟩ := h
  obtain ⟨w, hw, hcw⟩ := cut.mem_word hc hword
  obtain ⟨d, hd⟩ := hds.word_atom hw
  exact Grammar.isSymbolChar_iff.mpr (hd.symbolChar hcw)

theorem not_script_of_hash {cs : List Char} (h : '#' ∈ cs) {ds : List Datum} :
    ¬ Script cs ds := by
  intro hs
  have hword : WordChar '#' := ⟨by decide, by decide, by decide, by decide⟩
  exact absurd (isSymbolChar_of_script hs h hword) (by decide)

theorem Readable.parse_print {d : Datum} (h : d.Readable) : parse d.print = .ok d := by
  rw [parse_eq_ok, print, String.toList_ofList]
  obtain ⟨us, cut, hus⟩ := h.writes [] [] (by simp) .done
  rw [List.append_nil, List.append_nil] at cut
  exact ⟨us, cut, .singleton hus⟩

/-- Readable expressions are told apart by what is printed. -/
theorem Readable.print_eq_iff {d e : Datum} (hd : d.Readable) (he : e.Readable) :
    d.print = e.print ↔ d = e := by
  refine ⟨fun h => ?_, congrArg print⟩
  have hp := hd.parse_print
  rw [h, he.parse_print] at hp
  exact (Except.ok.inj hp).symm

/-- Readable expressions are read back as they were printed, one by one and in sequences. Nothing
else is ever read, and an expression with a procedure in it is refused. -/
theorem parseAll_printSeq :
    (∀ ds : List Datum, (∀ d ∈ ds, d.Readable) → parseAll (printSeq ds) = .ok ds) ∧
      (∀ d : Datum, d.Readable → parse d.print = .ok d) ∧
      (∀ text ds, parseAll text = .ok ds → ∀ d ∈ ds, d.Readable) ∧
      (∀ d : Datum, d.HasProcedure → ∃ e, parse d.print = .error (.parse e)) := by
  refine ⟨fun ds h => ?_, fun d h => h.parse_print, fun text ds h => ?_, fun d h => ?_⟩
  · rw [parseAll_eq_ok, printSeq, String.toList_ofList]
    exact (writes_seqChars fun d hd => (h d hd).writes).script
  · obtain ⟨ls, _, hds⟩ := parseAll_eq_ok.mp h
    exact Readable.of_sexps hds
  · apply parse_error_of_not
    rintro ⟨e, he⟩
    rw [print, String.toList_ofList] at he
    exact not_script_of_hash h.hash_mem he

/-- Signs, adjacent quotes and brackets, the empty list and the least integer. -/
theorem parseAll_printSeq_nested :
    let ds : List Datum :=
      [.symbol "-", .quote (.quote (.list [.int Int64.minValue, .list [], .bool true]))]
    parseAll (printSeq ds) = .ok ds := by
  have hs : Spelling ['-'] :=
    ⟨by decide, fun c hc => Grammar.isSymbolChar_iff.mp (by simp_all; decide),
      fun v hv => absurd (Grammar.decimal_iff.mp hv).1 (by decide), by decide⟩
  refine parseAll_printSeq.1 _ (List.forall_mem_cons.mpr ⟨.symbol hs, ?_⟩)
  refine List.forall_mem_singleton.mpr (.quote (.quote (.list ?_)))
  simp only [List.forall_mem_cons]
  exact ⟨.int _, .list (by simp), .bool _, by simp⟩

end Datum

end CellScheme
