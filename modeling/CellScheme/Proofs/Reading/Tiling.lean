import CellScheme.Proofs.Reading.Accepts

/-!
The tokens of a text by their places in it. Tokens lie behind one another, each spells the text at
its offset, only blanks are left between them, and the atoms are the maximal runs of word
characters. A text fails exactly if one of these runs is no atom, and the first one is named.
-/

namespace CellScheme

open Grammar (WordChar)

namespace Grammar

/-- A spelling of an atom of some class, whatever number a decimal spells. -/
def Word (cs : List Char) : Prop :=
  (∃ v, Decimal cs v) ∨ cs = "true".toList ∨ cs = "false".toList ∨
    (cs ≠ [] ∧ ∀ c ∈ cs, SymbolChar c)

theorem word_iff {cs : List Char} : Word cs ↔ ∃ cls, AtomClass.of? cs = some cls := by
  have decimal : (∃ v, Decimal cs v) ↔ isDecimal cs = true := by simp [decimal_iff]
  have boolean : isBoolean cs = true ↔ cs = "true".toList ∨ cs = "false".toList := by
    simp [isBoolean]
  rw [Word, decimal, ← isSymbol_iff, ← or_assoc (a := cs = "true".toList), ← boolean,
    AtomClass.of?]
  split
  · simp_all
  · split
    · simp_all
    · split <;> simp_all

/-- The word characters from this offset on as far as they go, with none right before them. -/
structure Run (text : List Char) (offset : Nat) (w : List Char) : Prop where
  nonempty : w ≠ []
  slice : w <+: text.drop offset
  chars : ∀ c ∈ w, WordChar c
  before : offset ≠ 0 → ∀ c ∈ text[offset - 1]?, ¬ WordChar c
  after : ∀ c ∈ text[offset + w.length]?, ¬ WordChar c

namespace Run

variable {text w v : List Char} {p q : Nat}

theorem wordChar (h : Run text p w) {i : Nat} (hle : p ≤ i) (hlt : i < p + w.length) :
    ∃ c, text[i]? = some c ∧ WordChar c := by
  obtain ⟨rest, hrest⟩ := h.slice
  have hi : i - p < w.length := by omega
  have hc : (text.drop p)[i - p]? = some w[i - p] := by
    rw [← hrest, List.getElem?_append_left hi, List.getElem?_eq_getElem hi]
  rw [List.getElem?_drop, Nat.add_sub_cancel' hle] at hc
  exact ⟨_, hc, h.chars _ (List.getElem_mem hi)⟩

theorem length_pos (h : Run text p w) : 0 < w.length :=
  List.length_pos_iff.mpr h.nonempty

theorem not_of_start {c : Char} (hc : text[p]? = some c) (hw : ¬ WordChar c) : ¬ Run text p w := by
  intro h
  obtain ⟨d, hd, hw'⟩ := h.wordChar (Nat.le_refl p) (Nat.lt_add_of_pos_right h.length_pos)
  exact hw (Option.some.inj (hd.symm.trans hc) ▸ hw')

theorem length_le (h : Run text p w) (h' : Run text p v) : w.length ≤ v.length := by
  by_contra hlt
  obtain ⟨c, hc, hw⟩ := h.wordChar (i := p + v.length) (by omega) (by omega)
  exact h'.after c hc hw

theorem eq_of_lt (h : Run text p w) (h' : Run text q v) (hle : p ≤ q) (hlt : q < p + w.length) :
    q = p ∧ v = w := by
  rcases Nat.eq_or_lt_of_le hle with rfl | hlt'
  · have hlen : w.length = v.length := Nat.le_antisymm (h.length_le h') (h'.length_le h)
    have hw := List.prefix_iff_eq_take.mp h.slice
    have hv := List.prefix_iff_eq_take.mp h'.slice
    exact ⟨rfl, by rw [hv, ← hlen, ← hw]⟩
  · obtain ⟨c, hc, hw⟩ := h.wordChar (i := q - 1) (by omega) (by omega)
    exact absurd hw (h'.before (by omega) c hc)

theorem of_append {front back : List Char} (ht : text = front ++ (w ++ back)) (ne : w ≠ [])
    (hw : ∀ c ∈ w, WordChar c) (hf : ∀ c ∈ front.getLast?, ¬ WordChar c)
    (hb : ∀ c ∈ back.head?, ¬ WordChar c) : Run text front.length w := by
  subst ht
  refine ⟨ne, ⟨back, by rw [List.drop_left]⟩, hw, fun h0 => ?_, ?_⟩
  · rwa [List.getElem?_append_left (by omega), ← List.getLast?_eq_getElem?]
  · rwa [← List.append_assoc, ← List.length_append, List.getElem?_append_right (Nat.le_refl _),
      Nat.sub_self, ← List.head?_eq_getElem?]

end Run

end Grammar

open Grammar (Run Word)

namespace Token

/-- The position is one of those that the token spells. -/
def Covers (t : Token) (i : Nat) : Prop :=
  t.offset ≤ i ∧ i < t.offset + t.lexeme.length

/-- The tokens of what a text has from this offset on. -/
structure Tiling (text : List Char) (offset : Nat) (ts : List Token) : Prop where
  slices : ∀ t ∈ ts, offset ≤ t.offset ∧ t.lexeme ≠ [] ∧ t.lexeme <+: text.drop t.offset
  ordered : ts.Pairwise fun t u => t.offset + t.lexeme.length ≤ u.offset
  blank : ∀ i c, offset ≤ i → text[i]? = some c → (∀ t ∈ ts, ¬ t.Covers i) → Text.isBlank c
  runs : ∀ p w, offset ≤ p → (Run text p w ↔ ∃ cls, .atom cls w p ∈ ts)
  classed : ∀ t ∈ ts, t.Classed

/-- The failure names the first run from this offset on that is no word. -/
def Names (text : List Char) (offset : Nat) (e : ParseFailure) : Prop :=
  ∃ (p : Nat) (w : List Char), e = .badAtom (String.ofList w) p ∧ offset ≤ p ∧
    Run text p w ∧ ¬ Word w ∧ ∀ q v, offset ≤ q → Run text q v → ¬ Word v → p ≤ q

/-- What the tokens of a text from this offset on, or the failure in their place, have to be. -/
def Answers (text : List Char) (offset : Nat) : Except ParseFailure (List Token) → Prop
  | .error e => Names text offset e
  | .ok ts => Tiling text offset ts

variable {text : List Char} {offset next : Nat}

theorem Names.widen {e : ParseFailure} (h : Names text next e) (hle : offset ≤ next)
    (good : ∀ p w, offset ≤ p → p < next → Run text p w → Word w) : Names text offset e := by
  obtain ⟨p, w, rfl, hp, hrun, hbad, first⟩ := h
  refine ⟨p, w, rfl, Nat.le_trans hle hp, hrun, hbad, fun q v hq hv hb => ?_⟩
  rcases Nat.lt_or_ge q next with hlt | hge
  · exact absurd (good q v hq hlt hv) hb
  · exact first q v hge hv hb

theorem Tiling.cons {t : Token} {ts : List Token} (h : Tiling text (offset + t.lexeme.length) ts)
    (ht : t.offset = offset) (ne : t.lexeme ≠ []) (slice : t.lexeme <+: text.drop offset)
    (hc : t.Classed) (here : ∀ p w, offset ≤ p → p < offset + t.lexeme.length →
      (Run text p w ↔ ∃ cls, .atom cls w p = t)) : Tiling text offset (t :: ts) where
  slices u hu := by
    rcases List.mem_cons.mp hu with rfl | hu
    · exact ⟨ht ▸ Nat.le_refl _, ne, ht ▸ slice⟩
    · obtain ⟨hle, hrest⟩ := h.slices u hu
      exact ⟨by omega, hrest⟩
  ordered := List.pairwise_cons.mpr ⟨fun u hu => ht ▸ (h.slices u hu).1, h.ordered⟩
  blank i c hi hc free := by
    have hout := free t (by simp)
    rw [Covers, ht] at hout
    exact h.blank i c (by omega) hc fun u hu => free u (by simp [hu])
  runs p w hp := by
    rcases Nat.lt_or_ge p (offset + t.lexeme.length) with hlt | hge
    · rw [here p w hp hlt]
      have behind : ∀ cls, ¬ .atom cls w p ∈ ts := by
        intro cls hmem
        have := (h.slices _ hmem).1
        simp only [Token.offset] at this
        omega
      simp [behind]
    · rw [h.runs p w hge]
      have behind : ∀ cls, ¬ .atom cls w p = t := by
        rintro cls rfl
        simp only [Token.offset] at ht
        have := List.length_pos_iff.mpr ne
        omega
      simp [behind]
  classed u hu := by
    rcases List.mem_cons.mp hu with rfl | hu
    · exact hc
    · exact h.classed u hu

theorem Answers.blank {c : Char} {r : Except ParseFailure (List Token)}
    (hc : text[offset]? = some c) (hb : Text.isBlank c) (h : Answers text (offset + 1) r) :
    Answers text offset r := by
  have nowhere : ∀ w, ¬ Run text offset w := fun w =>
    Run.not_of_start hc fun hw => by simp [hw.1] at hb
  cases r with
  | error e =>
      refine Names.widen h (Nat.le_succ _) fun p w hp hlt hrun => ?_
      obtain rfl : p = offset := by omega
      exact absurd hrun (nowhere w)
  | ok ts =>
      obtain ⟨slices, ordered, blank, runs, classed⟩ := h
      refine ⟨fun t ht => ?_, ordered, fun i d hi hd free => ?_, fun p w hp => ?_, classed⟩
      · obtain ⟨hle, hrest⟩ := slices t ht
        exact ⟨by omega, hrest⟩
      · rcases Nat.eq_or_lt_of_le hi with rfl | hlt
        · exact Option.some.inj (hc.symm.trans hd) ▸ hb
        · exact blank i d hlt hd free
      · rcases Nat.eq_or_lt_of_le hp with rfl | hlt
        · refine iff_of_false (nowhere w) ?_
          rintro ⟨cls, hmem⟩
          exact absurd (slices _ hmem).1 (Nat.not_succ_le_self _)
        · exact runs p w hlt

theorem ofMark?_eq {c : Char} {t : Token} (h : ofMark? c offset = some t) :
    t.offset = offset ∧ t.lexeme = [c] ∧ t.Classed ∧ ∀ cls w p, .atom cls w p ≠ t := by
  unfold ofMark? at h
  split at h
  · obtain rfl := Option.some.inj h
    simp_all [Token.offset, lexeme, Classed]
  · split at h
    · obtain rfl := Option.some.inj h
      simp_all [Token.offset, lexeme, Classed]
    · split at h
      · obtain rfl := Option.some.inj h
        simp_all [Token.offset, lexeme, Classed]
      · cases h

theorem Answers.mark {c : Char} {t : Token} {r : Except ParseFailure (List Token)}
    (hc : text[offset]? = some c) (hm : ofMark? c offset = some t)
    (h : Answers text (offset + 1) r) : Answers text offset (r.map (t :: ·)) := by
  have nowhere : ∀ w, ¬ Run text offset w := fun w =>
    Run.not_of_start hc fun hw => by simp [((wordChar_iff offset).mp hw).1] at hm
  cases r with
  | error e =>
      refine Names.widen h (Nat.le_succ _) fun p w hp hlt hrun => ?_
      obtain rfl : p = offset := by omega
      exact absurd hrun (nowhere w)
  | ok ts =>
      obtain ⟨ho, hl, hcls, hne⟩ := ofMark?_eq hm
      obtain ⟨hlt, rfl⟩ := List.getElem?_eq_some_iff.mp hc
      have h : Tiling text (offset + 1) ts := h
      refine Tiling.cons (by simpa [hl] using h) ho (by simp [hl]) ?_ hcls ?_
      · rw [hl, List.drop_eq_getElem_cons hlt]
        exact ⟨_, rfl⟩
      · intro p w hp hlt
        rw [hl, List.length_singleton] at hlt
        obtain rfl : p = offset := by omega
        simp [nowhere, hne]

theorem flush_word {w : List Char} (ne : w ≠ []) (offset : Nat)
    (r : Except ParseFailure (List Token)) :
    flush w.reverse (offset + w.length) r =
      match AtomClass.of? w with
      | some cls => r.map (.atom cls w offset :: ·)
      | none => .error (.badAtom (String.ofList w) offset) := by
  obtain ⟨a, v, hav⟩ := List.exists_cons_of_ne_nil (List.reverse_ne_nil_iff.mpr ne)
  have hrev : (a :: v).reverse = w := by rw [← hav, List.reverse_reverse]
  have hlen : (a :: v).length = w.length := by rw [← hav, List.length_reverse]
  rw [hav]
  simp only [flush, ofAtom, AtomClass.decode, hrev, hlen, Nat.add_sub_cancel]
  cases AtomClass.of? w <;> rfl

theorem Answers.word {w : List Char} {r : Except ParseFailure (List Token)}
    (hw : Run text offset w) (h : Answers text (offset + w.length) r) :
    Answers text offset (flush w.reverse (offset + w.length) r) := by
  -- the only run that begins inside the word is the word
  have only : ∀ p v, offset ≤ p → p < offset + w.length → (Run text p v ↔ p = offset ∧ v = w) := by
    refine fun p v hle hlt => ⟨fun hv => hw.eq_of_lt hv hle hlt, ?_⟩
    rintro ⟨rfl, rfl⟩
    exact hw
  rw [flush_word hw.nonempty]
  cases hcls : AtomClass.of? w with
  | none =>
      have bad : ¬ Word w := by simp [Grammar.word_iff, hcls]
      exact ⟨offset, w, rfl, Nat.le_refl _, hw, bad, fun q v hq _ _ => hq⟩
  | some cls =>
      cases r with
      | error e =>
          refine Names.widen h (Nat.le_add_right _ _) fun p v hp hlt hv => ?_
          obtain ⟨rfl, rfl⟩ := (only p v hp hlt).mp hv
          exact Grammar.word_iff.mpr ⟨cls, hcls⟩
      | ok ts =>
          refine Tiling.cons h rfl hw.nonempty hw.slice hcls fun p v hp hlt => ?_
          rw [only p v hp hlt]
          simp [and_comm]

variable {front run cs : List Char}

theorem Answers.flushed {r : Except ParseFailure (List Token)}
    (ht : text = front ++ (run.reverse ++ cs)) (hf : ∀ c ∈ front.getLast?, ¬ WordChar c)
    (hr : ∀ c ∈ run, WordChar c) (hb : ∀ c ∈ cs.head?, ¬ WordChar c)
    (h : Answers text (front.length + run.length) r) :
    Answers text front.length (flush run (front.length + run.length) r) := by
  by_cases hrun : run = []
  · subst hrun
    exact h
  · have hw := Run.of_append ht (by simpa using hrun) (by simpa using hr) hf hb
    simpa using Answers.word hw (by simpa using h)

theorem scan_answers (ht : text = front ++ (run.reverse ++ cs))
    (hf : ∀ c ∈ front.getLast?, ¬ WordChar c) (hr : ∀ c ∈ run, WordChar c) :
    Answers text front.length (scan run (front.length + run.length) cs) := by
  induction cs generalizing front run with
  | nil =>
      refine .flushed ht hf hr (by simp) ?_
      have hend : ∀ i, front.length + run.length ≤ i → text[i]? = none := by
        intro i hi
        simp [ht, hi]
      refine ⟨by simp, .nil, fun i c hi hc => ?_, fun p w hp => ?_, by simp⟩
      · rw [hend i hi] at hc
        cases hc
      · refine iff_of_false (fun hw => ?_) (by simp)
        obtain ⟨c, hc, _⟩ := hw.wordChar (Nat.le_refl p) (Nat.lt_add_of_pos_right hw.length_pos)
        rw [hend p hp] at hc
        cases hc
  | cons c cs ih =>
      by_cases hc : WordChar c
      · rw [scan_wordChar hc]
        exact ih (by simpa using ht) hf (by simpa using ⟨hc, hr⟩)
      · rw [scan_boundary (by simpa using hc)]
        refine .flushed ht hf hr (by simpa using hc) ?_
        -- the text after this character begins behind one that is in no run
        have hnext := @ih (front ++ run.reverse ++ [c]) []
          (by simpa using ht) (by simpa using hc) (by simp)
        have hat : text[front.length + run.length]? = some c := by simp [ht]
        rw [scan]
        simp only [List.length_append, List.length_reverse, List.length_singleton,
          List.length_nil, Nat.add_zero] at hnext
        cases hm : ofMark? c (front.length + run.length) with
        | some t => exact .mark hat hm hnext
        | none =>
            have hb : Text.isBlank c = true := by
              simpa [wordChar_iff (front.length + run.length), hm] using hc
            simpa only [hb, if_true, flush] using Answers.blank hat hb hnext

/-- Cutting a text into tokens fails exactly if some maximal run of word characters is no word, and
it names the first one and its place. Otherwise the offsets of the tokens grow strictly, each token
spells the text at its offset, no two of them overlap, what lies in none of them is blank, and the
atoms are the maximal runs. -/
theorem tokens_exact (text : String) :
    ((∃ e, tokens text = .error e) ↔ ∃ p w, Run text.toList p w ∧ ¬ Word w) ∧
      (∀ e, tokens text = .error e → ∃ (p : Nat) (w : List Char),
        e = .badAtom (String.ofList w) p ∧ Run text.toList p w ∧ ¬ Word w ∧
          ∀ q v, Run text.toList q v → ¬ Word v → p ≤ q) ∧
      ∀ ts, tokens text = .ok ts →
        ts.Pairwise (fun t u => t.offset < u.offset) ∧
        (∀ t ∈ ts, t.lexeme ≠ [] ∧
          (text.toList.drop t.offset).take t.lexeme.length = t.lexeme) ∧
        ts.Pairwise (fun t u => ∀ i, ¬ (t.Covers i ∧ u.Covers i)) ∧
        (∀ i c, text.toList[i]? = some c → (∀ t ∈ ts, ¬ t.Covers i) → Text.isBlank c) ∧
        ∀ p w, (∃ cls, .atom cls w p ∈ ts) ↔ Run text.toList p w := by
  have answers : Answers text.toList 0 (tokens text) :=
    @scan_answers _ [] [] _ rfl (by simp) (by simp)
  refine ⟨⟨?_, ?_⟩, fun e he => ?_, fun ts hts => ?_⟩
  · rintro ⟨e, he⟩
    rw [he] at answers
    obtain ⟨p, w, _, _, hrun, hbad, _⟩ := answers
    exact ⟨p, w, hrun, hbad⟩
  · rintro ⟨p, w, hrun, hbad⟩
    cases htext : tokens text with
    | error e => exact ⟨e, rfl⟩
    | ok ts =>
        rw [htext] at answers
        obtain ⟨cls, hmem⟩ := (answers.runs p w (Nat.zero_le p)).mp hrun
        exact absurd (Grammar.word_iff.mpr ⟨cls, answers.classed _ hmem⟩) hbad
  · rw [he] at answers
    obtain ⟨p, w, hbad, _, hrun, hword, first⟩ := answers
    exact ⟨p, w, hbad, hrun, hword, fun q v => first q v (Nat.zero_le q)⟩
  · rw [hts] at answers
    obtain ⟨slices, ordered, blank, runs, _⟩ := answers
    refine ⟨?_, fun t ht => ⟨(slices t ht).2.1, ?_⟩, ?_, fun i c => blank i c (Nat.zero_le i),
      fun p w => (runs p w (Nat.zero_le p)).symm⟩
    · refine ordered.imp_of_mem fun {t u} ht _ hle => ?_
      have := List.length_pos_iff.mpr (slices t ht).2.1
      omega
    · exact (List.prefix_iff_eq_take.mp (slices t ht).2.2).symm
    · refine ordered.imp fun {t u} hle i => ?_
      rintro ⟨⟨_, ht⟩, ⟨hu, _⟩⟩
      omega

/-- Offsets count code points. -/
example : tokens "\u00a0(#é)" = .error (.badAtom "#é" 2) := rfl

end Token

end CellScheme
