import CellScheme.Proofs.Text.Utf8
import CellScheme.Text.Line

/-!
The width of stretches does not show in the lines of an input, unless it ends with a full stretch:
the lines are what stands between the line feeds of the text. An input that ends with a full stretch
loses its last line.
-/

namespace CellScheme.Text

/-- The input ends with a full stretch. -/
def endsFull (s : String) : Bool :=
  (stretches (utf8 s)).getLast?.any (·.goesOn)

/-- Cut at line feeds, after the bytes of the current line, held last first. -/
def cutLines (run : Bytes) : Bytes → List Bytes
  | [] => if run.isEmpty then [] else [run.reverse]
  | b :: bs => if b = lineFeed then closeLine run :: cutLines [] bs else cutLines (b :: run) bs

theorem closeLine_eq {bs : Bytes} (h : bs.head? ≠ some carriageReturn) :
    closeLine bs = bs.reverse := by
  cases bs with
  | nil => rfl
  | cons b bs =>
      rw [closeLine, if_neg]
      rintro rfl
      exact h rfl

theorem closeLine_append {run line : Bytes}
    (h : run = [] → line.getLast? ≠ some carriageReturn) :
    closeLine (run ++ line.reverse) = line ++ closeLine run := by
  cases run with
  | nil =>
      rw [List.nil_append, closeLine_eq, List.reverse_reverse, closeLine, List.append_nil]
      rw [List.head?_reverse]
      exact h rfl
  | cons b run =>
      rw [List.cons_append, closeLine, closeLine]
      split <;> simp

theorem getLast?_any_cons {s : Stretch} {ss : List Stretch}
    (h : (s :: ss).getLast?.any (·.goesOn) = false) :
    ss.getLast?.any (·.goesOn) = false ∧ (s.goesOn = true → ss ≠ []) := by
  cases ss with
  | nil =>
      have hs : s.goesOn = false := h
      simp [hs]
  | cons t ts =>
      rw [List.getLast?_cons_cons] at h
      exact ⟨h, by simp⟩

/-- Stretches are joined to the lines that they were cut out of. What is left open when the input
ends is not there, and a stretch that goes on never ends with a carriage return that is not held
back. -/
theorem joinStretches_cutStretches {line run : Bytes} {width : Nat} {bs : Bytes}
    (hline : run = [] → line.getLast? ≠ some carriageReturn)
    (hend : (cutStretches run width bs).getLast?.any (·.goesOn) = false)
    (hopen : line ≠ [] → cutStretches run width bs ≠ []) :
    joinStretches line (cutStretches run width bs) = cutLines (run ++ line.reverse) bs := by
  induction bs generalizing line run width with
  | nil =>
      cases run with
      | nil =>
          obtain rfl : line = [] := by
            by_contra hne
            exact hopen hne rfl
          rfl
      | cons b run => simp [cutStretches, joinStretches, cutLines]
  | cons b bs ih =>
      rw [cutStretches] at hend hopen ⊢
      rw [cutLines]
      split
      · rename_i hb
        rw [if_pos hb] at hend
        have hrest := @ih [] [] 0 (by simp) (getLast?_any_cons hend).1 (by simp)
        simp only [joinStretches, hrest, closeLine_append hline]
        rfl
      · rename_i hb
        rw [if_neg hb] at hend hopen
        split
        · rename_i hw
          rw [if_pos hw] at hend hopen
          exact ih (by simp) hend hopen
        · rename_i hw
          rw [if_neg hw] at hend
          split
          · rename_i hcr
            rw [if_pos hcr] at hend
            obtain ⟨hlast, hne⟩ := getLast?_any_cons hend
            have hrest := @ih (line ++ run.reverse) _ _ (by simp) hlast fun _ => hne rfl
            simp only [joinStretches, if_true, hrest]
            simp
          · rename_i hcr
            rw [if_neg hcr] at hend
            obtain ⟨hlast, hne⟩ := getLast?_any_cons hend
            have hrest := @ih (line ++ (b :: run).reverse) _ _ (by simpa using hcr) hlast
              fun _ => hne rfl
            simp only [joinStretches, if_true, hrest]
            simp

/-- A finished line, held last character first, without the carriage return that it may end with. -/
def closeChars : List Char → List Char
  | [] => []
  | c :: cs => if c = '\r' then cs.reverse else (c :: cs).reverse

/-- Cut at line feeds, after the characters of the current line, held last first. -/
def charLines (run : List Char) : List Char → List (List Char)
  | [] => if run.isEmpty then [] else [run.reverse]
  | c :: cs => if c = '\n' then closeChars run :: charLines [] cs else charLines (c :: run) cs

theorem eq_of_mem_encodeChar {c : Char} {b : UInt8} (hb : b ∈ String.utf8EncodeChar c)
    (hlt : b.toNat < 0x80) : c = Char.ofNat b.toNat := by
  by_cases hc : c.toNat < 0x80
  · rw [encodeChar_one hc] at hb
    rw [List.mem_singleton.mp hb, toNat_ofNat (by omega), Char.ofNat_toNat]
  · exact absurd (le_of_mem_encodeChar (by omega) hb) (by omega)

theorem cutLines_append {w : Bytes} (h : lineFeed ∉ w) (run bs : Bytes) :
    cutLines run (w ++ bs) = cutLines (w.reverse ++ run) bs := by
  induction w generalizing run with
  | nil => rfl
  | cons b w ih =>
      obtain ⟨hb, hw⟩ : lineFeed ≠ b ∧ lineFeed ∉ w := by simpa using h
      rw [List.cons_append, cutLines, if_neg (Ne.symm hb), ih hw]
      simp

theorem closeLine_encode (run : List Char) :
    closeLine (run.reverse.flatMap String.utf8EncodeChar).reverse =
      (closeChars run).flatMap String.utf8EncodeChar := by
  cases run with
  | nil => rfl
  | cons c run =>
      rw [closeChars]
      split
      · rename_i hc
        subst hc
        have hcr : String.utf8EncodeChar '\r' = [carriageReturn] := by decide
        simp [hcr, closeLine]
      · rename_i hc
        rw [closeLine_eq, List.reverse_reverse]
        intro hhead
        rw [List.head?_reverse, List.reverse_cons, List.flatMap_append, List.flatMap_singleton,
          List.getLast?_append, List.getLast?_eq_some_getLast String.utf8EncodeChar_ne_nil,
          Option.some_or, Option.some.injEq] at hhead
        have hm := List.getLast_mem (String.utf8EncodeChar_ne_nil (c := c))
        rw [hhead] at hm
        exact hc (eq_of_mem_encodeChar hm (by decide))

theorem cutLines_encode (run cs : List Char) :
    cutLines (run.reverse.flatMap String.utf8EncodeChar).reverse
        (cs.flatMap String.utf8EncodeChar) =
      (charLines run cs).map (·.flatMap String.utf8EncodeChar) := by
  induction cs generalizing run with
  | nil =>
      cases run with
      | nil => rfl
      | cons c run => simp [cutLines, charLines]
  | cons c cs ih =>
      rw [charLines, List.flatMap_cons]
      split
      · rename_i hc
        subst hc
        have hlf : String.utf8EncodeChar '\n' = [lineFeed] := by decide
        have hrest := ih []
        rw [hlf, List.singleton_append, cutLines, if_pos rfl, closeLine_encode, List.map_cons]
        exact congrArg _ hrest
      · rename_i hc
        have hw : lineFeed ∉ String.utf8EncodeChar c :=
          fun hm => hc (eq_of_mem_encodeChar hm (by decide))
        rw [cutLines_append hw, ← ih (c :: run)]
        simp

theorem ofUtf8_encode (cs : List Char) :
    ofUtf8 (cs.flatMap String.utf8EncodeChar) = String.ofList cs := by
  have h := glyphs_encode cs []
  rw [List.append_nil, glyphs, List.append_nil] at h
  rw [ofUtf8, decodeUtf8, h, List.map_map]
  exact congrArg String.ofList (List.map_id cs)

theorem lines_eq {s : String} (h : endsFull s = false) :
    lines s = (charLines [] s.toList).map String.ofList := by
  rw [lines, stretches, joinStretches_cutStretches (by simp) h (by simp), utf8]
  have hc := cutLines_encode [] s.toList
  rw [List.reverse_nil, List.flatMap_nil, List.reverse_nil] at hc
  rw [List.reverse_nil, List.append_nil, hc, List.map_map]
  exact List.map_congr_left fun cs _ => ofUtf8_encode cs

theorem cutStretches_full {run bs : Bytes} {width : Nat} (hlf : lineFeed ∉ bs) (hne : bs ≠ [])
    (hcr : bs.getLast? ≠ some carriageReturn) (hw : width + bs.length = stretchWidth) :
    cutStretches run width bs = [⟨run.reverse ++ bs, true⟩] := by
  induction bs generalizing run width with
  | nil => exact absurd rfl hne
  | cons b bs ih =>
      obtain ⟨hb, hbs⟩ : lineFeed ≠ b ∧ lineFeed ∉ bs := by simpa using hlf
      rw [List.length_cons] at hw
      rw [cutStretches, if_neg (Ne.symm hb)]
      cases bs with
      | nil =>
          rw [List.length_nil] at hw
          rw [if_neg (by omega), if_neg (by simpa using hcr), cutStretches]
          simp
      | cons d bs =>
          rw [List.length_cons] at hw
          rw [if_pos (by omega), ih hbs (by simp) (by simpa using hcr) (by simp; omega)]
          simp

theorem mem_of_mem_utf8 {s : String} {b : UInt8} (hb : b ∈ utf8 s) (hlt : b.toNat < 0x80) :
    Char.ofNat b.toNat ∈ s.toList := by
  obtain ⟨c, hc, hb⟩ := List.mem_flatMap.mp hb
  rwa [← eq_of_mem_encodeChar hb hlt]

/-- An input of one line without a line feed, as wide as a stretch, has no line at all. -/
theorem lines_full {s : String} (hlf : '\n' ∉ s.toList) (hcr : '\r' ∉ s.toList)
    (hw : (utf8 s).length = stretchWidth) : lines s = [] := by
  have hlf : lineFeed ∉ utf8 s := fun hm => hlf (mem_of_mem_utf8 hm (by decide))
  have hcr : (utf8 s).getLast? ≠ some carriageReturn :=
    fun hm => hcr (mem_of_mem_utf8 (List.mem_of_getLast? hm) (by decide))
  have hne : utf8 s ≠ [] := by
    intro h
    rw [h] at hw
    cases hw
  rw [lines, stretches, cutStretches_full hlf hne hcr (by omega)]
  rfl

end CellScheme.Text
