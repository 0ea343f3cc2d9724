import CellScheme.Proofs.Reading.Composition
import CellScheme.Proofs.Reading.RoundTrip
import CellScheme.Proofs.Text.Line
import Mathlib.Data.List.TakeWhile

/-!
Scripts line by line. A script has the expressions of its lines, however it is cut: a text that is
complete takes its own expressions off, and the rest of the lines is a script of the others.
-/

namespace CellScheme

open Grammar (Terminal WordChar Cut Sexps Script)

namespace Grammar

/-- A blank stands between two cuts. -/
theorem Cut.split {cs ds : List Char} {b : Char} (hb : Text.isBlank b) {ls : List Terminal}
    (h : Cut (cs ++ b :: ds) ls) : ∃ ls₁ ls₂, ls = ls₁ ++ ls₂ ∧ Cut cs ls₁ ∧ Cut ds ls₂ := by
  generalize e : cs ++ b :: ds = xs at h
  induction h generalizing cs with
  | done => simp at e
  | @blank c rest ls hc h ih =>
      cases cs with
      | nil =>
          cases e
          exact ⟨[], ls, rfl, .done, h⟩
      | cons a cs =>
          cases e
          obtain ⟨ls₁, ls₂, rfl, h₁, h₂⟩ := ih rfl
          exact ⟨ls₁, ls₂, rfl, .blank hc h₁, h₂⟩
  | opening h ih | closing h ih | quote h ih =>
      cases cs with
      | nil =>
          cases e
          exact absurd hb (by decide)
      | cons a cs =>
          cases e
          obtain ⟨ls₁, ls₂, rfl, h₁, h₂⟩ := ih rfl
          refine ⟨_ :: ls₁, ls₂, rfl, ?_, h₂⟩
          first | exact .opening h₁ | exact .closing h₁ | exact .quote h₁
  | @word w rest ls ne hw hend h ih =>
      rcases List.append_eq_append_iff.mp e with ⟨as, rfl, hrest⟩ | ⟨as, rfl, hrest⟩
      · cases as with
        | nil =>
            obtain ⟨ls₁, ls₂, rfl, h₁, h₂⟩ := @ih [] hrest
            have hcut : Cut (cs ++ []) (.word cs :: ls₁) := .word (by simpa using ne)
              (by simpa using hw) (by simp) h₁
            exact ⟨.word cs :: ls₁, ls₂, by simp, by simpa using hcut, h₂⟩
        | cons a as =>
            cases hrest
            exact absurd (hw b (by simp)) (not_wordChar_of_blank hb)
      · obtain ⟨ls₁, ls₂, rfl, h₁, h₂⟩ := ih hrest.symm
        refine ⟨_, ls₂, rfl, .word ne hw (fun c hc => hend c ?_) h₁, h₂⟩
        rw [hrest, List.head?_append, Option.mem_def.mp hc]
        rfl

theorem Cut.nil_inv {ls : List Terminal} (h : Cut [] ls) : ls = [] := by
  generalize e : ([] : List Char) = xs at h
  cases h with
  | done => rfl
  | blank | opening | closing | quote => cases e
  | word ne _ _ _ => exact absurd (List.append_eq_nil_iff.mp e.symm).1 ne

theorem Cut.blanks_inv {cs : List Char} (hb : ∀ c ∈ cs, Text.isBlank c) {ls : List Terminal}
    (h : Cut cs ls) : ls = [] := by
  induction cs generalizing ls with
  | nil => exact h.nil_inv
  | cons c cs ih =>
      have hs : Cut ([] ++ c :: cs) ls := h
      obtain ⟨ls₁, ls₂, rfl, h₁, h₂⟩ := hs.split (hb c (by simp))
      rw [h₁.nil_inv, ih (fun d hd => hb d (by simp [hd])) h₂]
      rfl

theorem Cut.append_blanks {cs bs : List Char} {ls : List Terminal} (h : Cut cs ls)
    (hb : ∀ b ∈ bs, Text.isBlank b) : Cut (cs ++ bs) ls := by
  induction bs generalizing cs with
  | nil => rwa [List.append_nil]
  | cons b bs ih =>
      have hone : Cut (cs ++ [b]) ls := by
        simpa using h.append (hb b (by simp)) .done
      simpa using ih hone fun d hd => hb d (by simp [hd])

/-- A carriage return at the end of a line does not count. -/
theorem Cut.closeChars {run : List Char} {ls : List Terminal} (h : Cut run.reverse ls) :
    Cut (Text.closeChars run) ls := by
  cases run with
  | nil => exact h
  | cons c run =>
      rw [Text.closeChars]
      split
      · rename_i hc
        subst hc
        rw [List.reverse_cons] at h
        obtain ⟨ls₁, ls₂, rfl, h₁, h₂⟩ := h.split (by decide)
        rw [h₂.nil_inv, List.append_nil]
        exact h₁
      · exact h

end Grammar

/-- The text of lines that all end with a line feed. -/
def unlines (lines : List String) : String :=
  String.join (lines.map (· ++ "\n"))

theorem unlines_cons (line : String) (lines : List String) :
    unlines (line :: lines) = line ++ "\n" ++ unlines lines := by
  rw [unlines, List.map_cons, String.join_cons]
  rfl

theorem toList_unlines (css : List (List Char)) :
    (unlines (css.map String.ofList)).toList = css.flatMap (· ++ ['\n']) := by
  induction css with
  | nil => rfl
  | cons cs css ih =>
      rw [List.map_cons, unlines_cons, String.toList_append, String.toList_append, ih]
      simp

theorem Grammar.Cut.charLines {run cs : List Char} {ls : List Terminal}
    (h : Cut (run.reverse ++ cs) ls) :
    Cut ((Text.charLines run cs).flatMap (· ++ ['\n'])) ls := by
  induction cs generalizing run ls with
  | nil =>
      rw [List.append_nil] at h
      cases run with
      | nil => exact h
      | cons c run =>
          have hcut := h.append (b := '\n') (by decide) .done
          simpa [Text.charLines] using hcut
  | cons c cs ih =>
      rw [Text.charLines]
      split
      · rename_i hc
        subst hc
        obtain ⟨ls₁, ls₂, rfl, h₁, h₂⟩ := h.split (by decide)
        have hcut := h₁.closeChars.append (b := '\n') (by decide) (@ih [] ls₂ h₂)
        simpa using hcut
      · refine ih ?_
        simpa using h

namespace Datum

/-- Reading lines instead of the text they were cut out of makes no difference. -/
theorem parseAll_unlines {text : String} (hend : Text.endsFull text = false) {ds : List Datum}
    (h : parseAll text = .ok ds) : parseAll (unlines (Text.lines text)) = .ok ds := by
  obtain ⟨ls, cut, hds⟩ := parseAll_eq_ok.mp h
  refine parseAll_eq_ok.mpr ⟨ls, ?_, hds⟩
  rw [Text.lines_eq hend, toList_unlines]
  exact @Grammar.Cut.charLines [] _ _ cut

end Datum

namespace Datum

/-- If the lines before are complete, the lines after them are read for themselves. -/
theorem parseAll_split {text next : String} {xs ys : List Datum}
    (h : parseAll (text ++ "\n" ++ next) = .ok xs) (hy : parseAll text = .ok ys) :
    ∃ zs, parseAll next = .ok zs ∧ xs = ys ++ zs := by
  rw [parseAll_eq_ok_iff, readAll_behind hy] at h
  obtain ⟨zs, hz, rfl⟩ := eq_ok_of_behind h
  exact ⟨zs, parseAll_eq_ok_iff.mpr hz, rfl⟩

theorem parseAll_of_not_incomplete {text next : String} {xs : List Datum}
    (h : parseAll (text ++ "\n" ++ next) = .ok xs) (hi : ¬ isIncomplete text = true) :
    ∃ ys, parseAll text = .ok ys := by
  obtain ⟨r, hr⟩ := reading_of_continued h
  by_cases hopen : r.opened = []
  · exact ⟨_, parseAll_eq_of_reading hr hopen⟩
  · exact absurd ((isIncomplete_eq text).mpr ⟨r, hr, hopen⟩) hi

/-- An end of line does not complete a text. -/
theorem not_parseAll_of_incomplete {text : String} (hi : isIncomplete text = true)
    {xs : List Datum} : parseAll (text ++ "\n" ++ "") ≠ .ok xs := by
  intro h
  obtain ⟨r, hr, hopen⟩ := (isIncomplete_eq text).mp hi
  obtain ⟨r', us, hr', ⟨cut, _⟩, hf⟩ := reading_append text "" (reading_of_parseAll h)
  obtain rfl := Except.ok.inj (hr.symm.trans hr')
  obtain rfl := List.map_eq_nil_iff.mp cut.nil_inv
  obtain rfl := Except.ok.inj hf
  exact hopen rfl

end Datum

theorem Text.isBlank_of_trim {cs : List Char} (h : (Text.trim cs).isEmpty = true) :
    ∀ c ∈ cs, Text.isBlank c := by
  have htrim : Text.trimLeft (Text.trimLeft cs).reverse = [] := by
    simpa [Text.trim] using h
  refine List.dropWhile_eq_nil_iff.mp ?_
  by_contra hne
  have hblank := List.dropWhile_eq_nil_iff.mp htrim _ (List.mem_reverse.mpr (List.head_mem hne))
  rw [List.head_dropWhile_not Text.isBlank hne] at hblank
  cases hblank

theorem Datum.parseAll_blank {text : String} (hb : (Text.trim text.toList).isEmpty = true)
    {ds : List Datum} (h : Datum.parseAll text = .ok ds) : ds = [] := by
  obtain ⟨ls, cut, hds⟩ := parseAll_eq_ok.mp h
  rw [cut.blanks_inv (Text.isBlank_of_trim hb)] at hds
  generalize e : ([] : List Terminal) = us at hds
  cases hds with
  | nil => rfl
  | cons hd _ =>
      have hnil := (List.append_eq_nil_iff.mp e.symm).1
      rw [hnil] at hd
      cases hd

theorem Text.mem_of_splitWord? {cs w arg : List Char} (h : Text.splitWord? cs = some (w, arg)) :
    ∀ c ∈ w, c ∈ cs := by
  obtain ⟨v, hv, hp⟩ := Option.map_eq_some_iff.mp h
  obtain ⟨rfl, _⟩ := Prod.mk.inj hp
  intro c hc
  have htake : v = (Text.trimLeft cs).takeWhile fun c => !Text.isBlank c := by
    unfold Text.firstWord? at hv
    split at hv
    · cases hv
    · exact (Option.some.inj hv).symm
  rw [htake] at hc
  exact (List.dropWhile_sublist _).subset ((List.takeWhile_sublist _).subset hc)

namespace Console

theorem Directive.head?_of_ofWord? {w : String} {d : Directive}
    (h : Directive.ofWord? w = some d) :
    w.toList.head? = some '.' ∨ w.toList.head? = some ':' := by
  unfold Directive.ofWord? at h
  split at h <;> cases h <;> decide

theorem Directive.ofLine?_script {text : String} {ds : List Datum}
    (h : Datum.parseAll text = .ok ds) : Directive.ofLine? text = none := by
  have hscript := Datum.parseAll_eq_ok.mp h
  have absent {c : Char} (hword : WordChar c) (hsym : isSymbolChar c = false) :
      c ∉ text.toList := by
    intro hc
    rw [Datum.isSymbolChar_of_script hscript hc hword] at hsym
    cases hsym
  unfold Directive.ofLine?
  cases hs : Text.splitWord? text.toList with
  | none => rfl
  | some p =>
      have hmem := Text.mem_of_splitWord? hs
      dsimp only
      cases hd : Directive.ofWord? (String.ofList p.1) with
      | none => rfl
      | some d =>
          have hhead := Directive.head?_of_ofWord? hd
          rw [String.toList_ofList] at hhead
          rcases hhead with hhead | hhead
          · exact absurd (hmem _ (List.mem_of_head? hhead))
              (absent ⟨by decide, by decide, by decide, by decide⟩ (by decide))
          · exact absurd (hmem _ (List.mem_of_head? hhead))
              (absent ⟨by decide, by decide, by decide, by decide⟩ (by decide))

end Console

end CellScheme
