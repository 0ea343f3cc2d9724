import CellScheme.Console
import CellScheme.Proofs.Reading.Accepts

/-!
Reading a text line by line. A line end cuts a text into two whose tokens are found one after the
other, so a text that is wrong stays wrong whatever follows, and a text in which lists or quotes are
open can be mended by one more expression and the brackets that are missing. The console therefore
waits for more lines exactly when there are lines that would do.
-/

namespace CellScheme

open Grammar (Terminal WordChar Cut Atom Sexp Sexps Script)

namespace Grammar

theorem not_wordChar_of_blank {b : Char} (hb : Text.isBlank b) : ¬ WordChar b :=
  fun h => by simp [WordChar, hb] at h

theorem Cut.append {cs ds : List Char} {ls us : List Terminal} (h : Cut cs ls) {b : Char}
    (hb : Text.isBlank b) (h' : Cut ds us) : Cut (cs ++ b :: ds) (ls ++ us) := by
  induction h with
  | done => exact .blank hb h'
  | blank hc _ ih => exact .blank hc ih
  | opening _ ih => exact .opening ih
  | closing _ ih => exact .closing ih
  | quote _ ih => exact .quote ih
  | @word w cs ls ne hw hend _ ih =>
      rw [List.append_assoc]
      refine .word ne hw (fun c hc => ?_) ih
      cases cs with
      | nil =>
          obtain rfl : b = c := by simpa using hc
          exact not_wordChar_of_blank hb
      | cons a cs => exact hend c hc

theorem Script.append {cs ds : List Char} {xs ys : List Datum} (h : Script cs xs) {b : Char}
    (hb : Text.isBlank b) (h' : Script ds ys) : Script (cs ++ b :: ds) (xs ++ ys) := by
  obtain ⟨ls, cut, hx⟩ := h
  obtain ⟨us, cut', hy⟩ := h'
  exact ⟨ls ++ us, cut.append hb cut', hx.append hy⟩

end Grammar

namespace Token

theorem flush_bind (run : List Char) (offset : Nat) (x : Except ParseFailure (List Token))
    (y : Except ParseFailure (List Token)) :
    flush run offset (x.bind fun ts => y.map (ts ++ ·)) =
      (flush run offset x).bind fun ts => y.map (ts ++ ·) := by
  cases run with
  | nil => rfl
  | cons a run =>
      simp only [flush]
      cases ofAtom (a :: run).reverse (offset - (a :: run).length) with
      | error e => rfl
      | ok t => cases x <;> cases y <;> rfl

/-- A blank ends the run before it, so that the text before it and the text after it are scanned
apart from each other; of two failures the first counts. -/
theorem scan_append (cs : List Char) {b : Char} (hb : Text.isBlank b) (ds run : List Char)
    (offset : Nat) :
    scan run offset (cs ++ b :: ds) =
      (scan run offset cs).bind fun ts =>
        (scan [] (offset + cs.length + 1) ds).map (ts ++ ·) := by
  induction cs generalizing run offset with
  | nil =>
      have hend : ∀ c ∈ (b :: ds).head?, ¬ WordChar c := fun c hc => by
        obtain rfl : b = c := by simpa using hc
        exact Grammar.not_wordChar_of_blank hb
      have hskip : scan [] offset (b :: ds) = scan [] (offset + 1) ds := by
        simp [scan, ofMark?_of_blank hb, hb, flush]
      rw [List.nil_append, scan_boundary hend, hskip, scan, ← flush_bind]
      cases scan [] (offset + 1) ds <;> rfl
  | cons c cs ih =>
      have hlen : offset + (c :: cs).length + 1 = offset + 1 + cs.length + 1 := by
        simp [Nat.add_comm, Nat.add_left_comm]
      rw [List.cons_append, scan, scan, hlen]
      cases hm : ofMark? c offset with
      | some t =>
          simp only [ih]
          rw [← flush_bind]
          cases scan [] (offset + 1) cs <;> cases scan [] (offset + 1 + cs.length + 1) ds <;> rfl
      | none =>
          simp only [ih]
          split
          · rw [← flush_bind]
          · rfl

end Token

namespace Reading

/-- One more expression and a bracket for each open list make a script of what has been read. -/
theorem Spells.closed {done : List Datum} {opened : List Opened} {ls us : List Terminal}
    {d : Datum} (h : Spells done opened ls) (hd : Sexp us d) :
    ∃ n ds, Sexps (ls ++ (us ++ List.replicate n .closing)) ds := by
  induction opened generalizing ls us d with
  | nil => exact ⟨0, _, by simpa using Sexps.snoc h hd⟩
  | cons o rest ih =>
      cases o with
      | quote =>
          obtain ⟨ls₁, rfl, h₁⟩ := h
          obtain ⟨n, ds, hds⟩ := ih h₁ (.quote hd)
          exact ⟨n, ds, by simpa using hds⟩
      | list xs =>
          obtain ⟨ls₁, ls₂, rfl, h₁, h₂⟩ := h
          obtain ⟨n, ds, hds⟩ := ih h₁ (.list (h₂.snoc hd))
          exact ⟨n + 1, ds, by simpa [List.replicate_succ] using hds⟩

end Reading

/-- An expression and closing brackets after it. -/
def closers (n : Nat) : List Char :=
  '0' :: List.replicate n ')'

theorem cut_closers (n : Nat) : Cut (closers n) (.word ['0'] :: List.replicate n .closing) := by
  have hbrackets : Cut (List.replicate n ')') (List.replicate n .closing) := by
    induction n with
    | zero => exact .done
    | succ n ih => exact .closing ih
  refine .word (w := ['0']) (by simp) (by simp [WordChar]; decide) (fun c hc => ?_) hbrackets
  have hmem : c ∈ List.replicate n ')' := List.mem_of_mem_head? hc
  obtain rfl := List.eq_of_mem_replicate hmem
  simp [WordChar]

namespace Datum

/-- What has been read when the text ends. -/
def reading (text : String) : Except ParseFailure Reading :=
  (Token.tokens text).bind Reading.start.feedAll

theorem readAll_eq (text : String) :
    readAll text =
      match reading text with
      | .error e => .error (.failed e)
      | .ok r => r.finish := by
  rw [readAll, reading]
  cases Token.tokens text with
  | error e => rfl
  | ok ts => rfl

theorem isIncomplete_eq (text : String) :
    isIncomplete text = true ↔ ∃ r, reading text = .ok r ∧ r.opened ≠ [] := by
  rw [isIncomplete, readAll_eq]
  cases reading text with
  | error e => simp
  | ok r =>
      obtain ⟨opened, done⟩ := r
      cases opened <;> simp [Reading.finish]

theorem spells_of_reading {text : String} {r : Reading} (h : reading text = .ok r) :
    ∃ ls, Cut text.toList ls ∧ Reading.Spells r.done r.opened ls := by
  unfold reading at h
  cases hts : Token.tokens text with
  | error e => simp [hts, Except.bind] at h
  | ok ts =>
      obtain ⟨cut, classed⟩ := Token.cuts_of_scan (by simp) hts
      have hs : Reading.Spells Reading.start.done Reading.start.opened [] := Sexps.nil
      exact ⟨_, cut, hs.feedAll classed (by simpa [hts, Except.bind] using h)⟩

/-- The tokens of the next line are read from where the text before it left off. -/
theorem reading_append (text next : String) {r : Reading}
    (h : reading (text ++ "\n" ++ next) = .ok r) :
    ∃ r₁ us, reading text = .ok r₁ ∧ Token.Cuts next.toList us ∧ r₁.feedAll us = .ok r := by
  have hlist : (text ++ "\n" ++ next).toList = text.toList ++ '\n' :: next.toList := by simp
  rw [reading, Token.tokens, hlist, Token.scan_append _ (by decide)] at h
  rw [reading, Token.tokens]
  cases hts : Token.scan [] 0 text.toList with
  | error e => simp [hts, Except.bind] at h
  | ok ts =>
      cases hus : Token.scan [] (0 + text.toList.length + 1) next.toList with
      | error e => simp only [hts, hus, Except.bind, Except.map, reduceCtorEq] at h
      | ok us =>
          simp only [hts, hus, Except.bind, Except.map, Reading.feedAll_append] at h
          cases hr : Reading.start.feedAll ts with
          | error e => simp [hr] at h
          | ok r₁ => exact ⟨r₁, us, hr, Token.cuts_of_scan (by simp) hus, by simpa [hr] using h⟩

/-- A text that has a continuation has nothing wrong in it. -/
theorem reading_of_continued {text next : String} {ds : List Datum}
    (h : parseAll (text ++ "\n" ++ next) = .ok ds) : ∃ r, reading text = .ok r := by
  have hread := readAll_eq_ok.mpr (parseAll_eq_ok.mp h)
  rw [readAll_eq] at hread
  cases hr : reading (text ++ "\n" ++ next) with
  | error e => simp [hr] at hread
  | ok r =>
      obtain ⟨r₁, _, h₁, _⟩ := reading_append text next hr
      exact ⟨r₁, h₁⟩

theorem exists_continuation {text : String} (h : isIncomplete text = true) :
    ∃ next ds, parseAll (text ++ "\n" ++ next) = .ok ds := by
  obtain ⟨r, hr, _⟩ := (isIncomplete_eq text).mp h
  obtain ⟨ls, cut, spells⟩ := spells_of_reading hr
  have hdigits : Grammar.Digits ['0'] := ⟨by simp, List.forall_mem_singleton.mpr rfl⟩
  have hzero : Sexp [.word ['0']] (.int 0) := .atom (.int (.natural hdigits))
  obtain ⟨n, ds, hds⟩ := spells.closed hzero
  refine ⟨String.ofList (closers n), ds, parseAll_eq_ok.mpr ⟨_, ?_, hds⟩⟩
  simpa using cut.append (b := '\n') (by decide) (cut_closers n)

theorem parseAll_of_incomplete {text : String} (h : isIncomplete text = true) :
    ∃ e, parseAll text = .error e := by
  rw [isIncomplete] at h
  rw [parseAll]
  split at h
  · rename_i hr
    exact ⟨_, by rw [hr]⟩
  · cases h

/-- Reading the text fails, and there are further lines with which it succeeds. -/
def Completable (text : String) : Prop :=
  (∃ e, parseAll text = .error e) ∧ ∃ next ds, parseAll (text ++ "\n" ++ next) = .ok ds

theorem isIncomplete_iff {text : String} : isIncomplete text = true ↔ Completable text := by
  constructor
  · intro h
    exact ⟨parseAll_of_incomplete h, exists_continuation h⟩
  · rintro ⟨⟨e, he⟩, next, ds, hds⟩
    obtain ⟨r, hr⟩ := reading_of_continued hds
    refine (isIncomplete_eq text).mpr ⟨r, hr, fun hclosed => ?_⟩
    rw [parseAll, readAll_eq, hr] at he
    simp [Reading.finish, hclosed] at he

end Datum

namespace Console

@[simp] theorem pending_print (c : Console) (s : String) : (c.print s).pending = c.pending := rfl

@[simp] theorem pending_printLine (c : Console) (s : String) :
    (c.printLine s).pending = c.pending := rfl

@[simp] theorem pending_showAll (c : Console) (xs : List Node) :
    (c.showAll xs).pending = c.pending := by
  induction xs generalizing c with
  | nil => rfl
  | cons x xs ih => exact ih ({ c with last := some x }.display x)

theorem pending_evalLine (fuel : Nat) (c : Console) (text : String) :
    (c.evalLine fuel text).2.pending = c.pending := by
  simp only [evalLine]
  split <;> simp [flushEvents]

theorem pending_runDirective (c : Console) (cmd : Directive) (arg : String) :
    (c.runDirective cmd arg).pending = c.pending := by
  cases cmd with
  | quit | list | trace | untrace | verbose => rfl
  | dump | json =>
      simp only [runDirective]
      split <;> rfl
  | unjson =>
      simp only [runDirective, runUnjson]
      split
      · rfl
      · split <;> rfl
  | save =>
      simp only [runDirective, runSave]
      split
      · rfl
      · split <;> rfl
  | load =>
      simp only [runDirective, runLoad]
      split
      · rfl
      · split <;> rfl

theorem pending_handle (fuel : Nat) (c : Console) (text : String) :
    (c.handle fuel text).1.pending = c.pending := by
  unfold handle
  split
  · rfl
  · split
    · rfl
    · exact pending_runDirective ..
    · exact pending_evalLine ..

/-- The text that a line completes: the lines that wait, if any, and the line after them. -/
def joined (c : Console) (line : String) : String :=
  match c.pending with
  | none => line
  | some before => before ++ "\n" ++ line

theorem step_of_incomplete {fuel : Nat} {c : Console} {line : String}
    (h : Datum.isIncomplete (c.joined line) = true) :
    c.step fuel line =
      ({ c.remember line with pending := some (c.joined line) }.print continuationPrompt, true) :=
  if_pos h

theorem step_of_not_incomplete {fuel : Nat} {c : Console} {line : String}
    (h : ¬ Datum.isIncomplete (c.joined line) = true) :
    c.step fuel line =
      match { c.remember line with pending := none }.handle fuel (c.joined line) with
      | (c, false) => (c, false)
      | (c, true) => (c.print c.prompt, true) :=
  if_neg h

theorem pending_step_of_not_incomplete {fuel : Nat} {c : Console} {line : String}
    (h : ¬ Datum.isIncomplete (c.joined line) = true) : (c.step fuel line).1.pending = none := by
  have hkept := pending_handle fuel { c.remember line with pending := none } (c.joined line)
  rw [step_of_not_incomplete h]
  split
  · rename_i hc
    rwa [hc] at hkept
  · rename_i hc
    rwa [hc] at hkept

end Console

/-- A text is taken for incomplete exactly if reading it fails and further lines would mend it. The
console asks for another line after exactly these texts: it keeps the text and prints the prompt for
a continuation. After every other text, complete or beyond mending, nothing waits. -/
theorem Datum.isIncomplete_exact :
    (∀ text, isIncomplete text = true ↔
      (∃ e, parseAll text = .error e) ∧
        ∃ next ds, parseAll (text ++ "\n" ++ next) = .ok ds) ∧
      ∀ (fuel : Nat) (c : Console) (line : String),
        (Completable (c.joined line) → c.step fuel line =
          ({ c.remember line with pending := some (c.joined line) }.print
            Console.continuationPrompt, true)) ∧
        (¬ Completable (c.joined line) → (c.step fuel line).1.pending = none) := by
  refine ⟨fun text => isIncomplete_iff, fun fuel c line => ⟨fun h => ?_, fun h => ?_⟩⟩
  · exact Console.step_of_incomplete (isIncomplete_iff.mpr h)
  · exact Console.pending_step_of_not_incomplete fun hi => h (isIncomplete_iff.mp hi)

end CellScheme
