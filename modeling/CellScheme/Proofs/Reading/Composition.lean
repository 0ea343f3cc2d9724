import CellScheme.Proofs.Reading.Continuation

/-!
Reading one text behind another. Behind a complete text the tokens of the next one are those that it
has alone, so much further on as the text before it is long, and they are read as if nothing had
been read before. So expressions come one after the other, and what fails, or waits for more, is the
second text.
-/

namespace CellScheme

/-- The same failure this many characters further on. -/
def ParseFailure.moved (n : Nat) : ParseFailure → ParseFailure
  | badAtom atom offset => badAtom atom (offset + n)
  | strayClose offset => strayClose (offset + n)
  | literalOutOfRange literal offset => literalOutOfRange literal (offset + n)
  | e => e

namespace Token

/-- The same token this many characters further on. -/
def moved (n : Nat) : Token → Token
  | opening o => opening (o + n)
  | closing o => closing (o + n)
  | quote o => quote (o + n)
  | atom cls cs o => atom cls cs (o + n)

/-- What scanning gives, this many characters further on. -/
def movedAll (n : Nat) (r : Except ParseFailure (List Token)) : Except ParseFailure (List Token) :=
  (r.map (List.map (moved n))).mapError (ParseFailure.moved n)

theorem movedAll_cons (n : Nat) (t : Token) (r : Except ParseFailure (List Token)) :
    movedAll n (r.map (t :: ·)) = (movedAll n r).map (moved n t :: ·) := by
  cases r <;> rfl

theorem ofMark?_moved (c : Char) (offset n : Nat) :
    ofMark? c (offset + n) = (ofMark? c offset).map (moved n) := by
  unfold ofMark?
  split_ifs <;> rfl

theorem ofAtom_moved (cs : List Char) (offset n : Nat) :
    ofAtom cs (offset + n) =
      ((ofAtom cs offset).map (moved n)).mapError (ParseFailure.moved n) := by
  unfold ofAtom AtomClass.decode
  cases AtomClass.of? cs with
  | some c => rfl
  | none => simp [Except.map, Except.mapError, ParseFailure.moved]

theorem flush_moved {run : List Char} {offset : Nat} (hrun : run.length ≤ offset) (n : Nat)
    (rest : Except ParseFailure (List Token)) :
    flush run (offset + n) (movedAll n rest) = movedAll n (flush run offset rest) := by
  cases run with
  | nil => rfl
  | cons c run =>
      simp only [flush, Nat.sub_add_comm hrun, ofAtom_moved]
      cases ofAtom (c :: run).reverse (offset - (c :: run).length) with
      | error e => rfl
      | ok t => exact (movedAll_cons n t rest).symm

theorem scan_moved (n : Nat) (cs : List Char) {run : List Char} {offset : Nat}
    (hrun : run.length ≤ offset) :
    scan run (offset + n) cs = movedAll n (scan run offset cs) := by
  induction cs generalizing run offset with
  | nil => exact flush_moved hrun n (.ok [])
  | cons c cs ih =>
      have next : scan [] (offset + n + 1) cs = movedAll n (scan [] (offset + 1) cs) := by
        rw [Nat.add_right_comm]
        exact ih (Nat.zero_le _)
      rw [scan, scan, ofMark?_moved]
      cases ofMark? c offset with
      | some t =>
          simp only [Option.map_some, next, ← movedAll_cons]
          exact flush_moved hrun n _
      | none =>
          simp only [Option.map_none, next]
          split
          · exact flush_moved hrun n _
          · rw [Nat.add_right_comm]
            exact ih (Nat.succ_le_succ hrun)

end Token

namespace Reading

theorem atomDatum_moved (cls : AtomClass) (cs : List Char) (offset n : Nat) :
    atomDatum cls cs (offset + n) = (atomDatum cls cs offset).mapError (ParseFailure.moved n) := by
  cases cls with
  | decimal =>
      simp only [atomDatum]
      cases Text.int64? (Text.intOfLiteral cs) <;> rfl
  | bool | symbol => rfl

theorem feed_moved (n : Nat) (r : Reading) (t : Token) :
    r.feed (t.moved n) = (r.feed t).mapError (ParseFailure.moved n) := by
  cases t with
  | opening o | quote o => rfl
  | atom cls cs o =>
      simp only [Token.moved, feed, atomDatum_moved]
      cases atomDatum cls cs o <;> rfl
  | closing o =>
      obtain ⟨opened, done⟩ := r
      match opened with
      | [] | .quote :: _ | .list _ :: _ => rfl

theorem feedAll_moved (n : Nat) (r : Reading) (ts : List Token) :
    r.feedAll (ts.map (Token.moved n)) = (r.feedAll ts).mapError (ParseFailure.moved n) := by
  induction ts generalizing r with
  | nil => rfl
  | cons t ts ih =>
      rw [List.map_cons, feedAll, feedAll, feed_moved]
      cases r.feed t with
      | error e => rfl
      | ok r' => exact ih r'

/-- What has been read, with finished expressions before it. -/
def after (before : List Datum) (r : Reading) : Reading :=
  ⟨r.opened, r.done ++ before⟩

theorem deliver_after (before : List Datum) (d : Datum) (done : List Datum)
    (opened : List Opened) :
    deliver d (done ++ before) opened = (deliver d done opened).after before := by
  induction opened generalizing d with
  | nil => rfl
  | cons o rest ih =>
      cases o with
      | quote => exact ih (.quote d)
      | list xs => rfl

/-- Finished expressions are never looked at again. -/
theorem feed_after (before : List Datum) (r : Reading) (t : Token) :
    (r.after before).feed t = (r.feed t).map (after before) := by
  cases t with
  | opening o | quote o => rfl
  | atom cls cs o =>
      simp only [feed, after, deliver_after]
      cases atomDatum cls cs o <;> rfl
  | closing o =>
      obtain ⟨opened, done⟩ := r
      match opened with
      | [] | .quote :: _ => rfl
      | .list xs :: rest =>
          simp only [feed, after, deliver_after]
          rfl

theorem feedAll_after (before : List Datum) (r : Reading) (ts : List Token) :
    (r.after before).feedAll ts = (r.feedAll ts).map (after before) := by
  induction ts generalizing r with
  | nil => rfl
  | cons t ts ih =>
      rw [feedAll, feedAll, feed_after]
      cases r.feed t with
      | error e => rfl
      | ok r₁ => exact ih r₁

end Reading

namespace Datum

theorem parseAll_eq_of_reading {text : String} {r : Reading} (h : reading text = .ok r)
    (hr : r.opened = []) : parseAll text = .ok r.done.reverse := by
  rw [parseAll, readAll_eq, h]
  simp [Reading.finish, hr]

theorem reading_of_parseAll {text : String} {ds : List Datum} (h : parseAll text = .ok ds) :
    reading text = .ok ⟨[], ds.reverse⟩ := by
  rw [parseAll, readAll_eq] at h
  cases hr : reading text with
  | error e => simp [hr] at h
  | ok r =>
      obtain ⟨opened, done⟩ := r
      cases opened with
      | nil =>
          obtain rfl : done.reverse = ds := by simpa [hr, Reading.finish] using h
          rw [List.reverse_reverse]
      | cons o rest => simp [hr, Reading.finish] at h

theorem reading_behind {text : String} {before : List Datum} (h : reading text = .ok ⟨[], before⟩)
    (next : String) :
    reading (text ++ "\n" ++ next) =
      ((reading next).map (Reading.after before)).mapError
        (ParseFailure.moved (text.length + 1)) := by
  have hlist : (text ++ "\n" ++ next).toList = text.toList ++ '\n' :: next.toList := by simp
  have place : 0 + text.toList.length + 1 = 0 + (text.length + 1) := by
    rw [String.length_toList, Nat.add_assoc]
  unfold reading Token.tokens at h ⊢
  rw [hlist, Token.scan_append _ (by decide), place, Token.scan_moved _ _ (Nat.zero_le _)]
  cases hts : Token.scan [] 0 text.toList with
  | error e => simp [hts, Except.bind] at h
  | ok ts =>
      have hfed : Reading.start.feedAll ts = .ok (Reading.start.after before) := by
        rwa [hts] at h
      cases Token.scan [] 0 next.toList with
      | error e => rfl
      | ok us =>
          change Reading.start.feedAll (ts ++ us.map (Token.moved _)) =
            ((Reading.start.feedAll us).map _).mapError _
          rw [Reading.feedAll_ok hfed, Reading.feedAll_moved, Reading.feedAll_after]

/-- What reading the next text gives, behind these expressions and this many characters. -/
def behind (before : List Datum) (n : Nat) :
    Except ReadFailure (List Datum) → Except ReadFailure (List Datum)
  | .ok ds => .ok (before ++ ds)
  | .error .incomplete => .error .incomplete
  | .error (.failed e) => .error (.failed (e.moved n))

theorem readAll_behind {text : String} {ds : List Datum} (h : parseAll text = .ok ds)
    (next : String) :
    readAll (text ++ "\n" ++ next) = behind ds (text.length + 1) (readAll next) := by
  rw [readAll_eq, readAll_eq, reading_behind (reading_of_parseAll h)]
  cases reading next with
  | error e => rfl
  | ok r =>
      obtain ⟨opened, done⟩ := r
      cases opened with
      | nil => simp [Except.map, Except.mapError, Reading.after, Reading.finish, behind]
      | cons o rest => rfl

theorem eq_ok_of_behind {before xs : List Datum} {n : Nat}
    {r : Except ReadFailure (List Datum)} (h : behind before n r = .ok xs) :
    ∃ ds, r = .ok ds ∧ xs = before ++ ds := by
  cases r with
  | ok ds => exact ⟨ds, rfl, (Except.ok.inj h).symm⟩
  | error e => cases e <;> cases h

theorem parseAll_eq_ok_iff {text : String} {ds : List Datum} :
    parseAll text = .ok ds ↔ readAll text = .ok ds :=
  parseAll_eq_ok.trans readAll_eq_ok.symm

theorem parseAll_fails_iff {text : String} :
    (∃ e, parseAll text = .error e) ↔ ∃ e, readAll text = .error e := by
  unfold parseAll
  split <;> simp_all

/-- Behind a complete text and an end of line: the expressions of the next text come after those of
the first, reading fails exactly if it fails on the next text alone, at the place that is as much
further on, and more is asked for exactly if the next text alone asks for it. -/
theorem parseAll_behind {text : String} {xs : List Datum} (h : parseAll text = .ok xs)
    (next : String) :
    let joined := text ++ "\n" ++ next
    (∀ ys, parseAll joined = .ok (xs ++ ys) ↔ parseAll next = .ok ys) ∧
      ((∃ e, parseAll joined = .error e) ↔ ∃ e, parseAll next = .error e) ∧
      (∀ e, readAll next = .error (.failed e) →
        parseAll joined = .error (.parse (e.moved (text.length + 1)))) ∧
      isIncomplete joined = isIncomplete next := by
  intro joined
  have hread : readAll joined = behind xs (text.length + 1) (readAll next) := readAll_behind h next
  refine ⟨fun ys => ?_, ?_, fun e he => ?_, ?_⟩
  · rw [parseAll_eq_ok_iff, parseAll_eq_ok_iff, hread]
    cases readAll next with
    | ok ds => simp [behind]
    | error e => cases e <;> simp [behind]
  · rw [parseAll_fails_iff, parseAll_fails_iff, hread]
    cases readAll next with
    | ok ds => simp [behind]
    | error e => cases e <;> simp [behind]
  · rw [parseAll, hread, he]
    rfl
  · unfold isIncomplete
    rw [hread]
    cases readAll next with
    | ok ds => rfl
    | error e => cases e <;> rfl

/-- The stray bracket of the second text is two characters behind the four of the first line. -/
theorem parseAll_behind_stray :
    parseAll "(a)" = .ok [.list [.symbol "a"]] ∧
      parseAll ("(a)" ++ "\n" ++ "b )") = .error (.parse (.strayClose 6)) ∧
      isIncomplete ("(a)" ++ "\n" ++ "'(b") = true := by
  have h : parseAll "(a)" = .ok [.list [.symbol "a"]] := by rfl
  have stray : readAll "b )" = .error (.failed (.strayClose 2)) := by rfl
  exact ⟨h, (parseAll_behind h "b )").2.2.1 _ stray, (parseAll_behind h "'(b").2.2.2.trans (by rfl)⟩

end Datum

end CellScheme
