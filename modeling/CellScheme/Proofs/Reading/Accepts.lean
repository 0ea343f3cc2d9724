import CellScheme.Proofs.Reading.Grammar

/-!
The reader accepts the scripts of the grammar and no other text, and gives the expressions that they
derive. Cutting a text into tokens and reading the tokens are taken one after the other.
-/

namespace CellScheme

open Grammar (Terminal WordChar Cut Atom Sexp Sexps Script)

namespace Token

def terminal : Token → Terminal
  | opening _ => .opening
  | closing _ => .closing
  | quote _ => .quote
  | atom _ cs _ => .word cs

theorem eq_opening {t : Token} (h : t.terminal = .opening) : ∃ o, t = opening o := by
  cases t <;> simp_all [terminal]

theorem eq_closing {t : Token} (h : t.terminal = .closing) : ∃ o, t = closing o := by
  cases t <;> simp_all [terminal]

theorem eq_quote {t : Token} (h : t.terminal = .quote) : ∃ o, t = quote o := by
  cases t <;> simp_all [terminal]

theorem eq_atom {t : Token} {w : List Char} (h : t.terminal = .word w) :
    ∃ c o, t = atom c w o := by
  cases t <;> simp_all [terminal]

/-- An atom has the class of its text. -/
def Classed : Token → Prop
  | atom c cs _ => AtomClass.of? cs = some c
  | _ => True

theorem wordChar_iff {c : Char} (offset : Nat) :
    WordChar c ↔ ofMark? c offset = none ∧ Text.isBlank c = false := by
  unfold WordChar ofMark?
  split
  · simp_all
  · split
    · simp_all
    · split <;> simp_all

theorem scan_wordChar {c : Char} (h : WordChar c) (run : List Char) (offset : Nat)
    (cs : List Char) : scan run offset (c :: cs) = scan (c :: run) (offset + 1) cs := by
  obtain ⟨hm, hb⟩ := (wordChar_iff offset).mp h
  rw [scan, hm]
  simp [hb]

theorem scan_word {w : List Char} (h : ∀ c ∈ w, WordChar c) (run : List Char) (offset : Nat)
    (cs : List Char) :
    scan run offset (w ++ cs) = scan (w.reverse ++ run) (offset + w.length) cs := by
  induction w generalizing run offset with
  | nil => rfl
  | cons c w ih =>
      rw [List.cons_append, scan_wordChar (h c (by simp)), ih fun d hd => h d (by simp [hd])]
      simp [Nat.add_comm, Nat.add_left_comm]

/-- A run ends where no character of a word follows. -/
theorem scan_boundary {cs : List Char} (h : ∀ c ∈ cs.head?, ¬ WordChar c) (run : List Char)
    (offset : Nat) : scan run offset cs = flush run offset (scan [] offset cs) := by
  cases cs with
  | nil => rfl
  | cons c cs =>
      have hc : ¬ WordChar c := h c rfl
      rw [wordChar_iff offset] at hc
      rw [scan, scan]
      cases hm : ofMark? c offset with
      | some t => rfl
      | none =>
          have hb : Text.isBlank c = true := by simpa [hm] using hc
          simp [hb, flush]

theorem flush_ok {run : List Char} {offset : Nat} {rest : Except ParseFailure (List Token)}
    {ts : List Token} (h : flush run offset rest = .ok ts) :
    (run = [] ∧ rest = .ok ts) ∨
      ∃ c o us, run ≠ [] ∧ AtomClass.of? run.reverse = some c ∧ rest = .ok us ∧
        ts = .atom c run.reverse o :: us := by
  cases run with
  | nil => exact .inl ⟨rfl, h⟩
  | cons a run =>
      refine .inr ?_
      simp only [flush, ofAtom, AtomClass.decode] at h
      cases hc : AtomClass.of? (a :: run).reverse with
      | none => simp only [hc, Except.map, reduceCtorEq] at h
      | some c =>
          cases rest with
          | error e => simp only [hc, Except.map, reduceCtorEq] at h
          | ok us =>
              simp only [hc, Except.map, Except.ok.injEq] at h
              exact ⟨c, _, us, by simp, rfl, rfl, h.symm⟩

/-- The tokens of a text are a cut of it into classed words. -/
structure Cuts (cs : List Char) (ts : List Token) : Prop where
  cut : Cut cs (ts.map terminal)
  classed : ∀ t ∈ ts, t.Classed

theorem Cuts.flushed {run cs : List Char} {offset : Nat}
    {rest : Except ParseFailure (List Token)} {ts : List Token}
    (h : flush run offset rest = .ok ts) (hr : ∀ c ∈ run, WordChar c)
    (hb : ∀ c ∈ cs.head?, ¬ WordChar c) (next : ∀ us, rest = .ok us → Cuts cs us) :
    Cuts (run.reverse ++ cs) ts := by
  rcases flush_ok h with ⟨rfl, hrest⟩ | ⟨c, o, us, hne, hc, hrest, rfl⟩
  · exact next ts hrest
  · obtain ⟨cut, classed⟩ := next us hrest
    refine ⟨.word (by simpa using hne) (fun d hd => hr d (by simpa using hd)) hb cut, ?_⟩
    intro t ht
    rcases List.mem_cons.mp ht with rfl | ht
    · exact hc
    · exact classed t ht

theorem Cuts.mark {c : Char} {cs : List Char} {offset : Nat} {t : Token} {us : List Token}
    (hm : ofMark? c offset = some t) (h : Cuts cs us) : Cuts (c :: cs) (t :: us) := by
  obtain ⟨cut, classed⟩ := h
  unfold ofMark? at hm
  split at hm
  · subst c
    obtain rfl := Option.some.inj hm
    exact ⟨.opening cut, by simpa [Classed] using classed⟩
  · split at hm
    · subst c
      obtain rfl := Option.some.inj hm
      exact ⟨.closing cut, by simpa [Classed] using classed⟩
    · split at hm
      · subst c
        obtain rfl := Option.some.inj hm
        exact ⟨.quote cut, by simpa [Classed] using classed⟩
      · cases hm

/-- Scanning is sound for the cut of the pending run and what follows. -/
theorem cuts_of_scan {run cs : List Char} {offset : Nat} {ts : List Token}
    (hr : ∀ c ∈ run, WordChar c) (h : scan run offset cs = .ok ts) :
    Cuts (run.reverse ++ cs) ts := by
  induction cs generalizing run offset ts with
  | nil =>
      refine .flushed h hr (by simp) fun us hus => ?_
      obtain rfl := Except.ok.inj hus
      exact ⟨.done, by simp⟩
  | cons c cs ih =>
      by_cases hc : WordChar c
      · rw [scan_wordChar hc] at h
        have hrun : ∀ d ∈ c :: run, WordChar d := by
          intro d hd
          rcases List.mem_cons.mp hd with rfl | hd
          · exact hc
          · exact hr d hd
        simpa using ih hrun h
      · rw [scan_boundary (by simpa using hc)] at h
        refine .flushed h hr (by simpa using hc) fun us hus => ?_
        rw [scan] at hus
        cases hm : ofMark? c offset with
        | some t =>
            simp only [hm, flush] at hus
            cases hn : scan [] (offset + 1) cs with
            | error e => simp [hn, Except.map] at hus
            | ok vs =>
                simp only [hn, Except.map, Except.ok.injEq] at hus
                exact hus ▸ .mark hm (ih (by simp) hn)
        | none =>
            have hb : Text.isBlank c = true := by
              simpa [wordChar_iff offset, hm] using hc
            simp only [hm, hb, if_true, flush] at hus
            obtain ⟨cut, classed⟩ := ih (by simp) hus
            exact ⟨.blank hb cut, classed⟩

theorem ofMark?_of_blank {c : Char} (h : Text.isBlank c) (offset : Nat) :
    ofMark? c offset = none := by
  unfold ofMark?
  split
  · subst c
    exact absurd h (by decide)
  · split
    · subst c
      exact absurd h (by decide)
    · split
      · subst c
        exact absurd h (by decide)
      · rfl

theorem scan_mark {c : Char} {cs : List Char} {offset : Nat} {t : Token} {ts : List Token}
    (hm : ofMark? c offset = some t) (hs : scan [] (offset + 1) cs = .ok ts) :
    scan [] offset (c :: cs) = .ok (t :: ts) := by
  rw [scan, hm]
  simp only [hs, flush, Except.map]

/-- Every cut into words that have a class is found. -/
theorem scan_of_cut {cs : List Char} {ls : List Terminal} (h : Cut cs ls)
    (hc : ∀ w, .word w ∈ ls → (AtomClass.of? w).isSome) (offset : Nat) :
    ∃ ts, scan [] offset cs = .ok ts ∧ ts.map terminal = ls ∧ ∀ t ∈ ts, t.Classed := by
  induction h generalizing offset with
  | done => exact ⟨[], rfl, rfl, by simp⟩
  | @blank c cs ls hb _ ih =>
      obtain ⟨ts, hs, ht, hcl⟩ := ih hc (offset + 1)
      exact ⟨ts, by simp [scan, ofMark?_of_blank hb, hb, flush, hs], ht, hcl⟩
  | opening _ ih =>
      obtain ⟨ts, hs, ht, hcl⟩ := ih (fun w hw => hc w (by simp [hw])) (offset + 1)
      exact ⟨_, scan_mark rfl hs, by simp [terminal, ht], by simpa [Classed] using hcl⟩
  | closing _ ih =>
      obtain ⟨ts, hs, ht, hcl⟩ := ih (fun w hw => hc w (by simp [hw])) (offset + 1)
      exact ⟨_, scan_mark rfl hs, by simp [terminal, ht], by simpa [Classed] using hcl⟩
  | quote _ ih =>
      obtain ⟨ts, hs, ht, hcl⟩ := ih (fun w hw => hc w (by simp [hw])) (offset + 1)
      exact ⟨_, scan_mark rfl hs, by simp [terminal, ht], by simpa [Classed] using hcl⟩
  | @word w cs ls ne hw hb _ ih =>
      obtain ⟨ts, hs, ht, hcl⟩ := ih (fun v hv => hc v (by simp [hv])) (offset + w.length)
      obtain ⟨c, hcw⟩ := Option.isSome_iff_exists.mp (hc w (by simp))
      have hflush : ∃ o, flush w.reverse (offset + w.length) (.ok ts) =
          .ok (.atom c w o :: ts) := by
        have hne : w.reverse ≠ [] := by simpa using ne
        obtain ⟨a, v, hav⟩ := List.exists_cons_of_ne_nil hne
        have hrev : (a :: v).reverse = w := by rw [← hav, List.reverse_reverse]
        rw [hav]
        simp only [flush, ofAtom, AtomClass.decode, hrev, hcw, Except.map]
        exact ⟨_, rfl⟩
      obtain ⟨o, ho⟩ := hflush
      refine ⟨.atom c w o :: ts, ?_, by simp [terminal, ht], ?_⟩
      · rw [scan_word hw, scan_boundary hb, List.append_nil, hs, ho]
      · intro t ht
        rcases List.mem_cons.mp ht with rfl | ht
        · exact hcw
        · exact hcl t ht

end Token

namespace Reading

/-- Hand over finished expressions one after the other. -/
def deliverAll (r : Reading) (ds : List Datum) : Reading :=
  ds.foldl (fun r d => deliver d r.done r.opened) r

theorem deliverAll_list (ds xs done : List Datum) (rest : List Opened) :
    deliverAll ⟨.list xs :: rest, done⟩ ds = ⟨.list (ds.reverse ++ xs) :: rest, done⟩ := by
  induction ds generalizing xs with
  | nil => rfl
  | cons d ds ih =>
      change deliverAll ⟨.list (d :: xs) :: rest, done⟩ ds = _
      rw [ih, List.reverse_cons, List.append_assoc]
      rfl

theorem deliverAll_top (ds done : List Datum) :
    deliverAll ⟨[], done⟩ ds = ⟨[], ds.reverse ++ done⟩ := by
  induction ds generalizing done with
  | nil => rfl
  | cons d ds ih =>
      change deliverAll ⟨[], d :: done⟩ ds = _
      rw [ih, List.reverse_cons, List.append_assoc]
      rfl

theorem feedAll_ok {r r' : Reading} {ts us : List Token} (h : r.feedAll ts = .ok r') :
    r.feedAll (ts ++ us) = r'.feedAll us := by
  rw [feedAll_append, h]

mutual
/-- The tokens of a derived expression are read as that expression, whatever is open. -/
theorem feedAll_sexp {ls : List Terminal} {d : Datum} (h : Sexp ls d) {ts : List Token}
    (ht : ts.map Token.terminal = ls) (hc : ∀ t ∈ ts, t.Classed) (r : Reading) :
    r.feedAll ts = .ok (deliver d r.done r.opened) := by
  cases h with
  | @atom w _ ha =>
      obtain ⟨t, us, rfl, hw, hu⟩ := List.map_eq_cons_iff.mp ht
      obtain rfl := List.map_eq_nil_iff.mp hu
      obtain ⟨c, o, rfl⟩ := Token.eq_atom hw
      obtain ⟨c', hc', hd⟩ := (Grammar.atom_iff o).mp ha
      have hcls : AtomClass.of? w = some c := hc (.atom c w o) (by simp)
      obtain rfl := Option.some.inj (hcls.symm.trans hc')
      simp [feedAll, feed, hd, Except.map]
  | quote hd =>
      obtain ⟨t, us, rfl, hq, hu⟩ := List.map_eq_cons_iff.mp ht
      obtain ⟨o, rfl⟩ := Token.eq_quote hq
      exact feedAll_sexp hd hu (fun t ht => hc t (by simp [ht])) _
  | list hds =>
      obtain ⟨t, us, rfl, ho, hu⟩ := List.map_eq_cons_iff.mp ht
      obtain ⟨vs, ws, rfl, hv, hw⟩ := List.map_eq_append_iff.mp hu
      obtain ⟨u, ws, rfl, hcl, hw⟩ := List.map_eq_cons_iff.mp hw
      obtain rfl := List.map_eq_nil_iff.mp hw
      obtain ⟨o, rfl⟩ := Token.eq_opening ho
      obtain ⟨o', rfl⟩ := Token.eq_closing hcl
      have hread := feedAll_sexps hds hv (fun t ht => hc t (by simp [ht]))
        ⟨.list [] :: r.opened, r.done⟩
      change feedAll ⟨.list [] :: r.opened, r.done⟩ (vs ++ [.closing o']) = _
      rw [feedAll_ok hread, deliverAll_list]
      simp [feedAll, feed]

theorem feedAll_sexps {ls : List Terminal} {ds : List Datum} (h : Sexps ls ds) {ts : List Token}
    (ht : ts.map Token.terminal = ls) (hc : ∀ t ∈ ts, t.Classed) (r : Reading) :
    r.feedAll ts = .ok (r.deliverAll ds) := by
  cases h with
  | nil =>
      obtain rfl := List.map_eq_nil_iff.mp ht
      rfl
  | cons hd hds =>
      obtain ⟨us, vs, rfl, hu, hv⟩ := List.map_eq_append_iff.mp ht
      rw [feedAll_ok (feedAll_sexp hd hu (fun t ht => hc t (by simp [ht])) r),
        feedAll_sexps hds hv (fun t ht => hc t (by simp [ht]))]
      rfl
end

/-- What has been read spells the finished expressions and, from the outermost to the innermost, the
beginnings of those that are open. -/
def Spells (done : List Datum) : List Opened → List Terminal → Prop
  | [], ls => Sexps ls done.reverse
  | .list xs :: rest, ls =>
    ∃ ls₁ ls₂, ls = ls₁ ++ .opening :: ls₂ ∧ Spells done rest ls₁ ∧ Sexps ls₂ xs.reverse
  | .quote :: rest, ls => ∃ ls₁, ls = ls₁ ++ [.quote] ∧ Spells done rest ls₁

theorem Spells.deliver {opened : List Opened} {done : List Datum} {ls us : List Terminal}
    {d : Datum} (h : Spells done opened ls) (hd : Sexp us d) :
    Spells (deliver d done opened).done (deliver d done opened).opened (ls ++ us) := by
  induction opened generalizing ls us d with
  | nil =>
      change Sexps (ls ++ us) (d :: done).reverse
      rw [List.reverse_cons]
      exact h.snoc hd
  | cons o rest ih =>
      cases o with
      | list xs =>
          obtain ⟨ls₁, ls₂, rfl, h₁, h₂⟩ := h
          refine ⟨ls₁, ls₂ ++ us, by simp, h₁, ?_⟩
          rw [List.reverse_cons]
          exact h₂.snoc hd
      | quote =>
          obtain ⟨ls₁, rfl, h₁⟩ := h
          rw [List.append_assoc]
          exact ih h₁ (.quote hd)

/-- One token is read in keeping with the grammar. -/
theorem Spells.feed {r r' : Reading} {ls : List Terminal} {t : Token}
    (h : Spells r.done r.opened ls) (hc : t.Classed) (hf : r.feed t = .ok r') :
    Spells r'.done r'.opened (ls ++ [t.terminal]) := by
  cases t with
  | opening o =>
      obtain rfl := Except.ok.inj hf
      exact ⟨ls, [], rfl, h, .nil⟩
  | quote o =>
      obtain rfl := Except.ok.inj hf
      exact ⟨ls, rfl, h⟩
  | atom c cs o =>
      simp only [Reading.feed] at hf
      cases hd : atomDatum c cs o with
      | error e => simp only [hd, Except.map, reduceCtorEq] at hf
      | ok d =>
          simp only [hd, Except.map, Except.ok.injEq] at hf
          exact hf ▸ h.deliver (.atom ((Grammar.atom_iff o).mpr ⟨c, hc, hd⟩))
  | closing o =>
      obtain ⟨opened, done⟩ := r
      simp only [Reading.feed] at hf
      split at hf
      · rename_i xs rest
        obtain rfl := Except.ok.inj hf
        obtain ⟨ls₁, ls₂, rfl, h₁, h₂⟩ := h
        rw [List.append_assoc]
        exact h₁.deliver (.list h₂)
      · cases hf

theorem Spells.feedAll {r r' : Reading} {ls : List Terminal} {ts : List Token}
    (h : Spells r.done r.opened ls) (hc : ∀ t ∈ ts, t.Classed) (hf : r.feedAll ts = .ok r') :
    Spells r'.done r'.opened (ls ++ ts.map Token.terminal) := by
  induction ts generalizing r ls with
  | nil =>
      obtain rfl := Except.ok.inj hf
      simpa using h
  | cons t ts ih =>
      simp only [Reading.feedAll] at hf
      cases hr : r.feed t with
      | error e => simp only [hr, reduceCtorEq] at hf
      | ok r₁ =>
          simp only [hr] at hf
          have hrest := ih (h.feed (hc t (by simp)) hr) (fun u hu => hc u (by simp [hu])) hf
          simpa using hrest

end Reading

namespace Datum

/-- The tokens of a script are its only cut into words that spell atoms. -/
theorem scan_of_script {cs : List Char} {ls : List Terminal} {ds : List Datum} (cut : Cut cs ls)
    (hds : Sexps ls ds) :
    ∃ ts, Token.scan [] 0 cs = .ok ts ∧ ts.map Token.terminal = ls ∧ ∀ t ∈ ts, t.Classed := by
  refine Token.scan_of_cut cut (fun w hw => ?_) 0
  obtain ⟨d, hd⟩ := hds.word_atom hw
  obtain ⟨c, hc, _⟩ := (Grammar.atom_iff 0).mp hd
  simp [hc]

theorem readAll_eq_ok {text : String} {ds : List Datum} :
    readAll text = .ok ds ↔ Script text.toList ds := by
  constructor
  · intro h
    unfold readAll at h
    split at h
    · cases h
    · rename_i ts hts
      obtain ⟨cut, classed⟩ := Token.cuts_of_scan (by simp) hts
      split at h
      · cases h
      · rename_i r hr
        have hs : Reading.Spells Reading.start.done Reading.start.opened [] := Sexps.nil
        have hread := hs.feedAll classed hr
        obtain ⟨opened, done⟩ := r
        cases opened with
        | cons o rest => cases h
        | nil =>
            obtain rfl := Except.ok.inj h
            exact ⟨_, cut, hread⟩
  · rintro ⟨ls, cut, hds⟩
    obtain ⟨ts, hscan, hmap, hc⟩ := scan_of_script cut hds
    have hread := Reading.feedAll_sexps hds hmap hc Reading.start
    rw [Reading.start, Reading.deliverAll_top] at hread
    simp only [readAll, Token.tokens, hscan, Reading.start, hread, Reading.finish,
      List.append_nil, List.reverse_reverse]

theorem parseAll_eq_ok {text : String} {ds : List Datum} :
    parseAll text = .ok ds ↔ Script text.toList ds := by
  rw [← readAll_eq_ok, parseAll]
  split <;> simp_all

/-- Reading fails with a failure of reading and no other. -/
theorem parseAll_error_of_not {text : String} (h : ¬ ∃ ds, Script text.toList ds) :
    ∃ e, parseAll text = .error (.parse e) := by
  rw [parseAll]
  split
  · rename_i ds hds
    exact absurd ⟨ds, readAll_eq_ok.mp hds⟩ h
  · exact ⟨_, rfl⟩
  · exact ⟨_, rfl⟩

theorem parse_eq_ok {text : String} {d : Datum} :
    parse text = .ok d ↔ Script text.toList [d] := by
  rw [← parseAll_eq_ok, parse]
  split
  · simp_all
  · simp_all
  · rename_i ds hne hds
    simp only [hds, reduceCtorEq, false_iff]
    exact fun h => hne d (Except.ok.inj h)

theorem parse_error_of_not {text : String} (h : ¬ ∃ d, Script text.toList [d]) :
    ∃ e, parse text = .error (.parse e) := by
  by_cases hall : ∃ ds, Script text.toList ds
  · obtain ⟨ds, hds⟩ := hall
    rw [parse, parseAll_eq_ok.mpr hds]
    split
    · rename_i he
      cases he
    · rename_i d he
      obtain rfl := Except.ok.inj he
      exact absurd ⟨d, hds⟩ h
    · exact ⟨_, rfl⟩
  · obtain ⟨e, he⟩ := parseAll_error_of_not hall
    exact ⟨e, by rw [parse, he]⟩

/-- Reading all expressions of a text succeeds exactly on the scripts of the grammar and gives the
tree of the derivation, which is unique, as is the cut of the text that it derives. Reading one
expression succeeds exactly on scripts of one. On every other text reading fails as such. -/
theorem parseAll_exact (text : String) :
    (∀ ds, parseAll text = .ok ds ↔ Script text.toList ds) ∧
      (∀ ls ds ls' ds', Cut text.toList ls → Sexps ls ds → Cut text.toList ls' → Sexps ls' ds' →
        ls = ls' ∧ ds = ds') ∧
      (∀ d, parse text = .ok d ↔ Script text.toList [d]) ∧
      ((¬ ∃ ds, Script text.toList ds) → ∃ e, parseAll text = .error (.parse e)) ∧
      ((¬ ∃ d, Script text.toList [d]) → ∃ e, parse text = .error (.parse e)) := by
  refine ⟨fun ds => parseAll_eq_ok, fun ls ds ls' ds' cut hds cut' hds' => ⟨?_, ?_⟩,
    fun d => parse_eq_ok, parseAll_error_of_not, parse_error_of_not⟩
  · obtain ⟨ts, hscan, rfl, _⟩ := scan_of_script cut hds
    obtain ⟨ts', hscan', rfl, _⟩ := scan_of_script cut' hds'
    rw [Except.ok.inj (hscan.symm.trans hscan')]
  · have h := parseAll_eq_ok.mpr ⟨ls, cut, hds⟩
    have h' := parseAll_eq_ok.mpr ⟨ls', cut', hds'⟩
    exact Except.ok.inj (h.symm.trans h')

end Datum

end CellScheme
