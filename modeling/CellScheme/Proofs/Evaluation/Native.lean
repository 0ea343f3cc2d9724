import CellScheme.Proofs.Evaluation.Refine

/-!
Native procedures on nodes do what they do on trees. Their arguments are in the frame: no procedure
consumes or changes them. The checks that run first rule out the cases in which a procedure would
find nothing where it looks.
-/

namespace CellScheme

open Store (Grown Keeps)
open CellScheme.Tree (World)

variable {P : Prop} {m : Machine} {aside : Set Cell} {F : Multiset Cell} {x y tail : Node}

namespace Check

theorem runAll_cons {name : Name} {form : List Datum} {c : Check} {cs : List Check} :
    runAll name form (c :: cs) = .ok () ↔
      c.run name form = .ok () ∧ runAll name form cs = .ok () := by
  rw [runAll]
  cases c.run name form <;> simp

theorem run_count {name : Name} {form : List Datum} {n : Int} :
    run name form (.count n) = .ok () ↔ (form.length : Int) - 1 = n := by
  simp only [run]
  split <;> simp_all

theorem argument_eq {name : Name} {form : List Datum} {i : Nat} {d : Datum}
    (hd : form[i + 1]? = some d) : argument name form (i + 1) = .ok d := by
  have hi : ((i : Int) + 1).toNat = i + 1 := by omega
  have hpos : (1 : Int) ≤ i + 1 := by omega
  simp only [argument, if_pos hpos, hi, hd]

theorem run_kind {name : Name} {form : List Datum} {i : Nat} {k : Kind} {d : Datum}
    (hd : form[i + 1]? = some d) : run name form (.kind (i + 1) k) = .ok () ↔ d.kind = k := by
  simp only [run, argument_eq hd]
  split <;> simp_all

theorem run_quotedList {name : Name} {form : List Datum} {i : Nat} {d : Datum}
    (hd : form[i + 1]? = some d) :
    run name form (.quotedList (i + 1)) = .ok () ↔ d.quotedList?.isSome := by
  simp only [run, quotedListAt, argument_eq hd]
  cases d.quotedList? <;> simp

theorem run_nonEmptyList {name : Name} {form : List Datum} {i : Nat} {d : Datum}
    (hd : form[i + 1]? = some d) :
    run name form (.nonEmptyList (i + 1)) = .ok () ↔ Tree.quotedElements d ≠ [] := by
  simp only [run, quotedListAt, argument_eq hd, Tree.quotedElements]
  cases d.quotedList? with
  | none => simp
  | some xs => cases xs <;> simp

end Check

namespace Native

theorem quotedElements_view (h : m.Sound P aside 0 F) (hx : m.store.Visible F x) :
    Tree.quotedElements (m.view x) = m.store.viewSeq (listElements m.store x) := by
  rw [Tree.quotedElements, Machine.view, h.frame.quotedList?_view hx, listElements]
  cases m.store.quotedList? x <;> rfl

theorem visible_listElements (hx : m.store.Visible F x) (hy : y ∈ listElements m.store x) :
    m.store.Visible F y := by
  rw [listElements] at hy
  cases hc : m.store.quotedList? x with
  | none => simp [hc] at hy
  | some c => exact (hx.quotedList hc).list_element (by simpa [hc] using hy)

theorem runCar_makes (h : m.Sound P aside 0 F) (hx : m.store.Visible F x) {d : Datum}
    {ds : List Datum} (hd : Tree.quotedElements (m.view x) = d :: ds) :
    Makes aside F m (runCar x m) d.requote := by
  have hq := quotedElements_view h hx
  cases hl : listElements m.store x with
  | nil =>
      rw [hq, hl] at hd
      cases hd
  | cons y ys =>
      have hy := visible_listElements hx (y := y) (by simp [hl])
      have g := h.frame.share hy
      have hv := (Keeps.of_extends h.frame g.ext).view_eq h.frame g.sound
        (Multiset.le_add_left _ _) hy
      have hr := Makes.grown h (g.trans g.sound.requote)
      rw [hq, hl] at hd
      rw [g.sound.view_requote, hv, (List.cons.inj hd).1] at hr
      simp only [runCar, Act.read_bind, hl, Act.clone_bind, Act.storeGet_apply]
      exact hr

theorem runCdr_makes (h : m.Sound P aside 0 F) (hx : m.store.Visible F x) {d : Datum}
    {ds : List Datum} (hd : Tree.quotedElements (m.view x) = d :: ds) :
    Makes aside F m (runCdr x m) (.quote (.list ds)) := by
  have hq := quotedElements_view h hx
  cases hl : listElements m.store x with
  | nil =>
      rw [hq, hl] at hd
      cases hd
  | cons y ys =>
      have hys : ∀ z ∈ ys, m.store.Visible F z :=
        fun z hz => visible_listElements hx (y := z) (by simp [hl, hz])
      have g1 := h.frame.shareAll hys
      have g2 := g1.sound.makeList
      have hv := (Keeps.of_extends h.frame g1.ext).viewSeq_eq h.frame g1.sound
        (Multiset.le_add_left _ _) hys
      have hr := Makes.grown h ((g1.trans g2).trans g2.sound.makeQuote)
      rw [hq, hl] at hd
      obtain rfl : m.store.viewSeq ys = ds := (List.cons.inj hd).2
      rw [g2.sound.view_makeQuote, g1.sound.view_makeList, hv] at hr
      simp only [runCdr, Act.read_bind, hl, Act.store_bind, Act.storeGet_bind, Act.storeGet_apply]
      exact hr

theorem runCons_makes (h : m.Sound P aside 0 F) (hx : m.store.Visible F x)
    (ht : m.store.Visible F tail) (some : (m.view tail).quotedList?.isSome) :
    Makes aside F m (runCons x tail m)
      (.quote (.list ((m.view x).unquote :: Tree.quotedElements (m.view tail)))) := by
  have g1 := h.frame.unquote hx
  have hu := h.frame.view_unquote hx
  have k1 := Keeps.of_extends h.frame g1.ext
  have ht1 := (k1.visible ht).mono (Multiset.le_add_left F (m.store.unquote x).2.cells)
  have hq : (m.view tail).quotedList? = ((m.store.unquote x).1.quotedList? tail).map
      fun c => (m.store.unquote x).1.viewSeq ((m.store.unquote x).1.elements c) := by
    rw [Machine.view, ← k1.view_eq h.frame g1.sound (Multiset.le_add_left _ _) ht]
    exact g1.sound.quotedList?_view ht1
  cases hc : (m.store.unquote x).1.quotedList? tail with
  | none => simp [hq, hc] at some
  | some c =>
      have hl := ht1.quotedList hc
      have w := g1.sound.rewrite_copy (f := ((m.store.unquote x).2 :: ·)) hl
        (le_of_eq (cellsOf_cons _ _))
      have g2 := Store.Sound.makeQuote (x := .list _) w.sound
      simp only [runCons, Act.storeGet_bind, Act.read_bind, Act.store_bind, Act.storeGet_apply, hc]
      refine ⟨_, _, rfl, g2.sound, ?_, ?_⟩
      · have hF := w.sound.forget (Multiset.le_add_left _ _)
        exact (k1.trans w.keeps).trans (.of_extends hF g2.ext)
      · rw [Store.Sound.view_makeQuote (x := .list _) w.sound, w.sound.view_list .root, w.elements,
          w.view]
        simp only [Tree.quotedElements, hq, hc, Option.map_some, Option.getD_some]
        rw [Machine.view, ← hu]
        rfl

/-- To look below a quote, a handle on the payload is taken. -/
theorem runSymbolQuery_makes (h : m.Sound P aside 0 F) (hx : m.store.Visible F x) :
    Makes aside F m (runQuery .symbol x m) (.bool ((m.view x).unquote.kind == .symbol)) := by
  have g := h.frame.unquote hx
  have k := Keeps.of_extends h.frame g.ext
  have hv := k.view_eq h.frame g.sound (Multiset.le_add_left _ _) hx
  have e : runQuery .symbol x m = .ok
      (.bool (((m.store.unquote x).1.view x).unquote.kind == .symbol))
      { m with store := (m.store.unquote x).1 } := rfl
  rw [e, hv]
  exact ⟨_, _, rfl, g.sound.forget (add_le_add (Multiset.zero_le _) le_rfl), k, rfl⟩

theorem runQuery_refines (h : m.Sound P aside 0 F) (hx : m.store.Visible F x) {ev : Tree.Evaluator}
    (q : Query) (d : Datum) :
    Refines P aside F m (runQuery q x m)
      (Tree.runChecked ev (.query q) [d, m.view x] (World.of m)) := by
  cases q with
  | symbol => exact (runSymbolQuery_makes h hx).refines h
  | list | number | boolean | procedure => exact .pure ⟨h.store, h.scopes, h.plain⟩
  | unknown name => exact .throw h

theorem quotedExpr_view (h : m.Sound P aside 0 F) (hx : m.store.Visible F x) :
    m.view (quotedExpr m.store x) = (m.view x).unquote ∧
      m.store.Visible F (quotedExpr m.store x) := by
  cases x with
  | quote c =>
      rw [Machine.view, Machine.view, h.frame.view_quote hx]
      exact ⟨rfl, hx.quote_payload⟩
  | int _ | bool _ | symbol _ | builtin _ => exact ⟨rfl, hx⟩
  | list c =>
      rw [Machine.view, Machine.view, h.frame.view_list hx]
      exact ⟨h.frame.view_list hx, hx⟩
  | lambda b p k =>
      rw [Machine.view, Machine.view, h.frame.view_lambda hx]
      exact ⟨h.frame.view_lambda hx, hx⟩

theorem form_of_length_two {form : List Node}
    (h : ((m.store.viewSeq form).length : Int) - 1 = 1) : ∃ a x, form = [a, x] := by
  rw [Store.length_viewSeq] at h
  exact List.length_eq_two.mp (by omega)

theorem form_of_length_three {form : List Node}
    (h : ((m.store.viewSeq form).length : Int) - 1 = 2) : ∃ a x y, form = [a, x, y] := by
  rw [Store.length_viewSeq] at h
  exact List.length_eq_three.mp (by omega)

theorem int_of_kind (h : m.Sound P aside 0 F) (hx : m.store.Visible F x)
    (hk : (m.view x).kind = .int) : ∃ a, x = .int a := by
  rw [Machine.view, h.frame.kind_view hx] at hk
  cases x with
  | int a => exact ⟨a, rfl⟩
  | bool _ | symbol _ | builtin _ | quote _ | list _ | lambda _ _ _ => cases hk

/-- On arguments that have passed the checks. -/
theorem runChecked_refines {ev : Evaluator} {tev : Tree.Evaluator} (hev : Faithful ev tev)
    {n : Native} (hn : P → n ≠ .identical ∧ n ≠ .equal) (h : m.Sound P aside 0 F)
    {form : List Node} (hv : ∀ x ∈ form, m.store.Visible F x) {name : Name}
    (hc : Check.runAll name (m.store.viewSeq form) n.checks = .ok ()) :
    Refines P aside F m (n.runChecked ev form m)
      (Tree.runChecked tev n (m.store.viewSeq form) (World.of m)) := by
  cases n with
  | car =>
      obtain ⟨h1, h2⟩ := Check.runAll_cons.mp hc
      obtain ⟨a, x, rfl⟩ := form_of_length_two (Check.run_count.mp h1)
      have ne := (Check.run_nonEmptyList (i := 0) rfl).mp (Check.runAll_cons.mp h2).1
      obtain ⟨d, ds, hd⟩ := List.exists_cons_of_ne_nil ne
      refine ((runCar_makes h (hv x (by simp)) hd).refines h).congr fun _ => ?_
      change Tree.runChecked tev .car [m.store.view a, m.store.view x] _ = _
      simp only [Tree.runChecked, hd]
      rfl
  | cdr =>
      obtain ⟨h1, h2⟩ := Check.runAll_cons.mp hc
      obtain ⟨a, x, rfl⟩ := form_of_length_two (Check.run_count.mp h1)
      have ne := (Check.run_nonEmptyList (i := 0) rfl).mp (Check.runAll_cons.mp h2).1
      obtain ⟨d, ds, hd⟩ := List.exists_cons_of_ne_nil ne
      refine ((runCdr_makes h (hv x (by simp)) hd).refines h).congr fun _ => ?_
      change Tree.runChecked tev .cdr [m.store.view a, m.store.view x] _ = _
      simp only [Tree.runChecked, hd]
      rfl
  | cons =>
      obtain ⟨h1, h2⟩ := Check.runAll_cons.mp hc
      obtain ⟨a, x, y, rfl⟩ := form_of_length_three (Check.run_count.mp h1)
      have hq := (Check.run_quotedList (i := 1) rfl).mp (Check.runAll_cons.mp h2).1
      exact (runCons_makes h (hv x (by simp)) (hv y (by simp)) hq).refines h
  | identical | equal =>
      obtain ⟨h1, _⟩ := Check.runAll_cons.mp hc
      obtain ⟨a, x, y, rfl⟩ := form_of_length_three (Check.run_count.mp h1)
      refine (Refines.pure (v := .bool _) ⟨h.store, h.scopes, h.plain⟩).congr fun hP => ?_
      simp at hn
      exact absurd hP hn
  | atom | null =>
      obtain ⟨h1, _⟩ := Check.runAll_cons.mp hc
      obtain ⟨a, x, rfl⟩ := form_of_length_two (Check.run_count.mp h1)
      exact .pure ⟨h.store, h.scopes, h.plain⟩
  | zero | step _ =>
      obtain ⟨h1, h2⟩ := Check.runAll_cons.mp hc
      obtain ⟨a, x, rfl⟩ := form_of_length_two (Check.run_count.mp h1)
      have hk := (Check.run_kind (i := 0) rfl).mp (Check.runAll_cons.mp h2).1
      obtain ⟨a, rfl⟩ := int_of_kind h (hv x (by simp)) hk
      exact .pure ⟨h.store, h.scopes, h.plain⟩
  | arith op =>
      obtain ⟨h1, h2⟩ := Check.runAll_cons.mp hc
      obtain ⟨h2, h3⟩ := Check.runAll_cons.mp h2
      obtain ⟨f, x, y, rfl⟩ := form_of_length_three (Check.run_count.mp h1)
      have hx := (Check.run_kind (i := 0) rfl).mp h2
      have hy := (Check.run_kind (i := 1) rfl).mp (Check.runAll_cons.mp h3).1
      obtain ⟨a, rfl⟩ := int_of_kind h (hv x (by simp)) hx
      obtain ⟨b, rfl⟩ := int_of_kind h (hv y (by simp)) hy
      exact .ofExcept_bind h fun v _ => .pure ⟨h.store, h.scopes, h.plain⟩
  | eval =>
      obtain ⟨h1, _⟩ := Check.runAll_cons.mp hc
      obtain ⟨a, x, rfl⟩ := form_of_length_two (Check.run_count.mp h1)
      obtain ⟨he, hq⟩ := quotedExpr_view h (hv x (by simp))
      have hr := hev.evalCopy h hq
      rw [he] at hr
      exact hr
  | query q =>
      obtain ⟨h1, _⟩ := Check.runAll_cons.mp hc
      obtain ⟨a, x, rfl⟩ := form_of_length_two (Check.run_count.mp h1)
      exact runQuery_refines h (hv x (by simp)) q _

theorem run_refines {ev : Evaluator} {tev : Tree.Evaluator} (hev : Faithful ev tev)
    {n : Native} (hn : P → n ≠ .identical ∧ n ≠ .equal) (h : m.Sound P aside 0 F)
    {form : List Node} (hv : ∀ x ∈ form, m.store.Visible F x) (name : Name) :
    Refines P aside F m (n.run ev name form m)
      (Tree.runNative tev n name (m.store.viewSeq form) (World.of m)) := by
  refine .ofExcept_bind h fun u hc => ?_
  exact runChecked_refines hev hn h hv hc

end Native

end CellScheme
