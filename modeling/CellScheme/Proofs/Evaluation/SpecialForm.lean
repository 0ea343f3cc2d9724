import CellScheme.Proofs.Evaluation.Refine

/-!
Special forms on nodes do what they do on trees. The elements of the form are in the frame, so the
form stays whole while its parts are evaluated.
-/

namespace CellScheme.SpecialForm

open Store (Grown Keeps)
open CellScheme.Tree (World)

variable {P : Prop} {m : Machine} {aside : Set Cell} {F : Multiset Cell} {ev : Evaluator}
  {tev : Tree.Evaluator} {form : List Node}

/-- A node whose tree is a boolean is that boolean. -/
theorem bool_of_view {X : Multiset Cell} {x : Node} (h : m.Sound P aside X F)
    (hx : m.store.Visible (X + F) x) {b : Bool} (e : m.view x = .bool b) : x = .bool b := by
  have hk := h.store.kind_view hx
  rw [show m.store.view x = .bool b from e] at hk
  cases x with
  | bool c => simpa [Machine.view] using e
  | int _ | symbol _ | builtin _ | quote _ | list _ | lambda _ _ _ => cases hk

/-- The tree of a node that is no symbol is none. -/
theorem view_ne_symbol (h : m.Sound P aside 0 F) {x : Node} (hx : m.store.Visible F x)
    (ne : ∀ n, x ≠ .symbol n) (n : Name) : m.view x ≠ .symbol n := by
  intro e
  have hk := h.frame.kind_view hx
  rw [show m.store.view x = .symbol n from e] at hk
  cases x with
  | symbol n => exact ne n rfl
  | int _ | bool _ | builtin _ | quote _ | list _ | lambda _ _ _ => cases hk

theorem evalDefine_shape {ds : List Datum} (h : ds.length ≠ 3) :
    Tree.evalDefine tev ds = Tree.fail (.badSyntax (.defineShape ds)) := by
  unfold Tree.evalDefine
  split
  · simp at h
  · simp at h
  · rfl

theorem evalDefine_name {a d e : Datum} (h : ∀ n, d ≠ .symbol n) :
    Tree.evalDefine tev [a, d, e] = Tree.fail (.badSyntax (.defineName d)) := by
  unfold Tree.evalDefine
  split
  · simp_all
  · simp_all
  · simp_all

theorem define_refines {v : Node} (h : m.Sound P aside v.cells F) (name : Name) :
    Refines P aside F m (.ok (.symbol name) (m.define name v))
      (.ok (.symbol name) ((World.of m).define name (m.view v))) := by
  have hc := m.scopes.cells_setGlobal_le name v
  have hd := Machine.Defines.of_define m name v
  refine ⟨v.cells, ⟨⟨?_, ?_, fun hP => ?_⟩, hc, ⟨.refl _ _ _, hd⟩⟩, fun _ => ?_⟩
  · exact h.store.reorder (zero_add _).symm
  · exact hc.trans (add_le_add le_rfl h.scopes)
  · exact (h.plain hP).of_defines hd
  · rw [Tree.World.of_define]
    rfl

theorem runDefine_refines (hev : Faithful ev tev) (h : m.Sound P aside 0 F)
    (hv : ∀ x ∈ form, m.store.Visible F x) :
    Refines P aside F m (runDefine ev form m)
      (Tree.evalDefine tev (m.store.viewSeq form) (World.of m)) := by
  match form, hv with
  | [_, target, expr], hv =>
      have ht := view_ne_symbol h (hv target (by simp))
      cases target with
      | symbol name =>
          refine .bind (hev.evalCopy h (hv expr (by simp))) fun v m' N h' _ => ?_
          exact define_refines h' name
      | int _ | bool _ | builtin _ | quote _ | list _ | lambda _ _ _ =>
          refine (Refines.throw h).congr fun _ => ?_
          exact congrFun (evalDefine_name (ht (by simp))) (World.of m)
  | [], _ | [_], _ | [_, _], _ | _ :: _ :: _ :: _ :: _, _ =>
      rw [evalDefine_shape (by simp [Store.viewSeq])]
      exact .throw h

theorem paramNames_view (h : m.Sound P aside 0 F) (seen : List Name) {xs : List Node}
    (hv : ∀ x ∈ xs, m.store.Visible F x) :
    Tree.paramNames seen (m.store.viewSeq xs) = paramNames m seen xs := by
  induction xs generalizing seen with
  | nil => rfl
  | cons x xs ih =>
      have hx := view_ne_symbol h (hv x (by simp))
      cases x with
      | symbol n =>
          have hs := ih (n :: seen) fun y hy => hv y (by simp [hy])
          simp only [Store.viewSeq, List.map_cons, Store.view_symbol, Tree.paramNames, paramNames]
          split
          · rfl
          · exact hs
      | int _ | bool _ | builtin _ | quote _ | list _ | lambda _ _ _ =>
          have ne := hx (by simp)
          simp only [Store.viewSeq, List.map_cons, paramNames]
          unfold Tree.paramNames
          split <;> simp_all [Machine.view]

theorem evalLambda_shape {ds : List Datum} (h : ds.length ≠ 3) :
    Tree.evalLambda ds = Tree.fail (.badSyntax (.lambdaShape ds)) := by
  unfold Tree.evalLambda
  split
  · simp at h
  · simp at h
  · rfl

theorem evalLambda_params {a d e : Datum} (h : ∀ ds, d ≠ .list ds) :
    Tree.evalLambda [a, d, e] = Tree.fail (.badSyntax (.lambdaParams d)) := by
  unfold Tree.evalLambda
  split
  · simp_all
  · simp_all
  · simp_all

theorem makeLambda_makes (h : m.Sound P aside 0 F) {body : Node} (hb : m.store.Visible F body)
    (names : List Name) :
    Makes aside F m ((Act.clone body >>= fun x => Act.storeGet (·.makeLambda [] names x)) m)
      (.lambda [] names (m.view body)) := by
  have g := h.frame.share hb
  have hs : (m.store.share body).Sound aside (cellsOf [] + (body.cells + F)) :=
    g.sound.reorder (zero_add _).symm
  have k := Keeps.of_extends h.frame g.ext
  have hv := k.view_eq h.frame g.sound (Multiset.le_add_left _ _) hb
  have hr := Makes.grown h (g.trans (hs.makeLambda names))
  rw [hs.view_makeLambda names, hv] at hr
  exact hr

theorem runLambda_refines (h : m.Sound P aside 0 F) (hv : ∀ x ∈ form, m.store.Visible F x) :
    Refines P aside F m (runLambda form m)
      (Tree.evalLambda (m.store.viewSeq form) (World.of m)) := by
  match form, hv with
  | [a, params, body], hv =>
      have hp := hv params (by simp)
      have hk := h.frame.kind_view hp
      cases params with
      | list c =>
          have hn := paramNames_view h [] fun x hx => hp.list_element hx
          have e : Tree.evalLambda (m.store.viewSeq [a, .list c, body]) (World.of m) =
              Tree.evalLambda [m.view a, .list (m.store.viewSeq (m.store.elements c)), m.view body]
                (World.of m) := by
            rw [← h.frame.view_list hp]
            rfl
          rw [e]
          simp only [runLambda, Act.get_bind, Tree.evalLambda, hn]
          cases hc : paramNames m [] (m.store.elements c) with
          | error e => exact .throw h
          | ok names => exact (makeLambda_makes h (hv body (by simp)) names).refines h
      | int _ | bool _ | builtin _ | quote _ | symbol _ | lambda _ _ _ =>
          refine (Refines.throw h).congr fun _ => ?_
          refine congrFun (evalLambda_params fun ds e => ?_) (World.of m)
          rw [e] at hk
          cases hk
  | [], _ | [_], _ | [_, _], _ | _ :: _ :: _ :: _ :: _, _ =>
      rw [evalLambda_shape (by simp [Store.viewSeq])]
      exact .throw h

/-- The trees of a clause. -/
def viewClause (m : Machine) (c : Node × Node) : Datum × Datum :=
  (m.view c.1, m.view c.2)

theorem clause?_view (h : m.Sound P aside 0 F) {x : Node} (hx : m.store.Visible F x) :
    Tree.clause? (m.view x) = (clause? m x).map (viewClause m) ∧
      ∀ c, clause? m x = some c → m.store.Visible F c.1 ∧ m.store.Visible F c.2 := by
  cases x with
  | int _ | bool _ | symbol _ | builtin _ => exact ⟨rfl, fun c hc => by cases hc⟩
  | quote c => rw [Machine.view, h.frame.view_quote hx]; exact ⟨rfl, fun c hc => by cases hc⟩
  | lambda b p k => rw [Machine.view, h.frame.view_lambda hx]; exact ⟨rfl, fun c hc => by cases hc⟩
  | list c =>
      have hv := fun y hy => hx.list_element (x := y) hy
      rw [Machine.view, h.frame.view_list hx]
      simp only [clause?]
      match m.store.elements c, hv with
      | [test, result], hv =>
          refine ⟨rfl, fun c hc => ?_⟩
          obtain rfl : (test, result) = c := by simpa using hc
          exact ⟨hv test (by simp), hv result (by simp)⟩
      | [], _ | [_], _ | _ :: _ :: _ :: _, _ => exact ⟨rfl, fun c hc => by cases hc⟩

theorem isElse_view (h : m.Sound P aside 0 F) {x : Node} (hx : m.store.Visible F x) :
    Tree.isElse (m.view x) = isElse x := by
  cases x with
  | int _ | bool _ | symbol _ | builtin _ => rfl
  | quote c => rw [Machine.view, h.frame.view_quote hx]; rfl
  | lambda b p k => rw [Machine.view, h.frame.view_lambda hx]; rfl
  | list c => rw [Machine.view, h.frame.view_list hx]; rfl

theorem clauses_view (h : m.Sound P aside 0 F) (form : List Node) {xs : List Node}
    (hv : ∀ x ∈ xs, m.store.Visible F x) :
    Tree.clauses (m.store.viewSeq form) (m.store.viewSeq xs) =
        (clauses m form xs).map (fun (cs, last) => (cs.map (viewClause m), m.view last)) ∧
      ∀ cs last, clauses m form xs = .ok (cs, last) →
        m.store.Visible F last ∧ ∀ c ∈ cs, m.store.Visible F c.1 ∧ m.store.Visible F c.2 := by
  induction xs with
  | nil => exact ⟨rfl, fun cs last hc => by cases hc⟩
  | cons x xs ih =>
      obtain ⟨hcl, hvis⟩ := clause?_view h (hv x (by simp))
      obtain ⟨ihe, ihv⟩ := ih fun y hy => hv y (by simp [hy])
      have hemp : (m.store.viewSeq xs).isEmpty = xs.isEmpty := by cases xs <;> rfl
      have hcons : m.store.viewSeq (x :: xs) = m.view x :: m.store.viewSeq xs := rfl
      rw [hcons]
      simp only [Tree.clauses, clauses, hcl, hemp]
      cases hc : clause? m x with
      | none => exact ⟨rfl, fun cs last hc => by cases hc⟩
      | some c =>
          obtain ⟨test, result⟩ := c
          obtain ⟨ht, hr⟩ := hvis _ hc
          simp only [Option.map_some, viewClause, isElse_view h ht]
          split
          · split
            · refine ⟨rfl, fun cs last hl => ?_⟩
              obtain ⟨rfl, rfl⟩ : cs = [] ∧ last = result := by simp_all
              exact ⟨hr, by simp⟩
            · exact ⟨rfl, fun cs last hl => by cases hl⟩
          · split
            · exact ⟨rfl, fun cs last hl => by cases hl⟩
            · rw [ihe]
              cases hrest : clauses m form xs with
              | error e => exact ⟨rfl, fun cs last hl => by cases hl⟩
              | ok rest =>
                  obtain ⟨cs, last⟩ := rest
                  obtain ⟨hlast, hcs⟩ := ihv cs last hrest
                  refine ⟨rfl, fun cs' last' hl => ?_⟩
                  obtain ⟨rfl, rfl⟩ : cs' = (test, result) :: cs ∧ last' = last := by
                    simp_all [Except.map]
                  refine ⟨hlast, fun c hc => ?_⟩
                  rcases List.mem_cons.mp hc with rfl | hc
                  · exact ⟨ht, hr⟩
                  · exact hcs c hc

theorem runClauses_refines (hev : Faithful ev tev) {last : Node} {cs : List (Node × Node)}
    (h : m.Sound P aside 0 F) (hl : m.store.Visible F last)
    (hcs : ∀ c ∈ cs, m.store.Visible F c.1 ∧ m.store.Visible F c.2) :
    Refines P aside F m (runClauses ev last cs m)
      (Tree.evalClauses tev (m.view last) (cs.map (viewClause m)) (World.of m)) := by
  induction cs generalizing m F with
  | nil => exact hev.evalCopy h hl
  | cons c cs ih =>
      obtain ⟨test, result⟩ := c
      obtain ⟨ht, hr⟩ := hcs _ (List.mem_cons_self)
      refine .bind (hev.evalCopy h ht) fun v m' N h' k => ?_
      have hF : F ≤ N + F := Multiset.le_add_left _ _
      have keep : ∀ {x}, m.store.Visible F x → m'.store.Visible (N + F) x ∧ m'.view x = m.view x :=
        fun hx => ⟨(k.store.visible hx).mono hF, h.view_eq h' hF k hx⟩
      have rest := ih (m := m') h'.forget (keep hl).1 fun c hc =>
        ⟨(keep (hcs c (by simp [hc])).1).1, (keep (hcs c (by simp [hc])).2).1⟩
      have hmap : cs.map (viewClause m') = cs.map (viewClause m) :=
        List.map_congr_left fun c hc => Prod.ext (keep (hcs c (by simp [hc])).1).2
          (keep (hcs c (by simp [hc])).2).2
      rw [(keep hl).2, hmap] at rest
      by_cases hb : v = .bool true
      · subst hb
        have hres := hev.evalCopy h'.forget (keep hr).1
        rw [(keep hr).2] at hres
        exact hres
      · have hb' : m'.view v ≠ .bool true := fun e => hb (bool_of_view h' .root e)
        generalize m'.view v = d at hb'
        split
        · contradiction
        · refine rest.congr fun _ => ?_
          split
          · contradiction
          · rfl

theorem runCond_refines (hev : Faithful ev tev) (h : m.Sound P aside 0 F)
    (hv : ∀ x ∈ form, m.store.Visible F x) :
    Refines P aside F m (runCond ev form m)
      (Tree.evalCond tev (m.store.viewSeq form) (World.of m)) := by
  obtain ⟨he, hvis⟩ := clauses_view h form fun x hx => hv x (List.mem_of_mem_tail hx)
  have htail : (m.store.viewSeq form).tail = m.store.viewSeq form.tail := List.map_tail.symm
  simp only [runCond, Tree.evalCond, Store.length_viewSeq, htail, he]
  split
  · exact .throw h
  · simp only [Act.get_bind]
    cases hc : clauses m form form.tail with
    | error e => exact .throw h
    | ok rest =>
        obtain ⟨cs, last⟩ := rest
        obtain ⟨hl, hcs⟩ := hvis cs last hc
        exact runClauses_refines hev h hl hcs

theorem runOperands_refines (hev : Faithful ev tev) (stop : Bool) {first : Node} {xs : List Node}
    (h : m.Sound P aside 0 F) (hf : m.store.Visible F first)
    (hv : ∀ x ∈ xs, m.store.Visible F x) :
    Refines P aside F m (runOperands ev stop first xs m)
      (Tree.evalOperands tev stop (m.view first) (m.store.viewSeq xs) (World.of m)) := by
  induction xs generalizing m F first with
  | nil => exact hev.evalCopy h hf
  | cons x xs ih =>
      refine .bind (hev.evalCopy h hf) fun v m' N h' k => ?_
      have hF : F ≤ N + F := Multiset.le_add_left _ _
      have rest := ih (m := m') h'.forget ((k.store.visible (hv x (by simp))).mono hF)
        fun y hy => (k.store.visible (hv y (by simp [hy]))).mono hF
      rw [h.view_eq h' hF k (hv x (by simp)),
        k.store.viewSeq_eq h.frame h'.frame hF fun y hy => hv y (by simp [hy])] at rest
      by_cases hb : ∃ b, v = .bool b
      · obtain ⟨b, rfl⟩ := hb
        by_cases hs : b = stop
        · subst hs
          simp only [Machine.view, Store.view_bool, if_true]
          exact .pure ⟨h'.forget.store, h'.scopes, h'.plain⟩
        · simp only [Machine.view, Store.view_bool, if_neg hs]
          exact rest
      · have hb' : ∀ b, m'.view v ≠ .bool b := fun b e => hb ⟨b, bool_of_view h' .root e⟩
        generalize m'.view v = d at hb'
        split
        · exact absurd ⟨_, rfl⟩ hb
        · refine rest.congr fun _ => ?_
          split
          · exact absurd rfl (hb' _)
          · rfl

theorem runLogical_refines (hev : Faithful ev tev) (name : String) (stop : Bool)
    (h : m.Sound P aside 0 F) (hv : ∀ x ∈ form, m.store.Visible F x) :
    Refines P aside F m (runLogical ev name stop form m)
      (Tree.evalLogical tev name stop (m.store.viewSeq form) (World.of m)) := by
  match form, hv with
  | [], _ | [_], _ => exact .throw h
  | _ :: x :: xs, hv =>
      exact runOperands_refines hev stop h (hv x (by simp)) fun y hy => hv y (by simp [hy])

theorem run_refines (hev : Faithful ev tev) (f : SpecialForm) (h : m.Sound P aside 0 F)
    (hv : ∀ x ∈ form, m.store.Visible F x) :
    Refines P aside F m (f.run ev form m)
      (Tree.evalForm tev f (m.store.viewSeq form) (World.of m)) := by
  cases f with
  | define => exact runDefine_refines hev h hv
  | lambda => exact runLambda_refines h hv
  | cond => exact runCond_refines hev h hv
  | and => exact runLogical_refines hev "and" false h hv
  | or => exact runLogical_refines hev "or" true h hv

end CellScheme.SpecialForm
