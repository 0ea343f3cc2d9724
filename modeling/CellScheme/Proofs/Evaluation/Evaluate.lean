import CellScheme.Machine.Run
import CellScheme.Proofs.Evaluation.Leftover

/-!
Evaluation in place does what evaluation of trees does. A list that is evaluated is owned and set
aside: its elements are roots of their own while they are replaced by their values one by one.
-/

namespace CellScheme

open Store (Grown Keeps)
open CellScheme.Tree (World)

variable {P : Prop} {m : Machine} {aside : Set Cell} {F : Multiset Cell} {ev : Evaluator}
  {tev : Tree.Evaluator}

/-- What is neither a lambda nor a builtin cannot be called. -/
theorem call_of_kind {d : Datum} {ds : List Datum} (hl : d.kind ≠ .lambda)
    (hb : d.kind ≠ .builtin) :
    Tree.call tev (d :: ds) = Tree.fail (.runtime (.notProcedure d (d :: ds))) := by
  cases d with
  | lambda _ _ _ => exact absurd rfl hl
  | builtin _ => exact absurd rfl hb
  | int _ | bool _ | symbol _ | quote _ | list _ => rfl

theorem callHead_refines (hev : Faithful ev tev) {c : Nat} {form : List Node}
    (h : m.Sound P aside (cellsOf form) F) (he : m.store.elements c = form) :
    Refines P aside F m (Act.settle (callHead ev c) m)
      (Tree.call tev (m.store.viewSeq form) (World.of m)) := by
  simp only [callHead, Act.settle_get_bind, he]
  cases form with
  | nil => exact .throw h
  | cons head args =>
      have hs : m.Sound P aside head.cells (cellsOf args + F) :=
        Machine.Sound.keep (by rw [← cellsOf_cons]; exact h)
      have ha : ∀ x ∈ args, m.store.Visible (cellsOf args + F) x := fun x hx => .of_mem hx
      have hcons : m.store.viewSeq (head :: args) = m.store.view head :: m.store.viewSeq args := rfl
      cases head with
      | lambda b p k =>
          rw [hcons, hs.store.view_lambda .root]
          simp only [Act.settle_leaving]
          exact (applyLambda_refines hev hs ha).mono
      | builtin name =>
          simp only [Act.settle_leaving]
          have hb := h.keepAll
          exact (callBuiltin_refines hev hb (fun x hx => .of_mem hx) name).mono
      | int _ | bool _ | symbol _ | quote _ | list _ =>
          have hk := hs.store.kind_view .root
          rw [hcons, call_of_kind (by rw [hk]; simp [Node.kind]) (by rw [hk]; simp [Node.kind])]
          exact .throw h

/-- The elements before `xs` have been evaluated; the others follow, and then the call. -/
theorem evalElements_refines (hev : Faithful ev tev) (hl : Leaves ev) {c : Nat}
    (hc : Cell.seq c ∉ aside) {done xs : List Node}
    (h : m.Sound P (insert (.seq c) aside) (cellsOf done + cellsOf xs) F)
    (he : m.store.elements c = done ++ xs) :
    Refines P aside F m
      (Act.settle (evalElements ev c done.length xs >>= fun _ => callHead ev c) m)
      ((Tree.evalAll tev (m.store.viewSeq xs) >>= fun vs =>
        Tree.call tev (m.store.viewSeq done ++ vs)) (World.of m)) := by
  -- The list under evaluation stays aside all the way, so that each element may be overwritten.
  induction xs generalizing m F done with
  | nil =>
      have hs : m.Sound P (insert (.seq c) aside) (cellsOf done) F := by simpa using h
      have hr := callHead_refines hev hs (by simpa using he)
      refine (hr.set_less_aside (Set.subset_insert _ _)).congr fun _ => ?_
      exact congrFun (congrArg (Tree.call tev) (List.append_nil _)) _
  | cons x xs ih =>
      -- While an element is evaluated, the others belong to the frame.
      have hs : m.Sound P (insert (.seq c) aside) x.cells ((cellsOf done + cellsOf xs) + F) := by
        refine Machine.Sound.keep ⟨h.store.reorder ?_, h.scopes, h.plain⟩
        rw [cellsOf_cons]
        abel
      have hr := hev hs
      have et : (Tree.evalAll tev (m.store.viewSeq (x :: xs)) >>= fun vs =>
          Tree.call tev (m.store.viewSeq done ++ vs)) = tev (m.view x) >>= fun v =>
            Tree.evalAll tev (m.store.viewSeq xs) >>= fun vs =>
              Tree.call tev (m.store.viewSeq done ++ v :: vs) := by
        simp only [Store.viewSeq, List.map_cons, Tree.evalAll, bind_assoc, pure_bind]
        rfl
      rw [et]
      cases hx : ev x m with
      | error e m' =>
          rw [Act.settle_error hx] at hr
          rw [Act.settle_bind_error (evalElements_error hx)]
          obtain ⟨N, o, ht⟩ := hr
          have left := hl ⟨hs.store, hs.scopes, False.elim⟩ hx
          obtain ⟨h2, k2, w2, _⟩ := o.setElement h.scopes hc done.length left
          have h3 := h2.forget.set_less_aside (Set.subset_insert (Cell.seq c) aside)
          refine ⟨N, ⟨h3, o.scopes, k2⟩, fun hP => ?_⟩
          rw [Act.bind_error (ht hP), w2]
      | ok v m' =>
          rw [Act.settle_ok hx] at hr
          rw [Act.settle_bind_congr (evalElements_ok hx)]
          obtain ⟨N, o, ht⟩ := hr
          obtain ⟨_, k2, w2, _⟩ := o.setElement h.scopes hc done.length (o.sound.store.solid .root)
          obtain ⟨h2, he2, hxs, hdone⟩ := o.advance hs h.scopes hc he
          have hrest := ih h2 he2
          rw [List.length_append, List.length_singleton, hxs, hdone, w2] at hrest
          refine (hrest.trans k2 o.scopes).congr fun hP => ?_
          rw [Act.bind_ok (ht hP)]
          simp only [List.append_assoc, List.singleton_append]

theorem formOfHead?_view {X : Multiset Cell} {x : Node} (h : m.Sound P aside X F)
    (hx : m.store.Visible (X + F) x) :
    Tree.formOfHead? (m.view x) = SpecialForm.ofHead? x := by
  cases x with
  | int _ | bool _ | symbol _ | builtin _ => rfl
  | quote c => rw [Machine.view, h.store.view_quote hx]; rfl
  | list c => rw [Machine.view, h.store.view_list hx]; rfl
  | lambda b p k => rw [Machine.view, h.store.view_lambda hx]; rfl

theorem evalCall_refines (hev : Faithful ev tev) (hl : Leaves ev) {c : Nat}
    (h : m.Sound P aside {.seq c} F) {form : List Node} (hf : m.store.elements c = form) :
    Refines P aside F m
      (Act.settle (do
        let c ← Act.leaving (.list c) (Act.storeGet (·.ownSeq c))
        evalElements ev c 0 form
        callHead ev c) m)
      ((Tree.evalAll tev (m.store.viewSeq form) >>= Tree.call tev) (World.of m)) := by
  subst hf
  have g := h.store.ownSeq
  have h1 := h.grow g
  have k1 := h.kept_of_extends g.ext
  have he := h.store.elements_ownSeq
  obtain ⟨h2, hin⟩ := h.owned
  have hr := evalElements_refines hev hl hin h2 he
  have hv : (m.store.ownSeq c).1.viewSeq (m.store.elements c) =
      m.store.viewSeq (m.store.elements c) := by
    refine List.map_congr_left fun x hx => g.view_eq h.store ?_ ?_
    · exact Store.Visible.list_element (.root (x := .list c)) hx
    · exact Store.Visible.list_element (.root (x := .list _)) (he.symm ▸ hx)
  have hw := h.world_eq h1 le_rfl k1.store rfl rfl rfl rfl
  have own : Act.leaving (.list c) (Act.storeGet (·.ownSeq c)) m =
      .ok (m.store.ownSeq c).2 { m with store := (m.store.ownSeq c).1 } := rfl
  rw [Act.settle_bind_ok own]
  refine (hr.after k1 rfl).congr fun _ => ?_
  rw [hv, hw]
  rfl

theorem evalList_refines (hev : Faithful ev tev) (hl : Leaves ev) {c : Nat}
    (h : m.Sound P aside {.seq c} F) :
    Refines P aside F m (Act.settle (evalList ev c) m)
      (Tree.evalList tev (m.store.viewSeq (m.store.elements c)) (World.of m)) := by
  have hv : ∀ x ∈ m.store.elements c, m.store.Visible ({.seq c} + F) x :=
    fun x hx => Store.Visible.list_element (.root (x := .list c)) hx
  simp only [evalList, Act.settle_get_bind]
  cases hf : m.store.elements c with
  | nil => exact .throw h
  | cons head args =>
      have hcons : m.store.viewSeq (head :: args) = m.view head :: m.store.viewSeq args := rfl
      have hhead := formOfHead?_view h (hv head (by simp [hf]))
      simp only [hcons, Tree.evalList, hhead]
      cases hform : SpecialForm.ofHead? head with
      | some f =>
          simp only [Act.settle_leaving]
          obtain ⟨es, he⟩ := traceEvent_apply
            (fun m => .special m.depth (m.store.viewSeq (head :: args))) m
          rw [Act.bind_ok he]
          have hr := f.run_refines hev (h.keepAll.logged es) (hf ▸ hv)
          exact (hr.after (.logged m aside _ es) rfl).mono
      | none =>
          exact evalCall_refines hev hl h hf

/-- One layer of evaluation is faithful if the layers below are. -/
theorem evalLayer_faithful (hev : Faithful ev tev) (hl : Leaves ev) :
    Faithful (evalLayer ev) (Tree.evalLayer tev) := by
  intro P aside F m x h
  cases x with
  | int _ | bool _ | builtin _ => exact .pure h
  | lambda b p k =>
      refine (Refines.pure h).congr fun _ => ?_
      rw [Machine.view, h.store.view_lambda .root]
      rfl
  | list c =>
      rw [Machine.view, h.store.view_list .root]
      exact evalList_refines hev hl h
  | symbol name =>
      rw [Machine.view, Store.view_symbol]
      simp only [evalLayer, Tree.evalLayer, Act.settle_leaving, Act.get_bind, Tree.World.find?_of]
      cases hf : m.scopes.find? name with
      | none => exact .throw h
      | some v => exact (Makes.clone h (h.visible_binding hf)).refines h
  | quote c =>
      have hx : m.store.Visible ((Node.quote c).cells + F) (.quote c) := .root
      have hq : m.view (.quote c) = .quote (m.view (m.store.payload c)) := h.store.view_quote hx
      have hn : (m.view (m.store.payload c)).needsQuote = (m.store.payload c).needsQuote :=
        h.store.needsQuote_view hx.quote_payload
      rw [hq]
      simp only [evalLayer, Tree.evalLayer, Act.settle_leaving, Act.read_bind, hn]
      split
      · refine (Refines.pure h).congr fun _ => ?_
        rw [hq]
        rfl
      · have h0 := h.keepAll
        exact .mono ((Makes.clone h0 hx.quote_payload).refines h0)

/-- Evaluation with any fuel is faithful to evaluation of trees with the same fuel, and leaves solid
nodes when it fails. -/
theorem evaluate_faithful_leaves (fuel : Nat) :
    Faithful (evaluate fuel) (Tree.evaluate fuel) ∧ Leaves (evaluate fuel) := by
  induction fuel with
  | zero =>
      refine ⟨fun {P aside F m x} h => .throw h, fun aside F m m' x left e h hr => ?_⟩
      cases hr
      exact h.store.solid .root
  | succ fuel ih => exact ⟨evalLayer_faithful ih.1 ih.2, evalLayer_leaves ih.1 ih.2⟩

theorem evaluate_faithful (fuel : Nat) : Faithful (evaluate fuel) (Tree.evaluate fuel) :=
  (evaluate_faithful_leaves fuel).1

theorem evaluate_leaves (fuel : Nat) : Leaves (evaluate fuel) :=
  (evaluate_faithful_leaves fuel).2

theorem eval_refines (fuel : Nat) {X : Multiset Cell} (h : m.Sound P aside X F) {x : Node}
    (hx : m.store.Visible F x) :
    Refines P aside F m (Machine.eval fuel x m) (Tree.evaluate fuel (m.view x) (World.of m)) :=
  Faithful.evalCopy (evaluate_faithful fuel) h hx

theorem evalDatum_refines (fuel : Nat) {X : Multiset Cell} (h : m.Sound P aside X F) (d : Datum) :
    Refines P aside F m (Machine.evalDatum fuel d m) (Tree.evaluate fuel d (World.of m)) := by
  obtain ⟨g, hv⟩ := h.frame.build d
  have h1 := h.grow g
  have k1 := h.kept_of_extends g.ext
  have hw := h.world_eq h1 le_rfl k1.store rfl rfl rfl rfl
  have hr := eval_refines fuel h1.keepAll (x := (m.store.build d).2) .root
  rw [Machine.view, hv, hw] at hr
  exact hr.mono.after k1 rfl

theorem evalText_refines (fuel : Nat) {X : Multiset Cell} (h : m.Sound P aside X F)
    (text : String) :
    Refines P aside F m (Machine.evalText fuel text m)
      ((Tree.ofExcept (Datum.parse text) >>= Tree.evaluate fuel) (World.of m)) :=
  .ofExcept_bind h fun d _ => evalDatum_refines fuel h d

end CellScheme
