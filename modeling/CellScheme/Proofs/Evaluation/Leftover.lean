import CellScheme.Machine.Run
import CellScheme.Proofs.Evaluation.Elements
import CellScheme.Proofs.Evaluation.SpecialForm

/-!
What a failed evaluation leaves in its place. A list that fails half-way keeps the elements that
were evaluated before, and a procedure whose call failed may have been given up there already. Yet
the node that is left is on cells that are there, and not on those set aside, so that it may stand
in the list around it.
-/

namespace CellScheme

open Store (Agree Extends Reach)

variable {m m' : Machine} {aside : Set Cell} {F : Multiset Cell} {ev : Evaluator}
  {tev : Tree.Evaluator} {left : Node} {e : Halt}

/-- When evaluation in place fails, the node that it leaves is solid. -/
def Leaves (ev : Evaluator) : Prop :=
  ∀ ⦃aside : Set Cell⦄ ⦃F : Multiset Cell⦄ ⦃m m' : Machine⦄ ⦃x left : Node⦄ ⦃e : Halt⦄,
    m.Sound False aside x.cells F → ev x m = .error (left, e) m' → m'.store.Solid aside left

theorem Act.leaving_eq_error {α : Type} {x : Node} {a : Act α}
    (h : leaving x a m = .error (left, e) m') : left = x ∧ a m = .error e m' := by
  simp only [leaving, EStateM.adaptExcept] at h
  cases ha : a m with
  | ok v m'' =>
      rw [ha] at h
      cases h
  | error e' m'' =>
      rw [ha] at h
      cases h
      exact ⟨rfl, rfl⟩

theorem Refines.outcome {P : Prop} {a : Act Node} {t : EStateM.Result Halt Tree.World Datum}
    (h : Refines P aside F m (a m) t) : ∃ X N, m.Outcome P aside F (m.run a).2 X N := by
  rw [Machine.run]
  cases hr : a m with
  | ok v m' =>
      rw [hr] at h
      obtain ⟨N, o, _⟩ := h
      exact ⟨v.cells, N, o⟩
  | error e m' =>
      rw [hr] at h
      obtain ⟨N, o, _⟩ := h
      exact ⟨0, N, o⟩

/-- However a call with its arguments bound ends, the lambda is still held. -/
theorem callBound_outcome (hev : Faithful ev tev) {b p k : Nat}
    (h : m.Sound False aside (Node.lambda b p k).cells F) :
    ∃ X N, m.Outcome False aside ((Node.lambda b p k).cells + F)
      (m.run (callBound ev b p k)).2 X N := by
  by_cases har : m.store.arity b p ≠ 0
  · simp only [Machine.run, callBound, Act.get_bind, if_pos har]
    exact ⟨0, 0, .refl h.keepAll⟩
  · exact (callBound_keeps hev h har).outcome

/-- A call with its arguments bound leaves a cell as it is that is counted, also if no root leads to
it any more. -/
theorem callBound_agrees (hev : Faithful ev tev) {b p k : Nat}
    (h : m.Sound False aside (Node.lambda b p k).cells F) {c : Cell}
    (hc : Reach m.store ((Node.lambda b p k).cells + F) c ∨ 0 < m.store.count c) :
    (m.run (callBound ev b p k)).2.store.Allocated c ∧
      Agree m.store (m.run (callBound ev b p k)).2.store c := by
  by_cases hreach : Reach m.store ((Node.lambda b p k).cells + F) c
  · obtain ⟨X, N, o⟩ := callBound_outcome hev h
    have le : (Node.lambda b p k).cells + F ≤ X + (N + ((Node.lambda b p k).cells + F)) :=
      (Multiset.le_add_left _ _).trans (Multiset.le_add_left _ _)
    refine ⟨o.sound.store.allocated ?_, o.kept.store.reach c hreach⟩
    exact (hreach.of_agree o.kept.store.reach).mono (Multiset.subset_of_le le)
  · -- No root leads to the cell, so it can be set aside during the call.
    have h₁ : m.Sound False (insert c aside) (Node.lambda b p k).cells F :=
      ⟨h.store.set_aside (hc.resolve_left hreach) hreach, h.scopes, False.elim⟩
    obtain ⟨X, N, o⟩ := callBound_outcome hev h₁
    exact ⟨o.sound.store.aside_allocated (.inl rfl), o.kept.store.aside c (.inl rfl)⟩

section

variable (hev : Faithful ev tev) {b p k : Nat} {args : List Node}
  (h : m.Sound False aside (Node.lambda b p k).cells F)
  (ha : m.store.MayJoin b (({.names p} + {.node k}) + F) args)
  (hm : ¬ m.store.arity b p < args.length)

include h ha in
theorem Machine.Sound.joined : { m with store := (m.store.appendShared b args).1 }.Sound False aside
    (Node.lambda (m.store.appendShared b args).2 p k).cells F :=
  ⟨Store.sound_lambda_iff.mpr ((Store.sound_lambda_iff.mp h.store).appendShared ha).sound, h.scopes,
    False.elim⟩

include hev h ha hm

/-- A call that is not refused binds the arguments, and leaves the counted cells as they are then.
-/
theorem applyLambda_agrees {c : Cell}
    (hc : Reach (m.store.appendShared b args).1
        ((Node.lambda (m.store.appendShared b args).2 p k).cells + F) c ∨
      0 < (m.store.appendShared b args).1.count c) :
    (m.run (applyLambda ev b p k args)).2.store.Allocated c ∧
      Agree (m.store.appendShared b args).1 (m.run (applyLambda ev b p k args)).2.store c := by
  rw [Machine.run, applyLambda_eq ev k hm]
  exact callBound_agrees hev (h.joined ha) hc

theorem applyLambda_grounded : (m.run (applyLambda ev b p k args)).2.store.Grounded := by
  obtain ⟨X, N, o⟩ := callBound_outcome hev (h.joined ha)
  rw [Machine.run, applyLambda_eq ev k hm]
  exact o.sound.store.grounded

/-- A call that moves to a copy leaves what it is given as it was. -/
theorem applyLambda_moved (hb : (m.store.appendShared b args).2 ≠ b) {c : Cell}
    (hc : Reach m.store ((Node.lambda b p k).cells + F) c) :
    (m.run (applyLambda ev b p k args)).2.store.Allocated c ∧
      Agree m.store (m.run (applyLambda ev b p k args)).2.store c := by
  have hs := Store.sound_lambda_iff.mp h.store
  have agree := (hs.extends_appendShared hb).agree c (h.store.allocated hc)
  rw [Store.lambda_cells_add] at hc
  have after := applyLambda_agrees hev h ha hm (c := c) <| by
    rw [Store.lambda_cells_add]
    rcases hs.reach_appendShared ha hc with rfl | hc
    · exact .inr (hs.count_appendShared ha hb)
    · exact .inl hc
  exact ⟨after.1, agree.trans after.2⟩

end

theorem applyLambda_solid (hev : Faithful ev tev) {b p k : Nat}
    (h : m.Sound False aside (Node.lambda b p k).cells F) {args : List Node}
    (ha : ∀ x ∈ args, m.store.Visible F x) (hr : applyLambda ev b p k args m = .error e m') :
    m'.store.Solid aside (.lambda b p k) := by
  by_cases hm : m.store.arity b p < args.length
  · simp only [applyLambda, Act.read_bind, if_pos hm] at hr
    cases hr
    exact h.store.solid .root
  have hs := Store.sound_lambda_iff.mp h.store
  have join := hs.mayJoin fun x hx => (ha x hx).mono (Multiset.le_add_left _ _)
  obtain rfl : (m.run (applyLambda ev b p k args)).2 = m' := by rw [Machine.run, hr]
  by_cases hb : (m.store.appendShared b args).2 = b
  · have w := Store.sound_lambda_iff.mpr (hs.appendShared join).sound
    rw [hb] at w
    refine (w.solid .root).of_agree (.root (R := F)) fun c hc => ?_
    exact applyLambda_agrees hev h join hm (.inl (by rw [hb]; exact hc))
  · exact (h.store.solid .root).of_agree (.root (R := F)) fun c hc =>
      applyLambda_moved hev h join hm hb hc

theorem Store.Solid.of_aside {st : Store} {c : Nat} {form : List Node} (hc : .seq c ∉ aside)
    (halloc : st.Allocated (.seq c)) (he : st.elements c = form)
    (h : ∀ x ∈ form, st.Solid (insert (.seq c) aside) x) : st.Solid aside (.list c) := by
  refine .list halloc hc fun x hx => ?_
  rw [he] at hx
  exact (h x hx).mono (Set.subset_insert _ _)

theorem callHead_solid (hev : Faithful ev tev) {c : Nat} (hc : .seq c ∉ aside) {form : List Node}
    (h : m.Sound False (insert (.seq c) aside) (cellsOf form) F) (he : m.store.elements c = form)
    (hr : callHead ev c m = .error (left, e) m') : m'.store.Solid aside left := by
  have idle : m.store.Solid aside (.list c) :=
    .of_aside hc (h.store.aside_allocated (.inl rfl)) he fun x hx => h.store.solid (.of_mem hx)
  -- After a call the list still holds the form, which the frame has kept.
  have called {N : Multiset Cell} {D : Multiset Cell}
      (o : m.Outcome False (insert (.seq c) aside) (D + F) m' 0 N)
      (hform : ∀ x ∈ form, m'.store.Solid (insert (.seq c) aside) x) :
      m'.store.Solid aside (.list c) := by
    have agree := o.kept.store.aside _ (.inl rfl)
    exact .of_aside hc (o.sound.store.aside_allocated (.inl rfl))
      (agree.elements_eq.trans he) hform
  simp only [callHead, Act.get_bind, he] at hr
  cases form with
  | nil =>
      cases hr
      exact idle
  | cons head args =>
      cases head with
      | lambda b p k =>
          obtain ⟨rfl, hcall⟩ := Act.leaving_eq_error hr
          have hs : m.Sound False (insert (.seq c) aside) (Node.lambda b p k).cells
              (cellsOf args + F) := Machine.Sound.keep (by rw [← cellsOf_cons]; exact h)
          have ha : ∀ x ∈ args, m.store.Visible (cellsOf args + F) x := fun x hx => .of_mem hx
          have hl := applyLambda_refines hev hs ha
          rw [hcall] at hl
          obtain ⟨N, o, _⟩ := hl
          refine called o (List.forall_mem_cons.mpr ⟨applyLambda_solid hev hs ha hcall, ?_⟩)
          exact fun x hx => o.solid (ha x hx)
      | builtin name =>
          obtain ⟨rfl, hcall⟩ := Act.leaving_eq_error hr
          have hv : ∀ x ∈ Node.builtin name :: args,
              m.store.Visible (cellsOf (.builtin name :: args) + F) x := fun x hx => .of_mem hx
          have hb := callBuiltin_refines hev h.keepAll hv name
          rw [hcall] at hb
          obtain ⟨N, o, _⟩ := hb
          exact called o fun x hx => o.solid (hv x hx)
      | int _ | bool _ | symbol _ | quote _ | list _ =>
          cases hr
          exact idle

theorem Machine.Outcome.solid_setElement {N : Multiset Cell} {c : Nat} (hc : .seq c ∉ aside)
    {x : Node} {done xs : List Node}
    (o : m.Outcome False (insert (.seq c) aside) ((cellsOf done + cellsOf xs) + F) m' 0 N)
    (he : m.store.elements c = done ++ x :: xs)
    (hl : m'.store.Solid (insert (.seq c) aside) left) :
    (m'.store.setElement c done.length left).Solid aside (.list c) := by
  have halloc := o.sound.store.aside_allocated (k := .seq c) (.inl rfl)
  have edits := Store.edits_editSeq m'.store c (·.set done.length left)
  have others : ∀ z ∈ done ++ xs, m'.store.Solid (insert (.seq c) aside) z := by
    intro z hz
    refine o.solid ?_
    rw [← cellsOf_append]
    exact .of_mem hz
  refine .of_aside hc ((edits.allocated _).mpr halloc) (o.elements_setElement he left)
    fun y hy j hj => Store.SolidCell.edit edits (.inl rfl) ?_
  rcases List.mem_append.mp hy with hy | hy
  · exact others y (List.mem_append_left _ hy) j hj
  · rcases List.mem_cons.mp hy with rfl | hy
    · exact hl j hj
    · exact others y (List.mem_append_right _ hy) j hj

theorem evalElements_solid (hev : Faithful ev tev) (hl : Leaves ev) {c : Nat}
    (hc : .seq c ∉ aside) {done xs : List Node}
    (h : m.Sound False (insert (.seq c) aside) (cellsOf done + cellsOf xs) F)
    (he : m.store.elements c = done ++ xs)
    (hr : (evalElements ev c done.length xs >>= fun _ => callHead ev c) m = .error (left, e) m') :
    m'.store.Solid aside left := by
  induction xs generalizing m F done with
  | nil =>
      rw [List.append_nil] at he
      rw [cellsOf_nil, add_zero] at h
      exact callHead_solid hev hc h he hr
  | cons x xs ih =>
      have hs : m.Sound False (insert (.seq c) aside) x.cells
          ((cellsOf done + cellsOf xs) + F) := by
        refine Machine.Sound.keep ⟨h.store.reorder ?_, h.scopes, h.plain⟩
        rw [cellsOf_cons]
        abel
      have hx := hev hs
      cases hv : ev x m with
      | error e₁ m₁ =>
          rw [Act.bind_error (evalElements_error hv)] at hr
          cases hr
          rw [Act.settle_error hv] at hx
          obtain ⟨N, o, _⟩ := hx
          exact o.solid_setElement hc he (hl hs hv)
      | ok v m₁ =>
          rw [Act.settle_ok hv] at hx
          obtain ⟨N, o, _⟩ := hx
          obtain ⟨h₂, he₂, _, _⟩ := o.advance hs h.scopes hc he
          refine ih h₂ he₂ ?_
          rw [List.length_append, List.length_singleton, ← hr]
          simp only [bind, EStateM.bind, evalElements_ok hv]

theorem evalList_solid (hev : Faithful ev tev) (hl : Leaves ev) {c : Nat}
    (h : m.Sound False aside {.seq c} F) (hr : evalList ev c m = .error (left, e) m') :
    m'.store.Solid aside left := by
  have hv : ∀ x ∈ m.store.elements c, m.store.Visible ({.seq c} + F) x :=
    fun x hx => Store.Visible.list_element (.root (x := .list c)) hx
  simp only [evalList, Act.get_bind] at hr
  cases hf : m.store.elements c with
  | nil =>
      rw [hf] at hr
      cases hr
      exact h.store.solid (.root (x := .list c))
  | cons head args =>
      simp only [hf] at hr
      cases hform : SpecialForm.ofHead? head with
      | some f =>
          simp only [hform] at hr
          obtain ⟨rfl, hform⟩ := Act.leaving_eq_error hr
          obtain ⟨es, he⟩ := traceEvent_apply
            (fun m => .special m.depth (m.store.viewSeq (head :: args))) m
          rw [Act.bind_ok he] at hform
          have hrun := f.run_refines hev (h.keepAll.logged es) (hf ▸ hv)
          rw [hform] at hrun
          obtain ⟨N, o, _⟩ := hrun
          exact o.solid (.root (x := .list c))
      | none =>
          simp only [hform] at hr
          obtain ⟨h₂, hin⟩ := h.owned
          refine evalElements_solid hev hl hin h₂ h.store.elements_ownSeq (e := e) ?_
          rw [hf]
          exact hr

theorem evalLayer_leaves (hev : Faithful ev tev) (hl : Leaves ev) : Leaves (evalLayer ev) := by
  intro aside F m m' x left e h hr
  cases x with
  | int _ | bool _ | builtin _ | lambda _ _ _ => cases hr
  | list c => exact evalList_solid hev hl h hr
  | symbol name =>
      obtain ⟨rfl, _⟩ := Act.leaving_eq_error hr
      exact fun k hk => absurd hk (Multiset.notMem_zero k)
  | quote c =>
      obtain ⟨_, hr⟩ := Act.leaving_eq_error hr
      simp only [Act.read_bind] at hr
      split at hr <;> cases hr

end CellScheme
