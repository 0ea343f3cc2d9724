import CellScheme.Proofs.Lawful.Runs

/-!
What a failed evaluation spends. A call moves to a copy of the bound arguments of its procedure if
others hold them, and these are counted once less then, though the list of the call is still on
them: when the call fails, the node that it leaves is spent. Whatever else fails leaves a node that
is counted like any other, and whose tree has the properties that evaluation keeps.
-/

namespace CellScheme

open CellScheme.Tree (World)

/-- Whether the call of an evaluated list moves to a copy of the bound arguments. -/
def callSpends (st : Store) (c : Nat) : Bool :=
  match st.elements c with
  | .lambda b p _ :: args =>
    decide (¬ st.arity b p < args.length) && decide ((st.appendShared b args).2 ≠ b)
  | _ => false

/-- Whether the elements of a list from position `i` on fail with a spent node, or else the call. -/
def elementsSpend (ev : Evaluator) (spends : Node → Machine → Bool) (c : Nat) :
    Nat → List Node → Machine → Bool
  | _, [], m => callSpends m.store c
  | i, x :: xs, m =>
    match ev x m with
    | .ok v m =>
      elementsSpend ev spends c (i + 1) xs { m with store := m.store.setElement c i v }
    | .error _ _ => spends x m

def layerSpends (ev : Evaluator) (spends : Node → Machine → Bool) (x : Node) (m : Machine) : Bool :=
  match x with
  | .list c =>
    match m.store.elements c with
    | [] => false
    | head :: args =>
      match SpecialForm.ofHead? head with
      | some _ => false
      | none =>
        let (st, c) := m.store.ownSeq c
        elementsSpend ev spends c 0 (head :: args) { m with store := st }
  | _ => false

/-- Whether evaluation in place, where it fails, leaves a spent node. -/
def spends : Nat → Node → Machine → Bool
  | 0, _, _ => false
  | fuel + 1, x, m => layerSpends (evaluate fuel) (spends fuel) x m

variable {V : Datum → Prop} {P : Prop} {m m' : Machine} {aside : Set Cell}
  {D F X N : Multiset Cell} {ev : Evaluator} {tev : Tree.Evaluator} {c : Nat} {form : List Node}
  {x left : Node} {e : Halt}

theorem Machine.Outcome.forget (o : m.Outcome P aside F m' X N) : m.Outcome P aside F m' 0 N :=
  ⟨o.sound.forget, o.scopes, o.kept⟩

theorem Machine.Outcome.take (o : m.Outcome P aside (D + F) m' X N) (hm : m.scopes.cells ≤ F) :
    m.Outcome P aside F m' (X + D) N where
  sound := ⟨o.sound.store.reorder (by abel), o.scopes.trans (add_le_add le_rfl hm), o.sound.plain⟩
  scopes := o.scopes
  kept := o.kept.mono subset_rfl (Multiset.le_add_left _ _)

/-- The machine after a failure, with a root for what is left, of whose tree `V` holds. -/
def Machine.Saves (V : Datum → Prop) (aside : Set Cell) (F : Multiset Cell) (m m' : Machine)
    (left : Node) : Prop :=
  ∃ N, m.Outcome False aside F m' left.cells N ∧ V (m'.view left)

namespace Machine.Saves

theorem refl (h : m.Sound False aside x.cells F) (hx : V (m.view x)) : m.Saves V aside F m x :=
  ⟨0, .refl h, hx⟩

theorem kept (h : m.Sound False aside x.cells F) (hx : V (m.view x))
    (o : m.Outcome False aside (x.cells + F) m' 0 N) : m.Saves V aside F m' x := by
  have taken := o.take h.scopes
  rw [zero_add] at taken
  refine ⟨N, taken, ?_⟩
  rw [h.keepAll.view_eq o.sound (Multiset.le_add_left _ _) o.kept .root]
  exact hx

theorem pack (hV : Lawful V) (hc : .seq c ∉ aside) (form : List Node)
    (sound : m'.Sound False (insert (.seq c) aside) (cellsOf form) (N + F))
    (scopes : m'.scopes.cells ≤ N + m.scopes.cells) (kept : m.Kept aside F m')
    (he : m'.store.elements c = form) (hform : ∀ x ∈ form, V (m'.view x)) :
    m.Saves V aside F m' (.list c) := by
  have store : m'.store.Sound aside ((Node.list c).cells + (N + F)) :=
    Store.Sound.pack (by rw [he]; exact sound.store) hc
  refine ⟨N, ⟨⟨store, sound.scopes, False.elim⟩, scopes, kept⟩, ?_⟩
  rw [Machine.view, store.view_list .root, he]
  exact hV.list.mpr (List.forall_mem_map.mpr hform)

end Machine.Saves

theorem lawful_any : Lawful fun _ => True := by
  constructor <;> simp

theorem Machine.Sound.fit_any {F : Multiset Cell} (h : m.Sound False aside X F) :
    m.Fit (fun _ _ => True) (fun _ => True) m.limit m.depth aside X F :=
  ⟨h, fun _ _ _ _ => trivial, rfl, rfl, fun _ _ => trivial⟩

/-- A procedure that stays on its bound arguments is left with those that have joined them. -/
theorem applyLambda_saves (hV : Lawful V) (hev : Faithful ev tev) {b p k : Nat} {args : List Node}
    (h : m.Sound False aside (Node.lambda b p k).cells F) (ha : ∀ x ∈ args, m.store.Visible F x)
    (hr : applyLambda ev b p k args m = .error e m')
    (hb : ¬ m.store.arity b p < args.length → (m.store.appendShared b args).2 = b)
    (hf : V (m.view (.lambda b p k))) (hargs : ∀ x ∈ args, V (m.view x)) :
    m.Saves V aside F m' (.lambda b p k) := by
  by_cases hm : m.store.arity b p < args.length
  · simp only [applyLambda, Act.read_bind, if_pos hm] at hr
    cases hr
    exact .refl h hf
  have hs := Store.sound_lambda_iff.mp h.store
  have join := hs.mayJoin fun x hx => (ha x hx).mono (Multiset.le_add_left _ _)
  have w := hs.appendShared join
  have joined := h.joined join
  have view := w.view_lambda (hs.forget (Multiset.le_add_left _ _))
  rw [applyLambda_eq ev k hm] at hr
  rw [hb hm] at hr w joined view
  obtain ⟨X, N, o⟩ := callBound_outcome hev joined
  rw [Machine.run, hr] at o
  have value : V ({ m with store := (m.store.appendShared b args).1 }.view (.lambda b p k)) := by
    rw [Machine.view, h.store.view_lambda .root] at hf
    rw [Machine.view, view, Store.viewSeq, List.map_append]
    refine hV.supply hf (List.forall_mem_map.mpr hargs) ?_
    rw [List.length_map, List.length_map]
    rw [Store.arity] at hm
    omega
  obtain ⟨N, o, hx⟩ := Machine.Saves.kept joined value o.forget
  have k : m.Kept aside F { m with store := (m.store.appendShared b args).1 } :=
    .of_same (w.keeps.mono subset_rfl (Multiset.le_add_left _ _)) rfl rfl rfl rfl
  exact ⟨N, ⟨o.sound, o.scopes, k.trans o.kept⟩, hx⟩

theorem callHead_saves (hV : Lawful V) (hev : Faithful ev tev) (hc : .seq c ∉ aside)
    (h : m.Sound False (insert (.seq c) aside) (cellsOf form) F) (he : m.store.elements c = form)
    (hform : ∀ x ∈ form, V (m.view x)) (hr : callHead ev c m = .error (left, e) m')
    (hs : callSpends m.store c = false) : m.Saves V aside F m' left := by
  -- A call of something else leaves the elements as they were.
  have called {N : Multiset Cell} (o : m.Outcome False (insert (.seq c) aside)
      (cellsOf form + F) m' 0 N) : m.Saves V aside F m' (.list c) := by
    have taken := o.take h.scopes
    rw [zero_add] at taken
    refine .pack hV hc form taken.sound o.scopes (taken.kept.mono (Set.subset_insert _ _) le_rfl) ?_
      fun x hx => ?_
    · exact (o.kept.store.aside _ (.inl rfl)).elements_eq.trans he
    · rw [h.keepAll.view_eq o.sound (Multiset.le_add_left _ _) o.kept (.of_mem hx)]
      exact hform x hx
  have idle : m.Saves V aside F m (.list c) :=
    .pack hV hc form (N := 0) (by rw [zero_add]; exact h) (Multiset.le_add_left _ _)
      (.refl _ _ _) he hform
  simp only [callHead, Act.get_bind, he] at hr
  cases form with
  | nil =>
      cases hr
      exact idle
  | cons head args =>
      cases head with
      | lambda b p k =>
          obtain ⟨rfl, hcall⟩ := Act.leaving_eq_error hr
          have hl : m.Sound False (insert (.seq c) aside) (Node.lambda b p k).cells
              (cellsOf args + F) := Machine.Sound.keep (by rw [← cellsOf_cons]; exact h)
          have stays : ¬ m.store.arity b p < args.length →
              (m.store.appendShared b args).2 = b := by
            intro hm
            simpa [callSpends, he, hm] using hs
          obtain ⟨hf, hargs⟩ := List.forall_mem_cons.mp hform
          obtain ⟨N, o, hf'⟩ := applyLambda_saves hV hev hl (fun x hx => .of_mem hx) hcall stays hf
            hargs
          have taken := o.take h.scopes
          refine .pack hV hc (.lambda b p k :: args) ?_ o.scopes
            (taken.kept.mono (Set.subset_insert _ _) le_rfl) ?_ (List.forall_mem_cons.mpr ⟨hf', ?_⟩)
          · rw [cellsOf_cons]
            exact taken.sound
          · exact (o.kept.store.aside _ (.inl rfl)).elements_eq.trans he
          · intro x hx
            rw [hl.view_eq o.sound (Multiset.le_add_left _ _) o.kept (.of_mem hx)]
            exact hargs x hx
      | builtin name =>
          obtain ⟨rfl, hcall⟩ := Act.leaving_eq_error hr
          have hb := callBuiltin_refines hev h.keepAll (fun x hx => .of_mem hx) name
          rw [hcall] at hb
          obtain ⟨N, o, _⟩ := hb
          exact called o
      | int _ | bool _ | symbol _ | quote _ | list _ =>
          cases hr
          exact idle

/-- What a failed evaluation does not spend it leaves as a counted node. -/
def Saving (V : Datum → Prop) (limit : Int) (depth : Nat) (ev : Evaluator)
    (spends : Node → Machine → Bool) : Prop :=
  ∀ ⦃aside : Set Cell⦄ ⦃F : Multiset Cell⦄ ⦃m m' : Machine⦄ ⦃x left : Node⦄ ⦃e : Halt⦄,
    m.Fit (fun _ => V) (fun _ => True) limit depth aside x.cells F → V (m.view x) →
      ev x m = .error (left, e) m' → spends x m = false → m.Saves V aside F m' left

section

variable {fuel : Nat} {limit : Int} {depth : Nat} {sp : Node → Machine → Bool}

/-- Once an element has left `v` in its place, the elements of the list are as good as before. -/
theorem Machine.Outcome.advance_all {v : Node} {done xs : List Node}
    (h : m.Sound P (insert (.seq c) aside) x.cells ((cellsOf done + cellsOf xs) + F))
    (o : m.Outcome P (insert (.seq c) aside) ((cellsOf done + cellsOf xs) + F) m' v.cells N)
    (hm : m.scopes.cells ≤ F) (hc : .seq c ∉ aside) (he : m.store.elements c = done ++ x :: xs)
    (hv : V (m'.view v)) (hdone : ∀ x ∈ done, V (m.view x)) (hxs : ∀ x ∈ xs, V (m.view x)) :
    let m₁ := { m' with store := m'.store.setElement c done.length v }
    (∀ x ∈ done ++ [v], V (m₁.view x)) ∧ ∀ x ∈ xs, V (m₁.view x) := by
  intro m₁
  obtain ⟨_, _, after, before⟩ := o.advance h hm hc he
  refine ⟨List.forall_mem_map.mp ?_, List.forall_mem_map.mp ?_⟩
  · change ∀ d ∈ m₁.store.viewSeq (done ++ [v]), V d
    rw [before]
    exact List.forall_mem_append.mpr
      ⟨List.forall_mem_map.mpr hdone, List.forall_mem_singleton.mpr hv⟩
  · change ∀ d ∈ m₁.store.viewSeq xs, V d
    rw [after]
    exact List.forall_mem_map.mpr hxs

theorem evalElements_saves (hV : Lawful V) (hsave : Saving V limit depth (evaluate fuel) sp)
    (hc : .seq c ∉ aside) {done xs : List Node}
    (h : m.Fit (fun _ => V) (fun _ => True) limit depth (insert (.seq c) aside)
      (cellsOf done + cellsOf xs) F)
    (he : m.store.elements c = done ++ xs) (hdone : ∀ x ∈ done, V (m.view x))
    (hxs : ∀ x ∈ xs, V (m.view x))
    (hr : (evalElements (evaluate fuel) c done.length xs >>=
      fun _ => callHead (evaluate fuel) c) m = .error (left, e) m')
    (hs : elementsSpend (evaluate fuel) sp c done.length xs m = false) :
    m.Saves V aside F m' left := by
  induction xs generalizing m F done with
  | nil =>
      rw [List.append_nil] at he
      rw [cellsOf_nil, add_zero] at h
      exact callHead_saves hV (evaluate_faithful fuel) hc h.sound he hdone hr hs
  | cons x xs ih =>
      obtain ⟨hx, hxs⟩ := List.forall_mem_cons.mp hxs
      have hm : m.Fit (fun _ => V) (fun _ => True) limit depth (insert (.seq c) aside) x.cells
          ((cellsOf done + cellsOf xs) + F) :=
        .keep (h.reorder (by rw [cellsOf_cons]; abel))
      rw [elementsSpend] at hs
      cases hv : evaluate fuel x m with
      | error e₁ m₁ =>
          rw [Act.bind_error (evalElements_error hv)] at hr
          cases hr
          rw [hv] at hs
          obtain ⟨N, o, hleft⟩ := hsave hm hx hv hs
          have solid := o.sound.store.solid (.root (x := e₁.1))
          obtain ⟨_, k, _, _⟩ := o.setElement h.sound.scopes hc done.length solid
          obtain ⟨sound, he₁, _, _⟩ := o.advance hm.sound h.sound.scopes hc he
          obtain ⟨before, after⟩ :=
            o.advance_all hm.sound h.sound.scopes hc he hleft hdone hxs
          refine .pack hV hc ((done ++ [e₁.1]) ++ xs) ?_ o.scopes k he₁
            (List.forall_mem_append.mpr ⟨before, after⟩)
          rw [cellsOf_append]
          exact sound
      | ok v m₁ =>
          obtain ⟨r, hrun, ho, hend⟩ :=
            (Regime.fixed_evaluates hV.law fuel limit depth).mono (fun _ _ => Or.inl) hm hx
          obtain rfl : r = .ok v m₁ := (Filter.eventually_pure.mp hrun).symm.trans hv
          obtain ⟨N, o, _⟩ := ho (.error .starved (World.of m))
          have solid := o.sound.store.solid (.root (x := v))
          obtain ⟨_, k, w, _⟩ := o.setElement h.sound.scopes hc done.length solid
          obtain ⟨sound, he₁, _, _⟩ := o.advance hm.sound h.sound.scopes hc he
          obtain ⟨before, after⟩ :=
            o.advance_all hm.sound h.sound.scopes hc he hend.2 hdone hxs
          have fit := hm.after o hend.1
          have fit : { m₁ with store := m₁.store.setElement c done.length v }.Fit (fun _ => V)
              (fun _ => True) limit depth (insert (Cell.seq c) aside)
              (cellsOf (done ++ [v]) + cellsOf xs) (N + F) :=
            ⟨sound, w.symm ▸ hend.1, fit.limit_eq, fit.depth_eq, fit.natives⟩
          have next : done.length + 1 = (done ++ [v]).length := by
            rw [List.length_append, List.length_singleton]
          have rest : (evalElements (evaluate fuel) c (done ++ [v]).length xs >>=
              fun _ => callHead (evaluate fuel) c)
                { m₁ with store := m₁.store.setElement c done.length v } = .error (left, e) m' := by
            rw [← next, ← hr]
            simp only [bind, EStateM.bind, evalElements_ok hv]
          rw [hv, next] at hs
          obtain ⟨M, o₂, hleft⟩ := ih fit he₁ before after rest hs
          exact ⟨M + N, .trans k o.scopes o₂, hleft⟩

theorem evalList_saves (hV : Lawful V) (hsave : Saving V limit depth (evaluate fuel) sp)
    (h : m.Fit (fun _ => V) (fun _ => True) limit depth aside (Node.list c).cells F)
    (hx : V (m.view (.list c))) (hr : evalList (evaluate fuel) c m = .error (left, e) m')
    (hs : layerSpends (evaluate fuel) sp (.list c) m = false) : m.Saves V aside F m' left := by
  have hl : m.store.Visible ((Node.list c).cells + F) (.list c) := .root
  have hform : ∀ x ∈ m.store.elements c, V (m.view x) := by
    have hx := hx
    rw [Machine.view, h.sound.store.view_list hl] at hx
    exact List.forall_mem_map.mp (hV.list.mp hx)
  simp only [evalList, Act.get_bind] at hr
  simp only [layerSpends] at hs
  cases hf : m.store.elements c with
  | nil =>
      rw [hf] at hr
      cases hr
      exact .refl h.sound hx
  | cons head args =>
      simp only [hf] at hr hs
      cases hspecial : SpecialForm.ofHead? head with
      | some f =>
          simp only [hspecial] at hr
          obtain ⟨rfl, hrun⟩ := Act.leaving_eq_error hr
          obtain ⟨es, he⟩ := traceEvent_apply
            (fun m => .special m.depth (m.store.viewSeq (head :: args))) m
          rw [Act.bind_ok he] at hrun
          have hr := f.run_refines (evaluate_faithful fuel) (h.sound.keepAll.logged es)
            fun x hx => hl.list_element (hf ▸ hx)
          rw [hrun] at hr
          obtain ⟨N, o, _⟩ := hr.after (.logged m aside _ es) rfl
          exact .kept h.sound hx o
      | none =>
          simp only [hspecial] at hr hs
          rw [← hf] at hr hs
          have g := h.sound.store.ownSeq
          have k := h.sound.kept_of_extends g.ext
          have he := h.sound.store.elements_ownSeq
          have fit := h.with_store g.sound k.store
          obtain ⟨sound, hin⟩ := h.sound.owned
          have view : ∀ x ∈ m.store.elements c, (m.store.ownSeq c).1.view x = m.view x := by
            refine fun x hx => g.view_eq h.sound.store (hl.list_element hx) ?_
            exact Store.Visible.list_element (.root (x := .list _)) (he.symm ▸ hx)
          obtain ⟨N, o, hleft⟩ := evalElements_saves hV hsave hin
            ⟨sound, fit.all, fit.limit_eq, fit.depth_eq, fit.natives⟩ he (by simp)
            (fun x hx => by rw [Machine.view, view x hx]; exact hform x hx) hr hs
          exact ⟨N, ⟨o.sound, o.scopes, k.trans o.kept⟩, hleft⟩

theorem evaluate_saving (hV : Lawful V) (fuel : Nat) (limit : Int) (depth : Nat) :
    Saving V limit depth (evaluate fuel) (spends fuel) := by
  induction fuel with
  | zero =>
      intro aside F m m' x left e h hx hr _
      cases hr
      exact .refl h.sound hx
  | succ fuel ih =>
      intro aside F m m' x left e h hx hr hs
      cases x with
      | int _ | bool _ | builtin _ | lambda _ _ _ => cases hr
      | list c => exact evalList_saves hV ih h hx hr hs
      | symbol name =>
          obtain ⟨rfl, hfind⟩ := Act.leaving_eq_error hr
          rw [Act.get_bind] at hfind
          cases hf : m.scopes.find? name with
          | none =>
              simp only [hf] at hfind
              cases hfind
              exact .refl h.sound hx
          | some v =>
              simp only [hf] at hfind
              cases hfind
      | quote c =>
          obtain ⟨_, hr⟩ := Act.leaving_eq_error hr
          simp only [Act.read_bind] at hr
          split at hr <;> cases hr

end

end CellScheme
