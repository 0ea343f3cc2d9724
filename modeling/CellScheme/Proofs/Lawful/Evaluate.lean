import CellScheme.Proofs.Evaluation.Calling
import CellScheme.Proofs.Lawful.Forms

/-!
Calls, lists and one layer of evaluation lead to values. What is evaluated below a layer is smaller,
or it is the body of a procedure, which runs one frame deeper, or it is handed to a builtin.
-/

namespace CellScheme

open CellScheme.Tree (World)

variable {R : Regime} {limit : Int} {depth : Nat} {m : Machine} {aside : Set Cell}
  {X F : Multiset Cell} {Q : List Name → Datum → Prop} {call : Evaluator → Caller}

theorem withFrame_leads {f : Frame} {a : Evaluator → Act Node}
    (h : m.Fit R.value R.native limit depth aside f.cells F)
    (hf : ∀ d ∈ (Tree.frameOf m.store f).values, R.value m.defined d)
    (run : (m.push f).1.Fit R.value R.native limit (depth + 1) aside 0 (f.cells + F) →
      R.Leads aside (f.cells + F) (m.push f).1 a Q) :
    R.Leads aside F m (fun ev => withFrame f (a ev)) Q := by
  have hp : (m.push f).1.Fit R.value R.native limit (depth + 1) aside 0 (f.cells + F) := by
    refine ⟨⟨h.sound.store.reorder (zero_add _).symm, ?_, False.elim⟩, h.all.push hf,
      h.limit_eq, ?_, h.natives⟩
    · exact (Scopes.cells_push m.scopes f).trans_le (add_le_add le_rfl h.sound.scopes)
    · exact congrArg (· + 1) h.depth_eq
  obtain ⟨r, hr, ho, he⟩ := run hp
  cases r with
  | ok v m' =>
      obtain ⟨N, o, _⟩ := ho (.error .starved (World.of m))
      obtain ⟨o2, w2, v2⟩ := o.popped
      refine ⟨.ok v (m'.truncate m.scopes.depth), hr.mono fun ev hev => withFrame_ok hev,
        fun t => ⟨N, o2, False.elim⟩, ?_, ?_⟩
      · rw [w2]
        exact he.1.pop
      · rw [v2 v le_rfl]
        exact he.2
  | error e m' =>
      obtain ⟨N, o, _⟩ := ho (.error .starved (World.of m))
      obtain ⟨o2, w2, _⟩ := o.popped
      refine ⟨.error e (m'.truncate m.scopes.depth), hr.mono fun ev hev => withFrame_error hev,
        fun t => ⟨N, o2, False.elim⟩, ?_, he.2⟩
      rw [w2]
      exact he.1.pop

/-- Where calls are allowed, bodies are evaluated one frame deeper. -/
def Regime.RunsBodies (R : Regime) (limit : Int) (depth : Nat) : Prop :=
  ¬ (0 < limit ∧ limit < depth) →
    R.Evaluates limit (depth + 1) (fun ns d => R.expr ns d ∨ d.NativeCall) fun _ => R.value

theorem callBound_leads (hbody : R.RunsBodies limit depth) {b p k : Nat}
    (h : m.Fit R.value R.native limit depth aside (Node.lambda b p k).cells F)
    (hval : R.expr m.defined (m.view (.lambda b p k))) :
    R.Leads aside F m (fun ev => callBound ev b p k) R.value := by
  have hl : m.store.Visible ((Node.lambda b p k).cells + F) (.lambda b p k) := .root
  have hview : m.view (.lambda b p k) = .lambda (m.store.viewSeq (m.store.elements b))
      (m.store.params p) (m.view (m.store.payload k)) := h.sound.store.view_lambda hl
  by_cases har : m.store.arity b p ≠ 0
  · refine .congr (.pure h (R.law.own hval (by rw [hview]; rfl))) fun _ => ?_
    simp only [callBound, Act.get_bind, if_pos har]
  by_cases hdeep : 0 < m.limit ∧ m.limit < m.depth
  · refine .congr (.fail h (.runtime (.tooDeep m.limit)) trivial) fun _ => ?_
    simp only [callBound, Act.get_bind, if_neg har, if_pos hdeep]
  -- From here on the cells of the lambda are part of the frame.
  have h0 := h.keepAll
  have g := h0.sound.frame.shareAll fun x hx => hl.lambda_bound hx
  have k1 := h0.sound.kept_of_extends g.ext
  have h1 := h0.with_store g.sound k1.store
  have hp : (m.store.shareAll (m.store.elements b)).payload k = m.store.payload k :=
    (g.ext.agree (.node k) (h0.sound.frame.allocated (hl _ (by simp [Node.cells])))).payload_eq
  have hv := h0.sound.view_eq h1.sound le_rfl k1 hl.lambda_body
  have hvs := k1.store.viewSeq_eq h0.sound.frame h1.sound.frame le_rfl
    fun x hx => hl.lambda_bound hx
  obtain ⟨es, he⟩ := traceEvent_apply
    (fun m' => .applied m'.depth (m.store.params p) (m'.store.viewSeq (m.store.elements b)))
    { m with store := m.store.shareAll (m.store.elements b) }
  have h2 : { m with store := m.store.shareAll (m.store.elements b), events := es }.Fit R.value
      R.native limit depth aside (bindParams (m.store.params p) (m.store.elements b)).cells
      ((Node.lambda b p k).cells + F) := by
    have hs := (h1.logged es).sound
    exact ⟨⟨hs.store.forget (add_le_add (cells_bindParams_le _ _) le_rfl), hs.scopes, hs.plain⟩,
      (h1.logged es).all, h1.limit_eq, h1.depth_eq, h1.natives⟩
  rw [hview] at hval
  have hfree : ¬ (0 < limit ∧ limit < depth) := by
    rw [← h.limit_eq, ← h.depth_eq]
    exact hdeep
  have hrun : R.Leads aside ((Node.lambda b p k).cells + F)
      { m with store := m.store.shareAll (m.store.elements b), events := es }
      (fun ev => withFrame (bindParams (m.store.params p) (m.store.elements b))
        (Act.read (·.store) >>= fun st => Act.evalCopy ev (st.payload k))) R.value := by
    refine withFrame_leads h2 (fun d hd => ?_) fun h3 => ?_
    · rw [Tree.frameOf_bindParams] at hd
      have hd' := Tree.mem_bindParams hd
      exact R.law.bound hval d (hvs ▸ hd')
    · have hvis := (k1.store.visible hl.lambda_body).mono
        (Multiset.le_add_left _ (bindParams (m.store.params p) (m.store.elements b)).cells)
      refine .congr ((hbody hfree).copy h3 hvis ?_) fun ev => ?_
      · exact hv.symm ▸ R.law.body hval
      · rw [Act.read_bind]
        simp only [Machine.push, hp]
  refine .mono (hrun.after (k1.trans (.logged _ _ _ es)) rfl fun ev => ?_)
  simp only [callBound, Act.get_bind, if_neg har, if_neg hdeep,
    if_neg (Store.not_lt_of_arity har), Act.store_bind]
  rw [Act.bind_ok he]

theorem applyLambda_leads (hbody : R.RunsBodies limit depth) {b p k : Nat}
    (h : m.Fit R.value R.native limit depth aside (Node.lambda b p k).cells F) {args : List Node}
    (ha : ∀ x ∈ args, m.store.Visible F x) (hval : R.expr m.defined (m.view (.lambda b p k)))
    (hargs : ∀ x ∈ args, R.value m.defined (m.view x)) :
    R.Leads aside F m (fun ev => applyLambda ev b p k args) R.value := by
  by_cases hlt : m.store.arity b p < args.length
  · refine .congr (.fail h (.runtime (.tooManyArguments (m.store.arity b p) args.length)) trivial)
      fun _ => ?_
    simp only [applyLambda, Act.read_bind, if_pos hlt]
  have hs : m.store.Sound aside ({.seq b} + (({.names p} + {.node k}) + F)) :=
    Store.sound_lambda_iff.mp h.sound.store
  have w := hs.appendShared (hs.mayJoin fun x hx => (ha x hx).mono (Multiset.le_add_left _ _))
  have hb (ev : Evaluator) := applyLambda_eq ev k hlt
  generalize (m.store.appendShared b args).1 = st at *
  generalize (m.store.appendShared b args).2 = b' at *
  have kF := w.keeps.mono subset_rfl (Multiset.le_add_left F ({.names p} + {.node k}))
  have h1 : { m with store := st }.Fit R.value R.native limit depth aside
      (Node.lambda b' p k).cells F :=
    h.with_store (Store.sound_lambda_iff.mpr w.sound) kF
  have k1 : m.Kept aside F { m with store := st } := .of_same kF rfl rfl rfl rfl
  suffices hval' : R.expr m.defined ({ m with store := st }.view (.lambda b' p k)) from
    (callBound_leads hbody h1 hval').after k1 rfl hb
  -- The tree of the lambda has the arguments behind those bound before.
  have hview : st.view (.lambda b' p k) = .lambda (m.store.viewSeq (m.store.elements b) ++
      m.store.viewSeq args) (m.store.params p) (m.store.view (m.store.payload k)) := by
    rw [w.view_lambda (hs.forget (Multiset.le_add_left _ _)), Store.viewSeq, List.map_append]
    rfl
  rw [Machine.view, hview]
  rw [Machine.view, h.sound.store.view_lambda .root] at hval
  refine R.law.supply hval (fun d hd => ?_) ?_
  · obtain ⟨x, hx, rfl⟩ := List.mem_map.mp hd
    exact hargs x hx
  · rw [Store.length_viewSeq, Store.length_viewSeq]
    rw [Store.arity] at hlt
    omega

/-- A builtin that is called in this way, with arguments that are values, gives a value. -/
def Regime.Calls (R : Regime) (limit : Int) (depth : Nat) (call : Evaluator → Caller)
    (name : Name) : Prop :=
  ∀ ⦃aside : Set Cell⦄ ⦃F : Multiset Cell⦄ ⦃m : Machine⦄ ⦃form : List Node⦄,
    m.Fit R.value R.native limit depth aside 0 F → (∀ x ∈ form, m.store.Visible F x) →
      (∀ x ∈ form.tail, R.value m.defined (m.view x)) →
        R.Leads aside F m (fun ev => call ev name form) R.value

theorem calls_builtin (hany : R.Evaluates limit depth R.expr fun _ => R.value) (name : Name) :
    R.Calls limit depth callBuiltin name :=
  fun _ _ _ _ h hv hval => callBuiltin_leads hany h hv hval name

theorem callHeadBy_leads (hbody : R.RunsBodies limit depth) {c : Nat} {form : List Node}
    (h : m.Fit R.value R.native limit depth aside (cellsOf form) F) (he : m.store.elements c = form)
    (hcall : ∀ name, form.head? = some (.builtin name) → R.Calls limit depth call name)
    (hhead : ∀ x, form.head? = some x → R.expr m.defined (m.view x) ∨ ∃ name, x = .builtin name)
    (hargs : ∀ x ∈ form.tail, R.value m.defined (m.view x)) :
    R.LeadsIn aside F m (fun ev => callHeadBy (call ev) ev c) R.value := by
  cases form with
  | nil =>
      refine .congr (.leaving
        (.fail h (.runtime (.notProcedure (m.view default) [])) trivial) (.list c)) fun _ => ?_
      simp only [callHeadBy, Act.get_bind, he]
      rfl
  | cons head args =>
      have hs : m.Fit R.value R.native limit depth aside head.cells (cellsOf args + F) :=
        .keep (h.reorder (cellsOf_cons head args))
      have other : R.LeadsIn aside F m (fun _ => Act.leaving (.list c) (Act.fail
          (.runtime (.notProcedure (m.view head) (m.store.viewSeq (head :: args)))))) R.value :=
        .leaving (.fail h _ (by trivial)) (.list c)
      cases head with
      | lambda b p k =>
          have hval : R.expr m.defined (m.view (.lambda b p k)) :=
            (hhead _ rfl).resolve_right (by simp)
          refine .mono (.congr (.leaving (applyLambda_leads hbody hs (fun x hx => .of_mem hx) hval
            hargs) (.list c)) fun _ => ?_)
          simp only [callHeadBy, Act.get_bind, he]
      | builtin name =>
          refine .mono (.congr (.leaving (hcall name rfl h.keepAll
            (fun x hx => .of_mem hx) hargs) (.list c)) fun _ => ?_)
          simp only [callHeadBy, Act.get_bind, he]
      | int _ | bool _ | symbol _ | quote _ | list _ =>
          refine other.congr fun _ => ?_
          simp only [callHeadBy, Act.get_bind, he]
          rfl

theorem forall_of_forall₂ {α β : Type} {p : β → Prop} {xs : List α} {ys : List β}
    (h : List.Forall₂ (fun _ y => p y) xs ys) : ∀ y ∈ ys, p y := by
  induction h with
  | nil => simp
  | cons hy _ ih => exact List.forall_mem_cons.mpr ⟨hy, ih⟩

/-- The elements before `xs` have been evaluated; the others follow, and then what is
done with the list. -/
theorem evalElements_leads {next : Evaluator → PlaceAct Node} {D : List Name → Datum → Prop}
    {Q : Datum → List Name → Datum → Prop}
    (hev : R.Evaluates limit depth D Q) (hD : Growing D) (hQ : ∀ e, Growing (Q e)) {c : Nat}
    (hc : Cell.seq c ∉ aside) {done xs : List Node} {es : List Datum}
    (h : m.Fit R.value R.native limit depth (insert (.seq c) aside) (cellsOf done + cellsOf xs) F)
    (he : m.store.elements c = done ++ xs) (hxs : ∀ x ∈ xs, D m.defined (m.view x))
    (hdone : List.Forall₂ (Q · m.defined) es (m.store.viewSeq done))
    (hnext : ∀ (m' : Machine) (F' : Multiset Cell) (vs : List Node),
      m'.Fit R.value R.native limit depth (insert (.seq c) aside) (cellsOf vs) F' →
      m'.store.elements c = vs →
      List.Forall₂ (Q · m'.defined) (es ++ m.store.viewSeq xs) (m'.store.viewSeq vs) →
      R.LeadsIn (insert (.seq c) aside) F' m' next R.value) :
    R.LeadsIn aside F m
      (fun ev => evalElements ev c done.length xs >>= fun _ => next ev) R.value := by
  -- The list under evaluation stays aside all the way, so that each element may be overwritten.
  induction xs generalizing m F done es with
  | nil =>
      have hr := hnext m F done (h.reorder (by simp)) (by simpa using he) (by
        rw [Store.viewSeq, List.map_nil, List.append_nil]
        exact hdone)
      exact .congr (hr.set_less_aside (Set.subset_insert _ _)) fun _ => rfl
  | cons x xs ih =>
      -- While an element is evaluated, the others belong to the frame.
      have hs : m.Fit R.value R.native limit depth (insert (.seq c) aside) x.cells
          ((cellsOf done + cellsOf xs) + F) :=
        .keep (h.reorder (by rw [cellsOf_cons]; abel))
      obtain ⟨r, hr, ho, hend⟩ := hev hs (hxs x (by simp))
      cases r with
      | error e m' =>
          obtain ⟨N, o, _⟩ := ho (.error .starved (World.of m))
          obtain ⟨_, hl, hleft⟩ := (R.leaves.and_eventually hr).exists
          obtain ⟨h2, k2, w2, _⟩ := o.setElement h.sound.scopes hc done.length (hl hs.sound hleft)
          have h3 := h2.forget.set_less_aside (Set.subset_insert (Cell.seq c) aside)
          refine ⟨.error (.list c, e.2) { m' with store := m'.store.setElement c done.length e.1 },
            hr.mono fun ev hev => Act.bind_error (evalElements_error hev),
            fun t => ⟨N, ⟨h3, o.scopes, k2⟩, False.elim⟩, ?_, hend.2⟩
          rw [w2]
          exact hend.1
      | ok v m' =>
          obtain ⟨N, o, _⟩ := ho (.error .starved (World.of m))
          obtain ⟨_, k2, w2, _⟩ := o.setElement h.sound.scopes hc done.length
            (o.sound.store.solid (.root (x := v)))
          obtain ⟨h2, he2, hxs2, hdone2⟩ := o.advance hs.sound h.sound.scopes hc he
          have hafter := hs.after o hend.1
          have h3 : { m' with store := m'.store.setElement c done.length v }.Fit R.value R.native
              limit depth (insert (Cell.seq c) aside) (cellsOf (done ++ [v]) + cellsOf xs)
              (N + F) :=
            ⟨h2, w2.symm ▸ hend.1, hafter.limit_eq, hafter.depth_eq, hafter.natives⟩
          have hsub := o.kept.scopes.listed.subset
          have hdone₂ : List.Forall₂ (Q · m'.defined) (es ++ [m.view x])
              ((m'.store.setElement c done.length v).viewSeq (done ++ [v])) := by
            rw [hdone2]
            exact List.rel_append (hdone.imp fun e d hd => hQ e hsub hd) (.cons hend.2 .nil)
          have hrest : R.LeadsIn aside (N + F)
              { m' with store := m'.store.setElement c done.length v }
              (fun ev => evalElements ev c (done ++ [v]).length xs >>= fun _ => next ev)
              R.value := by
            refine ih h3 he2 (fun z hz => ?_) hdone₂ fun m'' F'' vs hfit hel hq => ?_
            · rw [Machine.view, List.map_inj_left.mp hxs2 z hz]
              exact hD hsub (hxs z (by simp [hz]))
            · refine hnext m'' F'' vs hfit hel ?_
              rw [hxs2, List.append_assoc] at hq
              exact hq
          obtain ⟨r', hr', ho', hend'⟩ := hrest
          refine ⟨r', ?_, fun t => (ho' t).trans k2 o.scopes, hend'⟩
          filter_upwards [hr, hr'] with ev e e'
          rw [← e', List.length_append, List.length_singleton]
          simp only [bind, EStateM.bind, evalElements_ok e]

/-- A list that is no special form: its elements are evaluated in a copy of its own. -/
theorem evalCall_leads (next : Evaluator → Nat → PlaceAct Node) {D : List Name → Datum → Prop}
    {Q : Datum → List Name → Datum → Prop}
    (hev : R.Evaluates limit depth D Q) (hD : Growing D) (hQ : ∀ e, Growing (Q e)) {c : Nat}
    (h : m.Fit R.value R.native limit depth aside {.seq c} F)
    (hxs : ∀ x ∈ m.store.elements c, D m.defined (m.view x))
    (hnext : ∀ (c' : Nat) (m' : Machine) (F' : Multiset Cell) (vs : List Node),
      m'.Fit R.value R.native limit depth (insert (.seq c') aside) (cellsOf vs) F' →
      m'.store.elements c' = vs →
      List.Forall₂ (Q · m'.defined) (m.store.viewSeq (m.store.elements c))
        (m'.store.viewSeq vs) →
      R.LeadsIn (insert (.seq c') aside) F' m' (fun ev => next ev c') R.value) :
    R.LeadsIn aside F m (fun ev => do
      let c' ← Act.leaving (.list c) (Act.storeGet (·.ownSeq c))
      evalElements ev c' 0 (m.store.elements c)
      next ev c') R.value := by
  have g := h.sound.store.ownSeq
  have k1 := h.sound.kept_of_extends g.ext
  have h1 := h.with_store g.sound k1.store
  have he := h.sound.store.elements_ownSeq
  obtain ⟨hown, hin⟩ := h.sound.owned
  have h2 : { m with store := (m.store.ownSeq c).1 }.Fit R.value R.native limit depth
      (insert (Cell.seq (m.store.ownSeq c).2) aside)
      (cellsOf [] + cellsOf (m.store.elements c)) F :=
    ⟨hown, h1.all, h1.limit_eq, h1.depth_eq, h1.natives⟩
  have hv : ∀ x ∈ m.store.elements c, (m.store.ownSeq c).1.view x = m.view x := by
    refine fun x hx => g.view_eq h.sound.store ?_ ?_
    · exact Store.Visible.list_element (.root (x := .list c)) hx
    · exact Store.Visible.list_element (.root (x := .list _)) (he.symm ▸ hx)
  refine .after k1 rfl (evalElements_leads hev hD hQ hin h2 he (fun x hx => ?_) .nil
    fun m' F' vs hfit hel hq => hnext _ m' F' vs hfit hel ?_) fun _ => rfl
  · rw [Machine.view, hv x hx]
    exact hxs x hx
  · have hseq : (m.store.ownSeq c).1.viewSeq (m.store.elements c) =
        m.store.viewSeq (m.store.elements c) := List.map_congr_left hv
    rw [List.nil_append, hseq] at hq
    exact hq

theorem evalLayer_symbol_leads (name : Name)
    (h : m.Fit R.value R.native limit depth aside (Node.symbol name).cells F) :
    R.LeadsIn aside F m (fun ev => evalLayer ev (.symbol name)) R.value := by
  refine .leaving ?_ (.symbol name)
  cases hf : m.scopes.find? name with
  | none =>
      refine .congr (.fail h (.runtime (.undefined name)) trivial) fun _ => ?_
      simp only [Act.get_bind, hf]
  | some v =>
      have hw : (World.of m).find? name = some (m.view v) := by
        rw [World.find?_of, hf]
        rfl
      have hv : R.value m.defined (m.view v) := h.all.find? hw
      refine .makes h (fun _ => ?_) (Makes.clone h.sound (h.sound.visible_binding hf)) hv
      simp only [Act.get_bind, hf]

/-- One layer of evaluation of an expression, if smaller expressions are evaluated below it, and
bodies one frame deeper. Builtins are called only if they are values. -/
theorem evalLayerBy_leads {x : Node} (h : m.Fit R.value R.native limit depth aside x.cells F)
    (hval : R.expr m.defined (m.view x))
    (hsub : R.Evaluates limit depth (R.Below (sizeOf (m.view x))) fun _ => R.value)
    (hbody : R.RunsBodies limit depth)
    (hcall : ∀ name, (∃ ns, R.value ns (.builtin name)) → R.Calls limit depth call name) :
    R.LeadsIn aside F m (fun ev => evalLayerBy (call ev) ev x) R.value := by
  have hkind := h.sound.store.needsQuote_view (x := x) .root
  cases x with
  | int _ | bool _ | builtin _ | lambda _ _ _ =>
      exact .congr (.leaving (.pure h (R.law.own hval hkind)) default) fun _ => rfl
  | symbol name => exact evalLayer_symbol_leads name h
  | quote c =>
      have hx : m.store.Visible ((Node.quote c).cells + F) (.quote c) := .root
      have hq : m.view (.quote c) = .quote (m.view (m.store.payload c)) :=
        h.sound.store.view_quote hx
      have hpayload : R.expr m.defined (m.view (m.store.payload c)) := R.law.quote.mp (hq ▸ hval)
      have hneeds := h.sound.store.needsQuote_view hx.quote_payload
      refine .leaving ?_ (.quote c)
      by_cases hn : (m.store.payload c).needsQuote = true
      · refine .congr (.pure h (hq ▸ R.law.quoted hpayload (hneeds.trans hn))) fun _ => ?_
        simp only [Act.read_bind, if_pos hn]
      · have hvalue := R.law.own hpayload (hneeds.trans (Bool.eq_false_of_not_eq_true hn))
        refine .mono (.makes h.keepAll (fun _ => ?_)
          (Makes.clone h.keepAll.sound hx.quote_payload) hvalue)
        simp only [Act.read_bind, if_neg hn]
  | list c =>
      have hl : m.store.Visible ((Node.list c).cells + F) (.list c) := .root
      have hview : m.view (.list c) = .list (m.store.viewSeq (m.store.elements c)) :=
        h.sound.store.view_list hl
      have hs : ∀ x ∈ m.store.elements c,
          R.Below (sizeOf (m.view (.list c))) m.defined (m.view x) := by
        intro x hx
        have hmem : m.view x ∈ m.store.viewSeq (m.store.elements c) := List.mem_map_of_mem hx
        rw [hview] at hval ⊢
        refine ⟨R.law.list.mp hval _ hmem, ?_⟩
        have hlt := List.sizeOf_lt_of_mem hmem
        rw [Datum.list.sizeOf_spec]
        omega
      cases hf : m.store.elements c with
      | nil =>
          refine .congr (.leaving (.fail h (.runtime .missingProcedure) trivial) (.list c))
            fun _ => ?_
          simp only [evalLayerBy, evalListBy, Act.get_bind, hf]
          rfl
      | cons head args =>
          cases hform : SpecialForm.ofHead? head with
          | some f =>
              obtain ⟨es, he⟩ := traceEvent_apply
                (fun m => .special m.depth (m.store.viewSeq (head :: args))) m
              have hrun : R.Leads aside ((Node.list c).cells + F) m (fun ev => do
                  traceEvent fun m => .special m.depth (m.store.viewSeq (head :: args))
                  f.run ev (head :: args)) R.value := by
                refine .after (.logged m aside _ es) rfl (f.run_leads hsub (h.keepAll.logged es)
                  (fun x hx => hl.list_element (hf ▸ hx)) fun x hx => hs x (hf ▸ hx)) fun _ => ?_
                rw [Act.bind_ok he]
              refine .mono (.congr (.leaving hrun (.list c)) fun _ => ?_)
              simp only [evalLayerBy, evalListBy, Act.get_bind, hf, hform]
          | none =>
              have hl := evalCall_leads (Q := fun _ => R.value) (fun ev => callHeadBy (call ev) ev)
                hsub (R.below_grows _) (fun _ => R.law.value_grows) h hs
                fun c' m' F' vs hfit hel hq => by
                  have hvs : ∀ v ∈ vs, R.value m'.defined (m'.view v) :=
                    fun v hv => forall_of_forall₂ hq _ (List.mem_map_of_mem hv)
                  exact callHeadBy_leads hbody hfit hel
                    (fun name hn => hcall name ⟨_, hvs _ (List.mem_of_mem_head? hn)⟩)
                    (fun x hx => .inl (R.law.expr (hvs x (List.mem_of_mem_head? hx))))
                    fun x hx => hvs x (List.mem_of_mem_tail hx)
              refine hl.congr fun _ => ?_
              simp only [evalLayerBy, evalListBy, Act.get_bind, hf, hform]

@[inherit_doc evalLayerBy_leads]
theorem evalLayer_leads {x : Node} (h : m.Fit R.value R.native limit depth aside x.cells F)
    (hval : R.expr m.defined (m.view x))
    (hsub : R.Evaluates limit depth (R.Below (sizeOf (m.view x))) fun _ => R.value)
    (hbody : R.RunsBodies limit depth)
    (hany : (∃ ns name, R.value ns (.builtin name)) →
      R.Evaluates limit depth R.expr fun _ => R.value) :
    R.LeadsIn aside F m (fun ev => evalLayer ev x) R.value :=
  .congr (evalLayerBy_leads h hval hsub hbody fun name hn =>
    calls_builtin (hany ⟨hn.choose, name, hn.choose_spec⟩) name)
    fun ev => congrFun (evalLayerBy_callBuiltin ev x).symm m

theorem builtin_of_view {P : Prop} (h : m.Sound P aside X F) {x : Node}
    (hx : m.store.Visible (X + F) x) {name : Name} (e : m.view x = .builtin name) :
    x = .builtin name := by
  have hk := h.store.kind_view hx
  rw [show m.store.view x = .builtin name from e] at hk
  cases x with
  | builtin n => simpa [Machine.view] using e
  | int _ | bool _ | symbol _ | quote _ | list _ | lambda _ _ _ => cases hk

theorem symbol_of_view {P : Prop} (h : m.Sound P aside X F) {x : Node}
    (hx : m.store.Visible (X + F) x) {name : Name} (e : m.view x = .symbol name) :
    x = .symbol name := by
  have hk := h.store.kind_view hx
  rw [show m.store.view x = .symbol name from e] at hk
  cases x with
  | symbol n => simpa [Machine.view] using e
  | int _ | bool _ | builtin _ | quote _ | list _ | lambda _ _ _ => cases hk

/-- The elements of such a call. -/
def Datum.CallPart (d : Datum) : Prop :=
  (∃ name, d = .builtin name) ∨ ∃ name, d = .symbol name

/-- What they are evaluated to. -/
def Regime.CallElement (R : Regime) (e : Datum) (ns : List Name) (v : Datum) : Prop :=
  (∀ name, e = .builtin name → v = e) ∧ ∀ name, e = .symbol name → R.value ns v

theorem Regime.callElement_grows (R : Regime) (e : Datum) : Growing (R.CallElement e) :=
  fun _ _ _ hns h => ⟨h.1, fun name he => R.law.value_grows hns (h.2 name he)⟩

theorem callPart_leads {x : Node} (h : m.Fit R.value R.native limit depth aside x.cells F)
    (hx : (m.view x).CallPart) :
    R.LeadsIn aside F m (fun ev => evalLayer ev x) (R.CallElement (m.view x)) := by
  rcases hx with ⟨name, hx⟩ | ⟨name, hx⟩
  · obtain rfl := builtin_of_view h.sound .root hx
    have hv : R.CallElement (m.view (.builtin name)) m.defined (m.view (.builtin name)) :=
      ⟨fun _ _ => rfl, fun n hn => by cases hx.symm.trans hn⟩
    exact .congr (.leaving (.pure h hv) default) fun _ => rfl
  · obtain rfl := symbol_of_view h.sound .root hx
    exact (evalLayer_symbol_leads name h).weaken
      fun _ _ hd => ⟨fun n hn => (by cases hx.symm.trans hn), fun _ _ => hd⟩

theorem evalLayerBy_nativeCall_leads {x : Node}
    (h : m.Fit R.value R.native limit depth aside x.cells F)
    (hnative : (m.view x).NativeCall)
    (hpart : R.Evaluates limit depth (fun _ => Datum.CallPart) R.CallElement)
    (hcall : ∀ name, R.Calls limit depth call name) (hbody : R.RunsBodies limit depth) :
    R.LeadsIn aside F m (fun ev => evalLayerBy (call ev) ev x) R.value := by
  obtain ⟨name, params, hd⟩ := hnative
  have hk := h.sound.store.kind_view .root
  rw [show m.store.view x = _ from hd] at hk
  cases x with
  | int _ | bool _ | symbol _ | builtin _ | quote _ | lambda _ _ _ => cases hk
  | list c =>
      have hview : m.view (.list c) = .list (m.store.viewSeq (m.store.elements c)) :=
        h.sound.store.view_list .root
      have hseq : m.store.viewSeq (m.store.elements c) = .builtin name :: params.map .symbol :=
        Datum.list.inj (hview.symm.trans hd)
      obtain ⟨head, args, hf, hhead, _⟩ := List.map_eq_cons_iff.mp hseq
      have hvis : m.store.Visible ((Node.list c).cells + F) head :=
        Store.Visible.list_element .root (by simp [hf])
      obtain rfl := builtin_of_view h.sound hvis hhead
      have hparts : ∀ y ∈ m.store.elements c, (m.view y).CallPart := by
        intro y hy
        have hmem : m.view y ∈ m.store.viewSeq (m.store.elements c) := List.mem_map_of_mem hy
        rw [hseq] at hmem
        rcases List.mem_cons.mp hmem with e | hmem
        · exact .inl ⟨name, e⟩
        · obtain ⟨n, _, hn⟩ := List.mem_map.mp hmem
          exact .inr ⟨n, hn.symm⟩
      refine (evalCall_leads (fun ev => callHeadBy (call ev) ev) hpart (fun _ _ _ _ hd => hd)
        R.callElement_grows h hparts fun c' m' F' vs hfit hel hq => ?_).congr fun _ => ?_
      · rw [hseq] at hq
        obtain ⟨v, ws, hv, hws, hvs⟩ := List.forall₂_cons_left_iff.mp hq
        obtain ⟨y, ys, rfl, rfl, rfl⟩ := List.map_eq_cons_iff.mp hvs
        have hy : y = .builtin name :=
          builtin_of_view hfit.sound (.mono (.of_mem List.mem_cons_self) le_rfl) (hv.1 name rfl)
        have hargs : ∀ z ∈ ys, R.value m'.defined (m'.view z) := by
          intro z hz
          have hall : List.Forall₂ (fun _ d => R.value m'.defined d) (params.map Datum.symbol)
              (m'.store.viewSeq ys) := by
            rw [List.forall₂_map_left_iff] at hws ⊢
            exact hws.imp fun n d hd => hd.2 n rfl
          exact forall_of_forall₂ hall _ (List.mem_map_of_mem hz)
        exact callHeadBy_leads hbody hfit hel (fun name _ => hcall name)
          (fun z hz => .inr ⟨name, by simpa [hy] using hz.symm⟩) hargs
      · have hform : SpecialForm.ofHead? (.builtin name) = none := rfl
        simp only [evalLayerBy, evalListBy, Act.get_bind, hf, hform]

theorem evalLayer_nativeCall_leads {x : Node}
    (h : m.Fit R.value R.native limit depth aside x.cells F)
    (hnative : (m.view x).NativeCall)
    (hpart : R.Evaluates limit depth (fun _ => Datum.CallPart) R.CallElement)
    (hany : R.Evaluates limit depth R.expr fun _ => R.value) (hbody : R.RunsBodies limit depth) :
    R.LeadsIn aside F m (fun ev => evalLayer ev x) R.value :=
  .congr (evalLayerBy_nativeCall_leads h hnative hpart (calls_builtin hany) hbody)
    fun ev => congrFun (evalLayerBy_callBuiltin ev x).symm m

end CellScheme
