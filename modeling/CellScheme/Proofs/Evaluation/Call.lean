import CellScheme.Proofs.Evaluation.Native

/-!
Calls on nodes do what they do on trees. A lambda that is called is consumed: the sequence of its
bound arguments is edited in place if nothing else holds it. Arguments are in the frame.
-/

namespace CellScheme

open Store (Grown Keeps Rewritten)
open CellScheme.Tree (World)

variable {P : Prop} {m : Machine} {aside : Set Cell} {X F : Multiset Cell} {ev : Evaluator}
  {tev : Tree.Evaluator} {r : EStateM.Result Halt Machine Node}
  {t : EStateM.Result Halt World Datum}

theorem foldl_log (f : Machine → String → Event) (hooks : List String) (m : Machine) :
    ∃ es, hooks.foldl (fun m hook => m.log (f m hook)) m = { m with events := es } := by
  induction hooks generalizing m with
  | nil => exact ⟨m.events, rfl⟩
  | cons hook hooks ih =>
      obtain ⟨es, h⟩ := ih (m.log (f m hook))
      exact ⟨es, h⟩

theorem Machine.Sound.logged (h : m.Sound P aside X F) (es : Array Event) :
    { m with events := es }.Sound P aside X F :=
  ⟨h.store, h.scopes, h.plain⟩

/-- The log is part of nothing that is compared. -/
theorem Machine.Kept.logged (m : Machine) (aside : Set Cell) (F : Multiset Cell)
    (es : Array Event) : m.Kept aside F { m with events := es } :=
  .of_same (.refl _ _ _) rfl rfl rfl rfl

theorem callBuiltin_refines (hev : Faithful ev tev) (h : m.Sound P aside 0 F)
    {form : List Node} (hv : ∀ x ∈ form, m.store.Visible F x) (name : Name) :
    Refines P aside F m (callBuiltin ev name form m)
      (Tree.callBuiltin tev name (m.store.viewSeq form) (World.of m)) := by
  have hb : (World.of m).builtins = m.builtins := rfl
  simp only [callBuiltin, Tree.callBuiltin, Act.get_bind, hb]
  cases hf : m.builtins.find? name with
  | none => exact .throw h
  | some b =>
      obtain ⟨es, he⟩ := foldl_log
        (fun m hook => .before hook name (m.store.viewSeq form) m.depth) m.before m
      simp only [Act.modify_bind, he]
      rw [← bind_pure (Tree.runNative tev b.native name (m.store.viewSeq form))]
      have hn : P → b.native ≠ .identical ∧ b.native ≠ .equal := fun hP => h.plain hP name b hf
      have hr := b.native.run_refines hev hn (h.logged es) hv name
      refine .after (.logged m aside F es) rfl (.bind hr fun v m' N h' _ => ?_)
      obtain ⟨es', he'⟩ := foldl_log
        (fun m hook => .after hook name (m.view v) m.depth) m'.after m'
      simp only [Act.modify_bind, he']
      exact .after (.logged m' aside _ es') rfl (.pure (h'.logged es'))

theorem Machine.depth_truncate {m : Machine} {depth : Nat} (h : m.depth = depth + 1)
    (hd : 0 < depth) : (m.truncate depth).depth = depth := by
  have hlen : m.scopes.inner.length = depth := Nat.succ.inj h
  simp only [Machine.depth, Machine.truncate, Scopes.truncate, Scopes.depth, List.length_drop, hlen]
  omega

theorem truncate_push {m m' : Machine} {f : Frame}
    (hi : m'.scopes.inner = f :: m.scopes.inner) :
    m'.truncate m.scopes.depth =
      { m' with scopes := ⟨m'.scopes.global, m.scopes.inner⟩, store := m'.store.dropFrame f } := by
  have hd : m'.scopes.depth - max m.scopes.depth 1 = 1 := by
    simp only [Scopes.depth, hi, List.length_cons]
    omega
  simp only [Machine.truncate, Scopes.truncate, hd, hi, List.drop_one, List.tail_cons,
    List.take_succ_cons, List.take_zero, List.foldl_cons, List.foldl_nil]

/-- What a call leaves once its frame is gone. -/
theorem Machine.Outcome.popped {m m' : Machine} {f : Frame} {N : Multiset Cell}
    (o : (m.push f).1.Outcome P aside (f.cells + F) m' X N) :
    m.Outcome P aside F (m'.truncate m.scopes.depth) X N ∧
      World.of (m'.truncate m.scopes.depth) =
        { World.of m' with inner := (World.of m').inner.tail } ∧
      ∀ v : Node, v.cells ≤ X → (m'.truncate m.scopes.depth).view v = m'.view v := by
  have h := o.sound
  have k := o.kept
  have hi : m'.scopes.inner = f :: m.scopes.inner := k.scopes.inner
  have hg : (⟨m'.scopes.global, m.scopes.inner⟩ : Scopes).cells ≤ N + m.scopes.cells := by
    have hc := o.scopes
    rw [Scopes.cells, hi, List.map_cons, List.sum_cons, Machine.push, Scopes.cells_push,
      add_left_comm N, add_assoc] at hc
    exact le_of_add_le_add_left hc
  have hs : (⟨m'.scopes.global, m.scopes.inner⟩ : Scopes).cells ≤ N + F := by
    have hc := h.scopes
    rw [Scopes.cells, hi, List.map_cons, List.sum_cons, add_left_comm N, add_assoc] at hc
    exact le_of_add_le_add_left hc
  have h1 : { m' with scopes := ⟨m'.scopes.global, m.scopes.inner⟩ }.Sound P aside X (N + F) := by
    refine ⟨h.store.forget (add_le_add le_rfl (add_le_add le_rfl (Multiset.le_add_left _ _))), hs,
      h.plain⟩
  have hd : m'.store.Sound aside (cellsOf f.bindings.values + (X + (N + F))) :=
    h.store.reorder (by rw [Frame.cells]; abel)
  have g := hd.dropAll
  have h2 : (m'.truncate m.scopes.depth).Sound P aside X (N + F) := by
    rw [truncate_push hi]
    exact ⟨g.sound.reorder (zero_add _), hs, h.plain⟩
  have k2 : Keeps m'.store (m'.truncate m.scopes.depth).store aside (X + (N + F)) := by
    rw [truncate_push hi]
    exact .of_extends h1.store g.ext
  refine ⟨⟨h2, ?_, ?_, ?_⟩, ?_, fun v hv => ?_⟩
  · rw [truncate_push hi]
    exact hg
  · refine (k.store.mono subset_rfl (Multiset.le_add_left _ _)).trans (k2.mono subset_rfl ?_)
    exact (Multiset.le_add_left _ _).trans (Multiset.le_add_left _ _)
  · have d := k.scopes
    rw [truncate_push hi]
    exact ⟨d.builtins, d.limit, rfl, d.bound, d.listed, d.nodup, d.added, d.others⟩
  · rw [h1.world_eq h2 le_rfl (k2.mono subset_rfl (Multiset.le_add_left _ _))
      (by rw [truncate_push hi]) (by rw [truncate_push hi]) (by rw [truncate_push hi])
      (by rw [truncate_push hi])]
    simp only [Tree.World.of_eq, hi, List.map_cons, List.tail_cons]
  · exact k2.view_eq h1.store h2.store le_rfl (.of_le (hv.trans (Multiset.le_add_right _ _)))

theorem withFrame_ok {m m' : Machine} {f : Frame} {a : Act Node} {v : Node}
    (h : a (m.push f).1 = .ok v m') : withFrame f a m = .ok v (m'.truncate m.scopes.depth) := by
  simp only [withFrame, h]
  rfl

theorem withFrame_error {m m' : Machine} {f : Frame} {a : Act Node} {e : Halt}
    (h : a (m.push f).1 = .error e m') :
    withFrame f a m = .error e (m'.truncate m.scopes.depth) := by
  simp only [withFrame, h]
  rfl

theorem withFrame_refines {f : Frame} {a : Act Node} {ta : Tree.Act Datum}
    (h : m.Sound P aside f.cells F)
    (run : (m.push f).1.Sound P aside 0 (f.cells + F) →
      Refines P aside (f.cells + F) (m.push f).1 (a (m.push f).1) (ta (World.of (m.push f).1))) :
    Refines P aside F m (withFrame f a m)
      (Tree.withFrame (Tree.frameOf m.store f) ta (World.of m)) := by
  have hp : (m.push f).1.Sound P aside 0 (f.cells + F) := by
    refine ⟨h.store.reorder (zero_add _).symm, ?_, h.plain⟩
    exact (Scopes.cells_push m.scopes f).trans_le (add_le_add le_rfl h.scopes)
  have hw : { World.of m with inner := Tree.frameOf m.store f :: (World.of m).inner } =
      World.of (m.push f).1 := rfl
  have hr := run hp
  rw [Tree.withFrame, hw]
  cases ha : a (m.push f).1 with
  | ok v m' =>
      rw [ha] at hr
      obtain ⟨N, o, ht⟩ := hr
      obtain ⟨o2, w2, v2⟩ := o.popped
      rw [withFrame_ok ha]
      exact ⟨N, o2, fun hP => by rw [ht hP, w2, v2 v le_rfl]⟩
  | error e m' =>
      rw [ha] at hr
      obtain ⟨N, o, ht⟩ := hr
      obtain ⟨o2, w2, _⟩ := o.popped
      rw [withFrame_error ha]
      exact ⟨N, o2, fun hP => by rw [ht hP, w2]⟩

/-- What a call does once its arguments are bound. -/
def callBound (ev : Evaluator) (bound params body : Nat) : Act Node := do
  let m ← get
  if m.store.arity bound params ≠ 0 then return .lambda bound params body
  else if 0 < m.limit ∧ m.limit < m.depth then Act.fail (.runtime (.tooDeep m.limit))
  else
    let names := m.store.params params
    let values := m.store.elements bound
    if values.length < names.length then Act.fail (.internal .absentNode)
    else
      Act.store (·.shareAll values)
      traceEvent fun m => .applied m.depth names (m.store.viewSeq values)
      withFrame (bindParams names values) do
        Act.evalCopy ev ((← Act.read (·.store)).payload body)

def Tree.callBound (ev : Tree.Evaluator) (bound : List Datum) (params : List Name) (body : Datum) :
    Tree.Act Datum := do
  let w ← get
  if Datum.arity bound params ≠ 0 then return .lambda bound params body
  else if 0 < w.limit ∧ w.limit < w.depth then fail (.runtime (.tooDeep w.limit))
  else withFrame (bindParams params bound) (ev body)

theorem Tree.apply_eq (ev : Tree.Evaluator) (bound : List Datum) (params : List Name)
    (body : Datum) (args : List Datum) :
    Tree.apply ev bound params body args =
      if Datum.arity bound params < args.length then
        fail (.runtime (.tooManyArguments (Datum.arity bound params) args.length))
      else callBound ev (bound ++ args) params body := rfl

/-- The arguments join those bound before, for the holder of the lambda alone. -/
theorem applyLambda_eq (ev : Evaluator) {b p : Nat} (k : Nat) {args : List Node}
    (hm : ¬ m.store.arity b p < args.length) :
    applyLambda ev b p k args m = callBound ev (m.store.appendShared b args).2 p k
      { m with store := (m.store.appendShared b args).1 } := by
  simp only [applyLambda, Act.read_bind, if_neg hm]
  cases args <;> rfl

theorem traceEvent_apply (f : Machine → Event) (m : Machine) :
    ∃ es, traceEvent f m = .ok () { m with events := es } := by
  have e : traceEvent f m = .ok () (if m.tracing then m.log (f m) else m) := rfl
  rw [e]
  split
  · exact ⟨_, rfl⟩
  · exact ⟨m.events, rfl⟩

theorem arity_view (st : Store) (b p : Nat) :
    Datum.arity (st.viewSeq (st.elements b)) (st.params p) = st.arity b p := by
  rw [Datum.arity, Store.arity, Store.length_viewSeq]

/-- A lambda on a rewritten sequence of bound arguments. -/
theorem Store.Rewritten.view_lambda {st st' : Store} {b' p k : Nat} {xs : List Node}
    (h : st.Sound aside (({.names p} + {.node k}) + F))
    (w : Rewritten st st' aside b' xs (({.names p} + {.node k}) + F)) :
    st'.view (.lambda b' p k) =
      .lambda (st.viewSeq xs) (st.params p) (st.view (st.payload k)) := by
  have root : st'.Sound aside ((Node.lambda b' p k).cells + F) :=
    Store.sound_lambda_iff.mpr w.sound
  have hp : st'.params p = st.params p :=
    (w.keeps.reach (.names p) (.root (by simp))).params_eq
  have hk : st'.payload k = st.payload k :=
    (w.keeps.reach (.node k) (.root (by simp))).payload_eq
  have hv : st'.view (st.payload k) = st.view (st.payload k) :=
    w.keeps.view_eq h (w.sound.forget (Multiset.le_add_left _ _)) le_rfl
      (.payload (.root (by simp)))
  rw [root.view_lambda .root, w.elements, w.view, hp, hk, hv]

/-- With no argument missing, every parameter has one. -/
theorem Store.not_lt_of_arity {st : Store} {b p : Nat} (h : ¬ st.arity b p ≠ 0) :
    ¬ (st.elements b).length < (st.params p).length := by
  rw [Store.arity] at h
  omega

/-- A call with all arguments leaves the lambda as it is. -/
theorem callBound_keeps (hev : Faithful ev tev) {b p k : Nat}
    (h : m.Sound P aside (Node.lambda b p k).cells F) (har : ¬ m.store.arity b p ≠ 0) :
    Refines P aside ((Node.lambda b p k).cells + F) m (callBound ev b p k m)
      (Tree.callBound tev (m.store.viewSeq (m.store.elements b)) (m.store.params p)
        (m.view (m.store.payload k)) (World.of m)) := by
  have hl : m.store.Visible ((Node.lambda b p k).cells + F) (.lambda b p k) := .root
  have hw : (World.of m).limit = m.limit := rfl
  have h0 := h.keepAll
  simp only [callBound, Tree.callBound, Act.get_bind, arity_view, hw, Tree.World.depth_of,
    if_neg har]
  split
  · exact .throw h0
  · rw [if_neg (Store.not_lt_of_arity har)]
    have g := h0.frame.shareAll fun x hx => hl.lambda_bound hx
    have h1 := h0.grow g
    have k1 := h0.kept_of_extends g.ext
    have hp : (m.store.shareAll (m.store.elements b)).payload k = m.store.payload k :=
      (g.ext.agree (.node k) (h0.frame.allocated (hl _ (by simp [Node.cells])))).payload_eq
    have hv := h0.view_eq h1 le_rfl k1 hl.lambda_body
    have hvs := k1.store.viewSeq_eq h0.frame h1.frame le_rfl fun x hx => hl.lambda_bound hx
    have hw1 := h0.world_eq h1 le_rfl k1.store rfl rfl rfl rfl
    simp only [Act.store_bind]
    obtain ⟨es, he⟩ := traceEvent_apply
      (fun m' => .applied m'.depth (m.store.params p) (m'.store.viewSeq (m.store.elements b)))
      { m with store := m.store.shareAll (m.store.elements b) }
    rw [Act.bind_ok he]
    have h2 : { m with store := m.store.shareAll (m.store.elements b), events := es }.Sound P
        aside (bindParams (m.store.params p) (m.store.elements b)).cells
        ((Node.lambda b p k).cells + F) :=
      ⟨h1.store.forget (add_le_add (cells_bindParams_le _ _) le_rfl), h1.scopes, h1.plain⟩
    refine .after (k1.trans (.logged _ _ _ es)) rfl ?_
    rw [← hvs, ← Tree.frameOf_bindParams, ← hw1]
    refine withFrame_refines h2 fun h3 => ?_
    have hr := hev.evalCopy h3 (x := m.store.payload k)
      ((k1.store.visible hl.lambda_body).mono (Multiset.le_add_left _ _))
    rw [← hv, Act.read_bind]
    simp only [Machine.push, hp]
    exact hr

theorem callBound_refines (hev : Faithful ev tev) {b p k : Nat}
    (h : m.Sound P aside (Node.lambda b p k).cells F) :
    Refines P aside F m (callBound ev b p k m)
      (Tree.callBound tev (m.store.viewSeq (m.store.elements b)) (m.store.params p)
        (m.view (m.store.payload k)) (World.of m)) := by
  by_cases har : m.store.arity b p ≠ 0
  · have hv : m.view (.lambda b p k) = _ := h.store.view_lambda .root
    simp only [callBound, Tree.callBound, Act.get_bind, arity_view, if_pos har]
    refine (Refines.pure h).congr fun _ => ?_
    rw [hv]
    rfl
  · exact (callBound_keeps hev h har).mono

theorem applyLambda_refines (hev : Faithful ev tev) {b p k : Nat}
    (h : m.Sound P aside (Node.lambda b p k).cells F) {args : List Node}
    (ha : ∀ x ∈ args, m.store.Visible F x) :
    Refines P aside F m (applyLambda ev b p k args m)
      (Tree.apply tev (m.store.viewSeq (m.store.elements b)) (m.store.params p)
        (m.view (m.store.payload k)) (m.store.viewSeq args) (World.of m)) := by
  rw [Tree.apply_eq, arity_view, Store.length_viewSeq]
  split
  · rename_i hlt
    simp only [applyLambda, Act.read_bind, if_pos hlt]
    exact .throw h
  · rename_i hge
    have hs : m.store.Sound aside ({.seq b} + (({.names p} + {.node k}) + F)) :=
      Store.sound_lambda_iff.mp h.store
    have w := hs.appendShared (hs.mayJoin fun x hx => (ha x hx).mono (Multiset.le_add_left _ _))
    rw [applyLambda_eq ev k hge]
    generalize (m.store.appendShared b args).1 = st at *
    generalize (m.store.appendShared b args).2 = b' at *
    have h1 : { m with store := st }.Sound P aside (Node.lambda b' p k).cells F :=
      ⟨Store.sound_lambda_iff.mpr w.sound, h.scopes, h.plain⟩
    have hr := callBound_refines hev h1
    have hF : F ≤ ({.names p} + {.node k}) + F := Multiset.le_add_left _ _
    have kF := w.keeps.mono subset_rfl hF
    have hw := h.world_eq h1 le_rfl kF rfl rfl rfl rfl
    obtain ⟨hbound, hp, hbody⟩ := Datum.lambda.inj ((h1.store.view_lambda .root).symm.trans
      (w.view_lambda (hs.forget (Multiset.le_add_left _ _))))
    simp only [Machine.view, hbound, hp, hbody, hw] at hr
    rw [Store.viewSeq, List.map_append] at hr
    have k1 : m.Kept aside F { m with store := st } := .of_same kF rfl rfl rfl rfl
    exact hr.after k1 rfl

end CellScheme
