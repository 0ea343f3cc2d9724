import CellScheme.Proofs.Host.Depth

/-!
Values are in normal form. What evaluation returns, what names are bound to and what procedures have
as bound arguments keeps no quote that evaluation would take off, and nothing in it is taken for a
call or a name when it is evaluated again.
-/

namespace CellScheme

open CellScheme.Tree (World)

namespace Datum

/-- Integers, booleans and procedures stand for themselves, and a quote stays on what evaluation
would change. A name alone is what its definition returns. -/
def Normal (defined : List Name) : Datum → Prop
  | .int _ | .bool _ | .lambda _ _ _ => True
  | .symbol name => name ∈ defined
  | .quote d => d.needsQuote = true
  | .list _ | .builtin _ => False

instance (defined : List Name) : DecidablePred (Normal defined)
  | .int _ | .bool _ | .lambda _ _ _ => .isTrue trivial
  | .symbol name => inferInstanceAs (Decidable (name ∈ defined))
  | .quote d => inferInstanceAs (Decidable (d.needsQuote = true))
  | .list _ | .builtin _ => .isFalse id

mutual
/-- The arguments bound in the procedures of the tree, at any depth. -/
def boundArguments : Datum → List Datum
  | .int _ | .bool _ | .symbol _ | .builtin _ => []
  | .quote d => d.boundArguments
  | .list ds => boundArgumentsOf ds
  | .lambda bound _ body => bound ++ boundArgumentsOf bound ++ body.boundArguments
termination_by structural d => d

def boundArgumentsOf : List Datum → List Datum
  | [] => []
  | d :: ds => d.boundArguments ++ boundArgumentsOf ds
termination_by structural ds => ds
end

/-- Every argument bound in a procedure of the tree is in normal form. -/
def Settled (defined : List Name) (d : Datum) : Prop :=
  ∀ a ∈ d.boundArguments, a.Normal defined

instance (defined : List Name) : DecidablePred (Settled defined) :=
  fun d => inferInstanceAs (Decidable (∀ a ∈ d.boundArguments, a.Normal defined))

theorem mem_boundArgumentsOf {a : Datum} {ds : List Datum} :
    a ∈ boundArgumentsOf ds ↔ ∃ d ∈ ds, a ∈ d.boundArguments := by
  induction ds with
  | nil => simp [boundArgumentsOf]
  | cons d ds ih => simp [boundArgumentsOf, ih]

/-- The trees that come up when texts are evaluated, apart from the parts of calls of builtins:
names can be written, builtins stand in the bodies of procedures that stand for them only, and bound
arguments are in normal form. -/
inductive Proper (defined : List Name) : Datum → Prop where
  | int (v : Int64) : Proper defined (.int v)
  | bool (b : Bool) : Proper defined (.bool b)
  | symbol {cs : List Char} : Grammar.Spelling cs →
      Proper defined (.symbol (Name.ofString (String.ofList cs)))
  | quote {d : Datum} : Proper defined d → Proper defined (.quote d)
  | list {ds : List Datum} : (∀ d ∈ ds, Proper defined d) → Proper defined (.list ds)
  | lambda {bound : List Datum} {params : List Name} {body : Datum} :
      (∀ d ∈ bound, d.Normal defined) → (∀ d ∈ bound, Proper defined d) →
        Proper defined body → Proper defined (.lambda bound params body)
  | standing {bound : List Datum} {params : List Name} {body : Datum} :
      (∀ d ∈ bound, d.Normal defined) → (∀ d ∈ bound, Proper defined d) →
        body.NativeCall → Proper defined (.lambda bound params body)

variable {defined defined' : List Name} {d : Datum}

theorem Normal.mono (hd : defined ⊆ defined') (h : d.Normal defined) : d.Normal defined' := by
  cases d with
  | symbol name => exact hd h
  | int _ | bool _ | quote _ | list _ | lambda _ _ _ | builtin _ => exact h

theorem Proper.mono (hd : defined ⊆ defined') (h : d.Proper defined) : d.Proper defined' := by
  induction h with
  | int v => exact .int v
  | bool b => exact .bool b
  | symbol hs => exact .symbol hs
  | quote _ ih => exact .quote ih
  | list _ ih => exact .list ih
  | lambda hn _ _ ihb ihk => exact .lambda (fun d hb => (hn d hb).mono hd) ihb ihk
  | standing hn _ hk ihb => exact .standing (fun d hb => (hn d hb).mono hd) ihb hk

theorem NativeCall.boundArguments_eq (h : d.NativeCall) : d.boundArguments = [] := by
  obtain ⟨name, params, rfl⟩ := h
  refine List.eq_nil_iff_forall_not_mem.mpr fun a ha => ?_
  obtain ⟨e, he, ha⟩ := mem_boundArgumentsOf.mp ha
  rcases List.mem_cons.mp he with rfl | he
  · cases ha
  · obtain ⟨p, _, rfl⟩ := List.mem_map.mp he
    cases ha

theorem CallPart.boundArguments_eq (h : d.CallPart) : d.boundArguments = [] := by
  rcases h with ⟨name, rfl⟩ | ⟨name, rfl⟩ <;> rfl

theorem Proper.settled (h : d.Proper defined) : d.Settled defined := by
  induction h with
  | int _ | bool _ | symbol _ => exact fun a ha => by cases ha
  | quote _ ih => exact ih
  | list _ ih =>
      intro a ha
      obtain ⟨e, he, ha⟩ := mem_boundArgumentsOf.mp ha
      exact ih e he a ha
  | lambda hn _ _ ihb ihk =>
      intro a ha
      rcases List.mem_append.mp ha with ha | ha
      · rcases List.mem_append.mp ha with ha | ha
        · exact hn a ha
        · obtain ⟨e, he, ha⟩ := mem_boundArgumentsOf.mp ha
          exact ihb e he a ha
      · exact ihk a ha
  | standing hn _ hk ihb =>
      intro a ha
      rcases List.mem_append.mp ha with ha | ha
      · rcases List.mem_append.mp ha with ha | ha
        · exact hn a ha
        · obtain ⟨e, he, ha⟩ := mem_boundArgumentsOf.mp ha
          exact ihb e he a ha
      · rw [hk.boundArguments_eq] at ha
        cases ha

theorem Proper.readable (h : d.Proper defined) (hp : ¬ d.HasProcedure) : d.Readable := by
  induction h with
  | int v => exact .int v
  | bool b => exact .bool b
  | symbol hs => exact .symbol hs
  | quote _ ih => exact .quote (ih fun h => hp (.quote h))
  | list _ ih => exact .list fun d hd => ih d hd fun h => hp (.list hd h)
  | lambda _ _ _ _ _ | standing _ _ _ _ => exact absurd (.lambda _ _ _) hp

end Datum

theorem law_normal : Law Datum.Proper fun ns d => d.Normal ns ∧ d.Proper ns where
  expr_grows _ _ _ hns h := h.mono hns
  value_grows _ _ _ hns h := ⟨h.1.mono hns, h.2.mono hns⟩
  expr h := h.2
  int _ v := ⟨trivial, .int v⟩
  bool _ b := ⟨trivial, .bool b⟩
  symbol _ _ h := .symbol h
  defined h hn := ⟨hn, h⟩
  own h hq := by
    refine ⟨?_, h⟩
    cases h with
    | int _ | bool _ | lambda _ _ _ | standing _ _ _ => trivial
    | symbol _ | quote _ | list _ => cases hq
  quoted h hq := ⟨hq, .quote h⟩
  quote := by
    refine ⟨fun h => ?_, .quote⟩
    cases h with
    | quote h => exact h
  list := by
    refine ⟨fun h => ?_, .list⟩
    cases h with
    | list h => exact h
  closure _ h := .lambda (by simp) (by simp) h
  bound h d hd := by
    cases h with
    | lambda hn hb _ | standing hn hb _ => exact ⟨hn d hd, hb d hd⟩
  body h := by
    cases h with
    | lambda _ _ hk => exact .inl hk
    | standing _ _ hk => exact .inr hk
  supply h ha _ := by
    have hn := fun d hd => (ha d hd).1
    have hp := fun d hd => (ha d hd).2
    cases h with
    | lambda hn' hb hk =>
        exact .lambda (List.forall_mem_append.mpr ⟨hn', hn⟩)
          (List.forall_mem_append.mpr ⟨hb, hp⟩) hk
    | standing hn' hb hk =>
        exact .standing (List.forall_mem_append.mpr ⟨hn', hn⟩)
          (List.forall_mem_append.mpr ⟨hb, hp⟩) hk
  standing _ name arity :=
    .standing (by simp) (by simp) ⟨name, Machine.builtinParams arity, rfl⟩

namespace Machine

def settled (m : Machine) (x : Node) : Bool :=
  (m.store.view? m.store.gas x).any fun d => decide (d.Settled m.defined)

/-- All that the frames bind, and all that is bound in its procedures, is in normal form. -/
def bindsNormal (m : Machine) : Bool :=
  m.scopes.frames.all fun f => f.bindings.values.all fun x =>
    (m.store.view? m.store.gas x).any fun d =>
      decide (d.Normal m.defined) && decide (d.Settled m.defined)

end Machine

/-- Evaluation that stops in the given way as soon as something bound is not in normal form. It
looks whenever evaluation of an expression begins or ends. A frame is pushed only to evaluate a body
in it, and a definition ends the evaluation of its form, so that no change of the bindings is
missed. -/
def evaluateNormal (stop : Halt) : Nat → Evaluator
  | 0, x => throw (x, .starved)
  | fuel + 1, x => fun m =>
    if m.settled x && m.bindsNormal then
      match evalLayer (evaluateNormal stop fuel) x m with
      | .ok v m => if m.settled v && m.bindsNormal then .ok v m else .error (x, stop) m
      | .error e m => if m.bindsNormal then .error e m else .error (x, stop) m
    else .error (x, stop) m

variable {limit : Int} {depth : Nat} {m : Machine} {aside : Set Cell} {X F : Multiset Cell}

namespace Machine.Sound

theorem settled (h : m.Sound False aside X F) {x : Node} (hx : m.store.Visible (X + F) x)
    (hs : (m.view x).Settled m.defined) : m.settled x = true := by
  obtain ⟨L, hL⟩ := h.store
  rw [Machine.settled, hL.view?_eq (hL.visible_mem hx)]
  exact decide_eq_true hs

theorem bindsNormal (h : m.Sound False aside X F)
    (ha : (World.of m).All fun d => d.Normal m.defined ∧ d.Proper m.defined) :
    m.bindsNormal = true := by
  obtain ⟨L, hL⟩ := h.store
  refine List.all_eq_true.mpr fun f hf => List.all_eq_true.mpr fun x hx => ?_
  obtain ⟨hn, hp⟩ := World.all_of.mp ha f hf x hx
  have hv : m.store.Visible (X + F) x := .of_le ((Scopes.cells_le_of_mem_frames hf hx).trans
    (h.scopes.trans (Multiset.le_add_left _ _)))
  rw [hL.view?_eq (hL.visible_mem hv), Option.any_some, Bool.and_eq_true]
  exact ⟨decide_eq_true hn, decide_eq_true hp.settled⟩

end Machine.Sound

namespace Regime

/-- Evaluation with a given fuel, with and without a look at the bindings. -/
def normal (stop : Halt) (fuel : Nat) : Regime where
  evaluators := pure (evaluate fuel) ⊔ pure (evaluateNormal stop fuel)
  leaves := frequently_leaves le_sup_left
  expr := Datum.Proper
  value ns d := d.Normal ns ∧ d.Proper ns
  native _ := True
  halts _ := True
  law := law_normal
  fails _ _ := trivial
  knows := knows_of_any

variable {stop : Halt} {fuel : Nat}

theorem Occurs.settled {ns : List Name} {d : Datum} (h : (normal stop fuel).Occurs ns d) :
    d.Settled ns := by
  rcases h with h | h | h
  · exact h.settled
  · intro a ha
    rw [h.boundArguments_eq] at ha
    cases ha
  · intro a ha
    rw [h.boundArguments_eq] at ha
    cases ha

theorem normal_evaluates (stop : Halt) (fuel : Nat) (limit : Int) (depth : Nat) :
    (normal stop fuel).Evaluates limit depth (fun ns d => d.Proper ns ∨ d.NativeCall)
      fun _ ns d => d.Normal ns ∧ d.Proper ns := by
  refine fueled_evaluates (R := normal stop fuel)
    (fun k => pure (evaluate k) ⊔ pure (evaluateNormal stop k)) (fun _ => le_sup_left) ?_ ?_ fuel
    limit depth
  · intro limit depth m aside F x Q h
    exact starved_leads (R := normal stop 0) h trivial (eventually_pair.mpr ⟨rfl, rfl⟩)
  · intro k limit depth m aside F x Q h hx hQ hl
    obtain ⟨r, hr, ho, he⟩ := hl
    obtain ⟨h₁, h₂⟩ := eventually_pair.mp hr
    refine ⟨r, eventually_pair.mpr ⟨h₁, ?_⟩, ho, he⟩
    have hbefore : (m.settled x && m.bindsNormal) = true := by
      rw [h.sound.settled .root hx.settled, h.sound.bindsNormal h.all]
      rfl
    simp only [evaluateNormal, hbefore, if_true, h₂]
    cases r with
    | error e m' =>
        obtain ⟨N, o, _⟩ := ho (.error .starved (World.of m))
        simp only [o.sound.bindsNormal he.1, if_true]
    | ok v m' =>
        obtain ⟨N, o, _⟩ := ho (.error .starved (World.of m))
        have hafter : (m'.settled v && m'.bindsNormal) = true := by
          rw [o.sound.settled .root (hQ _ _ he.2).settled, o.sound.bindsNormal he.1]
          rfl
        simp only [hafter, if_true]

end Regime

theorem evaluate_of_normal (h : m.Sound False aside X F) {x : Node}
    (hx : m.store.Visible (X + F) x) {defined : List Name} (hn : (m.view x).Normal defined)
    (hk : (m.view x).kind ≠ .symbol) (fuel : Nat) : evaluate (fuel + 1) x m = .ok x m := by
  cases x with
  | int _ | bool _ | lambda _ _ _ => rfl
  | symbol name => exact absurd rfl hk
  | builtin name => exact hn.elim
  | list c =>
      rw [Machine.view, h.store.view_list hx] at hn
      exact hn.elim
  | quote c =>
      rw [Machine.view, h.store.view_quote hx] at hn
      have hq : (m.store.payload c).needsQuote = true :=
        (h.store.needsQuote_view hx.quote_payload).symm.trans hn
      simp only [evaluate, evalLayer, Act.leaving, EStateM.adaptExcept, Act.read_bind, if_pos hq,
        Act.pure_apply]

theorem eval_of_normal (h : m.Sound False aside X F) {x : Node} (hx : m.store.Visible (X + F) x)
    {defined : List Name} (hn : (m.view x).Normal defined) (hk : (m.view x).kind ≠ .symbol)
    (fuel : Nat) :
    ∃ m', Machine.eval (fuel + 1) x m = .ok x m' ∧ m'.view x = m.view x ∧
      World.of m' = World.of m := by
  have h0 := h.keepAll
  have g := h0.frame.share hx
  have h1 := h0.grow g
  have hv : { m with store := m.store.share x }.view x = m.view x :=
    g.view_eq h0.frame hx .root
  have hev := evaluate_of_normal h1 .root (hv.symm ▸ hn) (hv.symm ▸ hk) fuel
  refine ⟨{ m with store := m.store.share x }, ?_, hv,
    h0.world_eq h1 le_rfl (h0.kept_of_extends g.ext).store rfl rfl rfl rfl⟩
  rw [Machine.eval, Act.evalCopy, Act.clone_bind]
  exact Act.settle_ok hev

theorem evalPrint_of_normal (h : m.Sound False aside X F) {d : Datum} {defined : List Name}
    (hn : d.Normal defined) (hk : d.kind ≠ .symbol) (hr : d.Readable) (fuel : Nat) :
    ∃ m', Machine.evalPrint (fuel + 1) d.print m = .ok d.print m' ∧ World.of m' = World.of m := by
  have hparse : Datum.parse d.print = .ok d := hr.parse_print
  obtain ⟨g, hv⟩ := h.frame.build d
  have h1 := h.grow g
  have hv1 : { m with store := (m.store.build d).1 }.view (m.store.build d).2 = d := hv
  obtain ⟨m', he, hv', hw⟩ := eval_of_normal h1 .root (hv1.symm ▸ hn) (hv1.symm ▸ hk) fuel
  refine ⟨m', ?_, hw.trans (h.world_eq h1 le_rfl (h.kept_of_extends g.ext).store rfl rfl rfl rfl)⟩
  have htext : Machine.evalText (fuel + 1) d.print m = .ok (m.store.build d).2 m' := by
    rw [Machine.evalText, hparse]
    exact he
  rw [Machine.evalPrint, Act.bind_ok htext, Act.read_bind, hv', hv1]
  rfl

namespace Host

/-- On every machine that evaluating texts leads to, all names are bound to normal forms, and so are
the arguments in their procedures; it is so at every moment of the next evaluation. What a text is
evaluated to is a normal form. Unless it is a name, evaluating it again gives it back and changes no
binding; and if no procedure is in it, what it is printed as is evaluated and printed the same. -/
theorem evaluation_normal (table : Named Builtin) (limit : Int) (tracing : Bool)
    (before after : List String) (texts : List (Nat × String)) (fuel : Nat) (text : String) :
    let m := (start table limit tracing before after).machine.evalTexts texts
    m.bindsNormal = true ∧
    (∀ stop, Machine.evalTextBy (evaluateNormal stop fuel) text m = Machine.evalText fuel text m) ∧
    ∀ v m', Machine.evalText fuel text m = .ok v m' →
      (m'.view v).Normal m'.defined ∧ (m'.view v).Settled m'.defined ∧
      ((m'.view v).kind ≠ .symbol → ∀ k,
        evaluate (k + 1) v m' = .ok v m' ∧
        (∃ m'', Machine.eval (k + 1) v m' = .ok v m'' ∧ m''.view v = m'.view v ∧
          World.of m'' = World.of m') ∧
        (¬ (m'.view v).HasProcedure →
          ∃ m'', Machine.evalPrint (k + 1) (m'.view v).print m' = .ok (m'.view v).print m'' ∧
            World.of m'' = World.of m')) := by
  intro m
  have hm : m.Binds _ limit 1 :=
    (binds_start law_normal table limit tracing before after).evalTexts law_normal texts
  refine ⟨?_, fun stop => ?_, fun v m' hv => ?_⟩
  · obtain ⟨F, hF⟩ := hm
    exact hF.sound.bindsNormal hF.all
  · obtain ⟨F, hF⟩ := hm
    have hfit : m.Fit (Regime.normal stop fuel).value (Regime.normal stop fuel).native limit 1 ∅ 0
      F := hF
    have hev := (Regime.normal_evaluates stop fuel limit 1).mono fun _ _ => Or.inl
    obtain ⟨r, hr, _⟩ := evalTextBy_leads hev hfit text
    obtain ⟨h₁, h₂⟩ := Regime.eventually_pair.mp hr
    exact h₂.trans h₁.symm
  · obtain ⟨F, hF, hn, hp⟩ := (hm.evalText law_normal fuel text).2 v m' hv
    exact ⟨hn, hp.settled, fun hk k => ⟨evaluate_of_normal hF.sound .root hn hk k,
      eval_of_normal hF.sound .root hn hk k,
      fun hproc => evalPrint_of_normal hF.sound hn hk (hp.readable hproc) k⟩⟩

/-- The first element of a list is a quoted name, and keeps its quote below a new one. -/
theorem evaluation_normal_car :
    let m := (start (Builtin.table [("car", ⟨1, .car⟩)]) 0 false [] []).machine
    ∃ v m', Machine.evalText 5 "(car '('b))" m = .ok v m' ∧
      m'.view v = .quote (.quote (.symbol "b")) ∧
      (m'.view v).Normal m'.defined ∧ evaluate 1 v m' = .ok v m' ∧
      ∃ m'', Machine.evalPrint 1 (m'.view v).print m' = .ok (m'.view v).print m'' ∧
        World.of m'' = World.of m' := by
  intro m
  have value : (m.run (Machine.evalText 5 "(car '('b))")).1.toOption = some (.quote 3) := by
    decide +kernel
  have outer : (m.run (Machine.evalText 5 "(car '('b))")).2.store.payload 3 = .quote 1 := by
    decide +kernel
  have inner : (m.run (Machine.evalText 5 "(car '('b))")).2.store.payload 1 = .symbol "b" := by
    decide +kernel
  obtain ⟨v, m', hv, hview⟩ : ∃ v m', Machine.evalText 5 "(car '('b))" m = .ok v m' ∧
      m'.view v = .quote (.quote (.symbol "b")) := by
    have binds := binds_start law_normal (Builtin.table [("car", ⟨1, .car⟩)]) 0 false [] []
    have fits := (binds.evalText law_normal 5 "(car '('b))").2
    rw [Machine.run] at value outer inner
    cases hv : Machine.evalText 5 "(car '('b))" m with
    | error e m' =>
        rw [hv] at value
        cases value
    | ok v m' =>
        rw [hv] at value outer inner
        obtain rfl : v = .quote 3 := Option.some.inj value
        obtain ⟨F, hF, _⟩ := fits _ m' hv
        have visible : m'.store.Visible ((Node.quote 3).cells + F) (.quote 1) := by
          rw [← outer]
          exact Store.Visible.root.quote_payload
        refine ⟨_, m', rfl, ?_⟩
        rw [Machine.view, hF.sound.store.view_quote .root, outer, hF.sound.store.view_quote visible,
          inner, Store.view_symbol]
  have hk : (m'.view v).kind ≠ .symbol := by
    rw [hview]
    decide
  have hp : ¬ (m'.view v).HasProcedure := by
    rw [hview]
    intro h
    cases h with
    | quote h =>
        cases h with
        | quote h => cases h
  obtain ⟨hn, _, again⟩ := (evaluation_normal _ 0 false [] [] [] 5 "(car '('b))").2.2 v m' hv
  obtain ⟨same, _, printed⟩ := again hk 0
  exact ⟨v, m', hv, hview, hn, same, printed hp⟩

end Host

end CellScheme
