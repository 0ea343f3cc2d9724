import CellScheme.Proofs.Evaluation.Limit
import CellScheme.Proofs.Host.Depth

/-!
The frames of the callers. A procedure keeps no bindings of the place where it was made: a name that
the frames of its own call do not bind is looked up in the frames of its callers, and then in the
global one. So what a call does depends on the frames below it, but only on the values that they
give to the names which it looks up there, and on their number if there is a limit of the depth.
-/

namespace CellScheme

/-- Other frames in place of the outermost ones above the global one. -/
def Scopes.rebase (s : Scopes) (outermost : Nat) (frames : List Frame) : Scopes :=
  { s with inner := s.inner.take (s.inner.length - outermost) ++ frames }

namespace Machine

/-- The machine with these frames above the global one. -/
def under (m : Machine) (frames : List Frame) : Machine :=
  { m with scopes := ⟨m.scopes.global, frames⟩ }

/-- The machine without its frames above the global one, its limit and its log. -/
def outside (m : Machine) : Machine :=
  { m with scopes := ⟨m.scopes.global, []⟩, limit := 0, events := #[] }

end Machine

/-- Stop at a name which would have another value with these frames in place of the outermost
ones. -/
def steady (stop : Halt) (outermost : Nat) (frames : List Frame) : Node → PlaceAct Unit
  | .symbol name => do
    let s := (← get).scopes
    if (s.rebase outermost frames).find? name ≠ s.find? name then throw (.symbol name, stop)
  | _ => pure ()

def evaluateSteady (stop : Halt) (outermost : Nat) (frames : List Frame) : Nat → Evaluator
  | 0, x => throw (x, .starved)
  | fuel + 1, x => do
    steady stop outermost frames x
    evalLayer (evaluateSteady stop outermost frames fuel) x

section

variable {stop : Halt} {outermost : Nat} {frames : List Frame}

theorem steady_cases (x : Node) (m : Machine) :
    steady stop outermost frames x m = .error (x, stop) m ∨
      steady stop outermost frames x m = .ok () m ∧ ∀ name, x = .symbol name →
        (m.scopes.rebase outermost frames).find? name = m.scopes.find? name := by
  cases x with
  | symbol name =>
      rw [steady, Act.get_bind]
      by_cases h : (m.scopes.rebase outermost frames).find? name = m.scopes.find? name
      · rw [if_neg (not_not_intro h)]
        refine .inr ⟨rfl, fun other hx => ?_⟩
        cases hx
        exact h
      · rw [if_pos h]
        exact .inl rfl
  | int _ | bool _ | quote _ | list _ | lambda _ _ _ | builtin _ =>
      exact .inr ⟨rfl, fun _ hx => by cases hx⟩

theorem evaluateSteady_alike {E : Halt → Prop} {R : Machine → Machine → Prop} {fuel : Nat}
    {x : Node} {m n : Machine} (hstop : E stop)
    (layer : (∀ name, x = .symbol name →
        (m.scopes.rebase outermost frames).find? name = m.scopes.find? name) →
      AlikeUnless (E ·.2) R (evalLayer (evaluateSteady stop outermost frames fuel) x m)
        (evalLayer (evaluate fuel) x n)) :
    AlikeUnless (E ·.2) R (evaluateSteady stop outermost frames (fuel + 1) x m)
      (evaluate (fuel + 1) x n) := by
  rw [evaluateSteady]
  rcases steady_cases x m with hs | ⟨hs, hnames⟩
  · rw [Act.bind_error hs]
    exact .inl hstop
  · rw [Act.bind_ok hs]
    exact layer hnames

end

theorem Machine.twin_same (E : Halt → Prop) : Twin E fun m n => n = m where
  store h := by rw [h]
  setStore h _ := by rw [h]
  define h _ _ := by rw [h]
  builtins h _ := .inl (by rw [h])
  deep h := .inl ⟨by rw [h], by rw [h]⟩
  before h _ _ := by rw [h]
  after h _ _ := by rw [h]
  scopes h := by rw [h]
  setScopes h _ := by rw [h]
  trace h _ _ := by rw [h]

theorem evaluateSteady_same (stop : Halt) (outermost : Nat) (frames : List Frame) (fuel : Nat)
    (x : Node) : InStep (·.2 = stop) (fun m n => n = m)
      (evaluateSteady stop outermost frames fuel x) (evaluate fuel x) := by
  induction fuel generalizing x with
  | zero => exact .throw id _
  | succ fuel ih =>
      intro m n h
      exact evaluateSteady_alike (E := (· = stop)) rfl fun _ =>
        (Machine.twin_same (· = stop)).inStep_evalLayer ih x m n h

/-- The machines have the frames of the calls in progress above other frames. They are the same
otherwise, but for their logs, and there is no limit on the second one. -/
structure Rebased (old new calls : List Frame) (m n : Machine) : Prop where
  inner : m.scopes.inner = calls ++ old
  inner' : n.scopes.inner = calls ++ new
  limit : n.limit = 0
  same : n.outside = m.outside

namespace Rebased

variable {old new calls : List Frame} {m n : Machine}

theorem store (h : Rebased old new calls m n) : n.store = m.store :=
  show n.outside.store = m.outside.store from congrArg _ h.same

theorem global (h : Rebased old new calls m n) : n.scopes.global = m.scopes.global :=
  congrArg (·.scopes.global) h.same

theorem logged (h : Rebased old new calls m n) (es es' : Array Event) :
    Rebased old new calls { m with events := es } { n with events := es' } :=
  ⟨h.inner, h.inner', h.limit, h.same⟩

theorem hooks (h : Rebased old new calls m n) (f g : Machine → String → Event)
    (hooks hooks' : List String) :
    Rebased old new calls (hooks.foldl (fun m hook => m.log (f m hook)) m)
      (hooks'.foldl (fun n hook => n.log (g n hook)) n) := by
  obtain ⟨es, hm⟩ := foldl_log f hooks m
  obtain ⟨es', hn⟩ := foldl_log g hooks' n
  rw [hm, hn]
  exact h.logged es es'

theorem push (h : Rebased old new calls m n) (f : Frame) :
    Rebased old new (f :: calls) (m.push f).1 (n.push f).1 :=
  ⟨congrArg (f :: ·) h.inner, congrArg (f :: ·) h.inner', h.limit, h.same⟩

theorem pop {m' n' : Machine} {f : Frame} (h : Rebased old new calls m n)
    (h' : Rebased old new (f :: calls) m' n') :
    Rebased old new calls (m'.truncate m.scopes.depth) (n'.truncate n.scopes.depth) := by
  have hm : m'.scopes.inner = f :: m.scopes.inner := by rw [h'.inner, h.inner, List.cons_append]
  have hn : n'.scopes.inner = f :: n.scopes.inner := by rw [h'.inner', h.inner', List.cons_append]
  rw [truncate_push hm, truncate_push hn]
  refine ⟨h.inner, h.inner', h'.limit, ?_⟩
  exact congrArg (fun m : Machine => { m with store := m.store.dropFrame f }) h'.same

theorem find?_eq (h : Rebased old new calls m n) (name : Name) :
    n.scopes.find? name = (m.scopes.rebase old.length new).find? name := by
  have inner : (m.scopes.rebase old.length new).inner = n.scopes.inner := by
    rw [Scopes.rebase, h.inner, h.inner', List.length_append, Nat.add_sub_cancel, List.take_left]
  rw [Scopes.find?, Scopes.find?, inner, h.global]
  rfl

end Rebased

/-- The run stopped at a name that has two values, or at a call that was too deep. -/
def StoppedOrTooDeep (stop h : Halt) : Prop :=
  h = stop ∨ h.isTooDeep

section

variable {old new calls : List Frame} {stop : Halt}

theorem Fails.stopped_or_tooDeep {r : EStateM.Result Halt Machine Node}
    (h : Fails (StoppedOrTooDeep stop) r) : Fails (· = stop) r ∨ Fails (·.isTooDeep) r := by
  cases r with
  | ok _ _ => exact h.elim
  | error _ _ => exact h

theorem parallel_rebased : Machine.Parallel (StoppedOrTooDeep stop) (Rebased old new calls) where
  store h := h.store
  setStore h st := ⟨h.inner, h.inner', h.limit,
    congrArg (fun m : Machine => { m with store := st }) h.same⟩
  define h name x := ⟨h.inner, h.inner', h.limit, congrArg (·.define name x) h.same⟩
  builtins h name := .inl (congrArg (·.builtins.find? name) h.same)
  deep {m n} h := by
    refine .inr ⟨fun hd => ?_, fun _ => .inr rfl⟩
    have positive : 0 < n.limit := hd.1
    rw [h.limit] at positive
    exact absurd positive (lt_irrefl 0)
  before {m n} h name form := h.hooks _ _ m.before n.before
  after {m n} h name x := h.hooks _ _ m.after n.after

theorem inStep_traceEvent (f : Machine → Event) :
    InStep (StoppedOrTooDeep stop) (Rebased old new calls) (traceEvent f) (traceEvent f) := by
  refine .modify fun m n h => ?_
  split <;> split
  · exact h.logged _ _
  · exact h.logged _ n.events
  · exact h.logged m.events _
  · exact h

variable {ev ev' : Evaluator}
  (below : ∀ calls x, InStep (StoppedOrTooDeep stop ·.2) (Rebased old new calls) (ev x) (ev' x))

include below

theorem inStepBelow_rebased :
    InStepBelow (StoppedOrTooDeep stop) (Rebased old new calls) ev ev' where
  expr := below calls
  body names values k := by
    refine .bind (inStep_traceEvent _) fun _ m n h => ?_
    refine Machine.Parallel.withFrame_alike
      (S := Rebased old new (bindParams names values :: calls)) ?_ fun m' n' h' => h.pop h'
    exact parallel_rebased.abreast_body (below _) k _ _ (h.push _)

theorem evalLayer_rebased {m n : Machine} (h : Rebased old new calls m n) (x : Node)
    (hnames : ∀ name, x = .symbol name →
      (m.scopes.rebase old.length new).find? name = m.scopes.find? name) :
    AlikeUnless (StoppedOrTooDeep stop ·.2) (Rebased old new calls) (evalLayer ev x m)
      (evalLayer ev' x n) := by
  refine parallel_rebased.evalLayer_alike h x (fun c _ => ?_) fun name hx =>
    (h.find?_eq name).trans (hnames name hx)
  exact parallel_rebased.inStep_evalList (inStepBelow_rebased below)
    (fun form => inStep_traceEvent _) c m n h

omit below in
theorem evaluateSteady_rebased (fuel : Nat) (x : Node) :
    InStep (StoppedOrTooDeep stop ·.2) (Rebased old new calls)
      (evaluateSteady stop old.length new fuel x) (evaluate fuel x) := by
  induction fuel generalizing calls x with
  | zero => exact .throw id _
  | succ fuel ih =>
      intro m n h
      exact evaluateSteady_alike (.inl rfl) (evalLayer_rebased (fun _ => ih) h x)

end

theorem applyLambda_steady {stop : Halt} {outermost : Nat} {frames : List Frame} {fuel : Nat}
    {b p k : Nat} {args : List Node} {m : Machine}
    (h : ¬ Fails (· = stop)
      (applyLambda (evaluateSteady stop outermost frames fuel) b p k args m)) :
    applyLambda (evaluateSteady stop outermost frames fuel) b p k args m =
      Machine.apply fuel (.lambda b p k) args m := by
  have twin := Machine.twin_same (· = stop)
  have below := twin.inStepBelow (evaluateSteady_same stop outermost frames fuel)
  rcases (twin.abreast_applyLambda below b p k args m m rfl).ends with
    ⟨e, m', ha, rfl⟩ | ⟨v, m', n', ha, hb, rfl⟩ | ⟨e, m', n', ha, hb, rfl⟩
  · rw [ha] at h
    exact absurd rfl h
  · exact ha.trans hb.symm
  · exact ha.trans hb.symm

/-- Whatever the machine, the procedure, the arguments and the fuel: a call does the same above two
chains of frames if no name that it looks up has another value with the one chain in place of the
other, and if in neither case a call is too deep. It ends with the same value or the same failure,
and on the same machine but for these frames and the log. That it looks up no such name is told by
evaluation that would stop there, in any way that it does not stop otherwise. -/
theorem apply_under (m : Machine) (frames frames' : List Frame) (fuel : Nat) (b p k : Nat)
    (args : List Node) (stop : Halt)
    (hnames : ¬ Fails (· = stop) (applyLambda (evaluateSteady stop frames.length frames' fuel)
      b p k args (m.under frames)))
    (hdeep : ¬ Fails (·.isTooDeep) (Machine.apply fuel (.lambda b p k) args (m.under frames)))
    (hdeep' : ¬ Fails (·.isTooDeep)
      (Machine.apply fuel (.lambda b p k) args (m.under frames'))) :
    carry Machine.outside (Machine.apply fuel (.lambda b p k) args (m.under frames')) =
      carry Machine.outside (Machine.apply fuel (.lambda b p k) args (m.under frames)) := by
  have plain := applyLambda_steady hnames
  -- The limit is lifted on the second machine, which may be the deeper one.
  have unlimited : Machine.apply fuel (.lambda b p k) args ((m.under frames').withLimit 0) =
      carry (·.withLimit 0) (Machine.apply fuel (.lambda b p k) args (m.under frames')) :=
    withLimit_of_passes (fun h => h.passes_apply fuel _ args) (m.under frames') (.inl le_rfl) hdeep'
  have start : Rebased frames frames' [] (m.under frames) ((m.under frames').withLimit 0) :=
    ⟨rfl, rfl, rfl, rfl⟩
  have below : InStepBelow (StoppedOrTooDeep stop) (Rebased frames frames' [])
      (evaluateSteady stop frames.length frames' fuel) (evaluate fuel) :=
    inStepBelow_rebased fun _ x => evaluateSteady_rebased fuel x
  have ends := parallel_rebased.abreast_applyLambda below b p k args _ _ start
  have alike := ends.resolve_left fun hfails =>
    hfails.stopped_or_tooDeep.elim hnames fun h => hdeep (plain ▸ h)
  calc carry Machine.outside (Machine.apply fuel (.lambda b p k) args (m.under frames'))
      = carry Machine.outside
          (carry (·.withLimit 0) (Machine.apply fuel (.lambda b p k) args (m.under frames'))) :=
        (carry_carry Machine.outside (·.withLimit 0) _).symm
    _ = carry Machine.outside
          (Machine.apply fuel (.lambda b p k) args ((m.under frames').withLimit 0)) := by
        rw [unlimited]
    _ = carry Machine.outside (Machine.apply fuel (.lambda b p k) args (m.under frames)) := by
        rw [← plain]
        exact alike.carry_eq fun _ _ h => h.same

/-- The callers bind the parameter of the procedure, each to a value of its own. -/
theorem apply_under_shadowed :
    let m := (Host.start (Builtin.table [("+", ⟨2, .arith .add⟩)]) 0 false [] []).machine.evalTexts
      [(3, "(define y 10)"), (3, "(define f (lambda (x) (+ x y)))")]
    let one := [(Frame.empty "").set "x" (.int 1)]
    let two := [(Frame.empty "").set "z" (.int 3), (Frame.empty "").set "x" (.int 2)]
    m.scopes.global.find? "f" = some (.lambda 7 1 1) ∧
    ((m.under one).run (Machine.apply 5 (.lambda 7 1 1) [.int 5])).1.toOption = some (.int 15) ∧
    carry Machine.outside (Machine.apply 5 (.lambda 7 1 1) [.int 5] (m.under two)) =
      carry Machine.outside (Machine.apply 5 (.lambda 7 1 1) [.int 5] (m.under one)) := by
  intro m one two
  have steady : ¬ Fails (fun _ => True) (applyLambda (evaluateSteady .starved one.length two 5)
      7 1 1 [.int 5] (m.under one)) := by
    decide +kernel
  have shallow : ¬ Fails (·.isTooDeep) (Machine.apply 5 (.lambda 7 1 1) [.int 5] (m.under one)) ∧
      ¬ Fails (·.isTooDeep) (Machine.apply 5 (.lambda 7 1 1) [.int 5] (m.under two)) := by
    decide +kernel
  exact ⟨by decide +kernel, by decide +kernel, apply_under m one two 5 7 1 1 [.int 5] .starved
    (not_fails steady _) shallow.1 shallow.2⟩

/-- A procedure that returns a name which its caller binds, and a limit that the frame of the caller
exceeds. -/
theorem apply_sees_callers :
    let m := (Host.start .empty 0 false [] []).machine.evalTexts
      [(3, "(define x 1)"), (3, "(define f (lambda () x))"), (3, "(define g (lambda (x) (f)))")]
    let caller := [(Frame.empty "").set "x" (.int 2)]
    m.scopes.global.find? "f" = some (.lambda 4 0 0) ∧ m.arity (.lambda 4 0 0) = 0 ∧
    ((m.under []).run (Machine.apply 3 (.lambda 4 0 0) [])).1.toOption = some (.int 1) ∧
    ((m.under caller).run (Machine.apply 3 (.lambda 4 0 0) [])).1.toOption = some (.int 2) ∧
    (m.run (Machine.evalText 5 "(f)")).1.toOption = some (.int 1) ∧
    (m.run (Machine.evalText 5 "(g 2)")).1.toOption = some (.int 2) ∧
    ((m.withLimit 1).run (Machine.evalText 5 "(f)")).1.toOption = some (.int 1) ∧
    Fails (·.isTooDeep) (Machine.evalText 5 "(g 2)" (m.withLimit 1)) := by
  intro m caller
  decide +kernel

end CellScheme
