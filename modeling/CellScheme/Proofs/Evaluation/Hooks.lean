import CellScheme.Proofs.Evaluation.Observation

/-!
One hook before and one after each builtin. What they log of an evaluation that ends with a value is
well bracketed. A failure leaves the calls open that were going on: they are what is left in the log
of an evaluation without hooks that keeps each call in its log until the builtin has returned.
-/

namespace CellScheme

open List (IsChain)

/-- The depth that is reported with an event. -/
def Event.depth : Event → Nat
  | .special depth _ | .applied depth _ _ | .before _ _ _ depth | .after _ _ _ depth => depth

/-- The calls of hooks so far. -/
def Machine.hookEvents (m : Machine) : List Event :=
  m.events.toList.filter (·.trace?.isNone)

section

variable (pre post : String)

/-- Each call of the hook before a builtin is matched by a call of the hook after the same builtin
at the same depth, and what lies in between is well bracketed. -/
inductive Bracketed : List Event → Prop where
  | nil : Bracketed []
  | call (name : Name) (form : List Datum) (result : Datum) (depth : Nat)
      {inner rest : List Event} : Bracketed inner → Bracketed rest →
      Bracketed (.before pre name form depth :: inner ++ .after post name result depth :: rest)

/-- Calls of hooks that are well bracketed but for these calls of the hook before a builtin, which
are not matched. -/
inductive Pending : List Event → List Event → Prop where
  | done {es : List Event} : Bracketed pre post es → Pending [] es
  | call (name : Name) (form : List Datum) (depth : Nat) {es calls inner : List Event} :
      Bracketed pre post es → Pending calls inner →
      Pending (.before pre name form depth :: calls) (es ++ .before pre name form depth :: inner)

end

variable {pre post : String} {es es' calls : List Event}

theorem Bracketed.append (h : Bracketed pre post es) (h' : Bracketed pre post es') :
    Bracketed pre post (es ++ es') := by
  induction h with
  | nil => exact h'
  | call name form result depth hi _ _ ih =>
      simpa only [List.append_assoc, List.cons_append] using
        Bracketed.call name form result depth hi ih

/-- What is left open can be closed. -/
theorem Pending.exists_bracketed (h : Pending pre post calls es) :
    ∃ rest, Bracketed pre post (es ++ rest) := by
  induction h with
  | done h => exact ⟨[], by rw [List.append_nil]; exact h⟩
  | call name form depth h _ ih =>
      obtain ⟨rest, hr⟩ := ih
      refine ⟨rest ++ [.after post name default depth], ?_⟩
      simpa only [List.append_assoc, List.cons_append] using
        h.append (.call name form default depth hr .nil)

theorem Machine.hookEvents_log_before (m : Machine) (hook : String) (name : Name)
    (form : List Datum) (depth : Nat) : (m.log (.before hook name form depth)).hookEvents =
      m.hookEvents ++ [.before hook name form depth] := by
  simp [Machine.hookEvents, Machine.log, Event.trace?]

theorem Machine.hookEvents_log_after (m : Machine) (hook : String) (name : Name) (result : Datum)
    (depth : Nat) : (m.log (.after hook name result depth)).hookEvents =
      m.hookEvents ++ [.after hook name result depth] := by
  simp [Machine.hookEvents, Machine.log, Event.trace?]

theorem Machine.hookEvents_log_trace (m : Machine) {e : Event} (h : e.trace?.isSome) :
    (m.log e).hookEvents = m.hookEvents := by
  simp [Machine.hookEvents, Machine.log, Option.isSome_iff_ne_none.mp h]

def Machine.calling (calls : Array Event) (m : Machine) : Machine :=
  { m with tracing := false, before := [], after := [], events := calls }

/-- Call a builtin without hooks. The call is in the log as the hook before it would have it, until
the builtin has returned. -/
def callActive (pre : String) (ev : Evaluator) : Caller := fun name form => do
  let m ← get
  match m.builtins.find? name with
  | none => Act.fail (.runtime (.unknownBuiltin name))
  | some b => do
    modify fun m => m.log (.before pre name (m.store.viewSeq form) m.depth)
    let x ← b.native.run ev name form
    modify fun m' => { m' with events := m.events }
    return x

/-- Evaluation without hooks and with a log of the calls of builtins that are going on. -/
def evaluateActive (pre : String) : Nat → Evaluator
  | 0, x => throw (x, .starved)
  | fuel + 1, x =>
    evalLayerBy (callActive pre (evaluateActive pre fuel)) (evaluateActive pre fuel) x

def callFitting (fits : Nat → Nat → Prop) [DecidableRel fits] (outer : Nat)
    (ev : Nat → Evaluator) : Caller := fun name form m =>
  if fits outer m.depth then callBuiltin (ev m.depth) name form m
  else .error (.failed (.internal .absentNode)) m

/-- Evaluation that breaks off at a call of a builtin, unless its depth fits to that of the call of
a builtin around it, or to `outer` if there is none. -/
def evaluateFitting (fits : Nat → Nat → Prop) [DecidableRel fits] : Nat → Nat → Evaluator
  | 0, _, x => throw (x, .starved)
  | fuel + 1, outer, x =>
    evalLayerBy (callFitting fits outer (evaluateFitting fits fuel))
      (evaluateFitting fits fuel outer) x

theorem evaluateFitting_true (fuel outer : Nat) :
    evaluateFitting (fun _ _ => True) fuel outer = evaluate fuel := by
  induction fuel generalizing outer with
  | zero => rfl
  | succ fuel ih =>
      funext x
      have same : evaluateFitting (fun _ _ => True) fuel = fun _ => evaluate fuel := funext ih
      rw [evaluateFitting, same, evaluate, ← evalLayerBy_callBuiltin]
      rfl

variable {base : List Event} {active : Array Event} {depth outer : Nat} {m n : Machine}

/-- What the hooks have logged since `base` is well bracketed, and the second machine has the active
calls in its log. -/
structure Calling (pre post : String) (base : List Event) (active : Array Event) (depth : Nat)
    (m n : Machine) : Prop where
  before : m.before = [pre]
  after : m.after = [post]
  depth_eq : m.depth = depth
  same : n = m.calling active
  logged : ∃ es, m.hookEvents = base ++ es ∧ Bracketed pre post es

/-- What the hooks have logged since `base` has left calls open, each at a depth that fits to that
of the call around it, and the second machine has these calls in its log after those active
before. -/
def Stopped (fits : Nat → Nat → Prop) (pre post : String) (base : List Event)
    (active : Array Event) (outer : Nat) (m n : Machine) : Prop :=
  ∃ calls es, n = m.calling (active ++ calls.toArray) ∧ m.hookEvents = base ++ es ∧
    Pending pre post calls es ∧ IsChain fits (outer :: calls.map Event.depth)

namespace Calling

variable {fits : Nat → Nat → Prop}

theorem stopped (h : Calling pre post base active depth m n) :
    Stopped fits pre post base active outer m n := by
  obtain ⟨es, he, hb⟩ := h.logged
  exact ⟨[], es, by rw [h.same]; simp, he, .done hb, .singleton outer⟩

/-- After a change that the log and the hooks do not take part in. -/
theorem congr (h : Calling pre post base active depth m n) {f : Machine → Machine}
    (calling : ∀ es, f (m.calling es) = (f m).calling es) (before : (f m).before = m.before)
    (after : (f m).after = m.after) (logged : (f m).hookEvents = m.hookEvents) :
    Calling pre post base active (f m).depth (f m) (f n) :=
  ⟨before.trans h.before, after.trans h.after, rfl, by rw [h.same, calling], logged ▸ h.logged⟩

theorem store (h : Calling pre post base active depth m n) : n.store = m.store := by
  rw [h.same]
  rfl

theorem scopes (h : Calling pre post base active depth m n) : n.scopes = m.scopes := by
  rw [h.same]
  rfl

theorem depth_same (h : Calling pre post base active depth m n) : n.depth = m.depth :=
  congrArg Scopes.depth h.scopes

theorem push (h : Calling pre post base active depth m n) (f : Frame) :
    Calling pre post base active (depth + 1) (m.push f).1 (n.push f).1 := by
  have hd : (m.push f).1.depth = depth + 1 := congrArg Nat.succ h.depth_eq
  exact hd ▸ h.congr (f := fun m => (m.push f).1) (fun _ => rfl) rfl rfl rfl

theorem truncate (h : Calling pre post base active (depth + 1) m n) (hd : 0 < depth) :
    Calling pre post base active depth (m.truncate depth) (n.truncate depth) := by
  have h' := h.congr (f := (·.truncate depth)) (fun _ => rfl) rfl rfl rfl
  rw [Machine.depth_truncate h.depth_eq hd] at h'
  exact h'

end Calling

theorem Stopped.truncate {fits : Nat → Nat → Prop}
    (h : Stopped fits pre post base active outer m n) (size : Nat) :
    Stopped fits pre post base active outer (m.truncate size) (n.truncate size) := by
  obtain ⟨calls, es, rfl, h'⟩ := h
  exact ⟨calls, es, rfl, h'⟩

theorem apace_calling {E : Halt → Prop} {fits : Nat → Nat → Prop} :
    Machine.Apace E (Calling pre post base active depth)
      (Stopped fits pre post base active outer) where
  store h := h.store
  setStore h st := h.depth_eq ▸ h.congr (f := fun m => { m with store := st }) (fun _ => rfl) rfl
    rfl rfl
  define h name x := h.depth_eq ▸ h.congr (f := (·.define name x)) (fun _ => rfl) rfl rfl rfl
  deep h := .inl ⟨by rw [h.same]; rfl, h.depth_same⟩
  failed h := h.stopped
  failedStore := by
    rintro m n ⟨calls, es, rfl, _⟩
    rfl
  setFailedStore := by
    rintro m n ⟨calls, es, rfl, h⟩ st
    exact ⟨calls, es, rfl, h⟩

section

variable {name : Name} {form : List Datum} {m' n' : Machine} {active' : Array Event}

theorem Calling.call (h : Calling pre post base active depth m n) (name : Name)
    (form : List Datum) :
    Calling pre post (m.hookEvents ++ [.before pre name form depth])
      (active.push (.before pre name form depth)) depth (m.log (.before pre name form depth))
      (n.log (.before pre name form depth)) := by
  refine ⟨h.before, h.after, h.depth_eq, ?_, [], ?_, .nil⟩
  · rw [h.same]
    rfl
  · rw [Machine.hookEvents_log_before, List.append_nil]

theorem Calling.returned (h : Calling pre post base active depth m n)
    (h' : Calling pre post (m.hookEvents ++ [.before pre name form depth]) active' depth m' n')
    (result : Datum) :
    Calling pre post base active depth (m'.log (.after post name result depth))
      { n' with events := n.events } := by
  obtain ⟨es, hes, hb⟩ := h.logged
  obtain ⟨es', hes', hb'⟩ := h'.logged
  refine ⟨h'.before, h'.after, h'.depth_eq, ?_, _, ?_,
    hb.append (.call name form result depth hb' .nil)⟩
  · rw [h'.same, h.same]
    rfl
  · rw [Machine.hookEvents_log_after, hes', hes]
    simp only [List.append_assoc, List.cons_append, List.nil_append]

/-- When the builtin has failed, its call is the outermost of those that are left open. -/
theorem Stopped.called {fits : Nat → Nat → Prop} (h : Calling pre post base active depth m n)
    (hfits : fits outer depth)
    (h' : Stopped fits pre post (m.hookEvents ++ [.before pre name form depth])
      (active.push (.before pre name form depth)) depth m' n') :
    Stopped fits pre post base active outer m' n' := by
  obtain ⟨es, hes, hb⟩ := h.logged
  obtain ⟨calls, es', hsame, hes', hpending, hchain⟩ := h'
  refine ⟨_, _, ?_, ?_, .call name form depth hb hpending, .cons_cons hfits hchain⟩
  · rw [hsame]
    simp
  · rw [hes', hes]
    simp only [List.append_assoc, List.cons_append, List.nil_append]

end

section

variable {name : Name} {form : List Node} {b : Builtin} {ev : Evaluator} {m' : Machine} {v : Node}
  {e : Halt}

theorem callBuiltin_hooked (hb : m.builtins.find? name = some b) (hpre : m.before = [pre]) :
    callBuiltin ev name form m = (do
      let x ← b.native.run ev name form
      modify fun m : Machine =>
        m.after.foldl (fun m hook => m.log (.after hook name (m.view x) m.depth)) m
      return x : Act Node) (m.log (.before pre name (m.store.viewSeq form) m.depth)) := by
  simp only [callBuiltin, Act.get_bind, hb, Act.modify_bind, hpre]
  rfl

theorem callBuiltin_ok (hb : m.builtins.find? name = some b) (hpre : m.before = [pre])
    (hpost : m'.after = [post])
    (hr : b.native.run ev name form (m.log (.before pre name (m.store.viewSeq form) m.depth)) =
      .ok v m') :
    callBuiltin ev name form m = .ok v (m'.log (.after post name (m'.view v) m'.depth)) := by
  rw [callBuiltin_hooked hb hpre, Act.bind_ok hr]
  simp only [Act.modify_bind, hpost]
  rfl

theorem callBuiltin_error (hb : m.builtins.find? name = some b) (hpre : m.before = [pre])
    (hr : b.native.run ev name form (m.log (.before pre name (m.store.viewSeq form) m.depth)) =
      .error e m') : callBuiltin ev name form m = .error e m' := by
  rw [callBuiltin_hooked hb hpre, Act.bind_error hr]

theorem callActive_ok (hb : m.builtins.find? name = some b)
    (hr : b.native.run ev name form (m.log (.before pre name (m.store.viewSeq form) m.depth)) =
      .ok v m') : callActive pre ev name form m = .ok v { m' with events := m.events } := by
  simp only [callActive, Act.get_bind, hb, Act.modify_bind]
  rw [Act.bind_ok hr]
  rfl

theorem callActive_error (hb : m.builtins.find? name = some b)
    (hr : b.native.run ev name form (m.log (.before pre name (m.store.viewSeq form) m.depth)) =
      .error e m') : callActive pre ev name form m = .error e m' := by
  simp only [callActive, Act.get_bind, hb, Act.modify_bind]
  rw [Act.bind_error hr]

end

theorem traceEvent_calling {E : Halt → Prop} {fits : Nat → Nat → Prop} {f : Machine → Event}
    (traced : ∀ m, (f m).trace?.isSome) :
    Abreast E (Calling pre post base active depth) (Stopped fits pre post base active outer)
      (traceEvent f) (traceEvent f) := by
  refine .modify fun m n h => ?_
  have quiet : (if n.tracing then n.log (f n) else n) = n := by
    rw [h.same]
    rfl
  rw [quiet]
  split
  · refine ⟨h.before, h.after, h.depth_eq, h.same, ?_⟩
    rw [m.hookEvents_log_trace (traced m)]
    exact h.logged
  · exact h

section

variable {E : Halt → Prop} {fits : Nat → Nat → Prop} [DecidableRel fits] {fuel : Nat}
  (hE : ∀ outer depth, fits outer depth ∨ E (.failed (.internal .absentNode)))
  (below : ∀ base active depth outer x, Abreast (E ·.2) (Calling pre post base active depth)
    (Stopped fits pre post base active outer) (evaluateFitting fits fuel outer x)
    (evaluateActive pre fuel x))

include hE below

/-- The call is in the log while the builtin runs, and what it calls fits to its depth. -/
theorem callFitting_calling (name : Name) (form : List Node) :
    Abreast E (Calling pre post base active depth) (Stopped fits pre post base active outer)
      (callFitting fits outer (evaluateFitting fits fuel) name form)
      (callActive pre (evaluateActive pre fuel) name form) := by
  intro m n h
  by_cases hfits : fits outer m.depth
  swap
  · rw [callFitting, if_neg hfits]
    exact .inl ((hE outer m.depth).resolve_left hfits)
  rw [callFitting, if_pos hfits]
  have hn : n.builtins.find? name = m.builtins.find? name := by
    rw [h.same]
    rfl
  cases hb : m.builtins.find? name with
  | none =>
      simp only [callBuiltin, callActive, Act.get_bind, hb, hn]
      exact .inr (.error _ h.stopped)
  | some b =>
      obtain rfl := h.depth_eq
      have hlog : n.log (.before pre name (n.store.viewSeq form) n.depth) =
          n.log (.before pre name (m.store.viewSeq form) m.depth) := by
        rw [h.store, h.depth_same]
      have hrun := apace_calling.abreast_native (below _ _ _ m.depth) b.native name form _ _
        (h.call name (m.store.viewSeq form))
      rw [← hlog] at hrun
      rcases hrun.ends with
        ⟨e, m', hm, he⟩ | ⟨v, m', n', hm, hn', h'⟩ | ⟨e, m', n', hm, hn', h'⟩
      · rw [callBuiltin_error hb h.before hm]
        exact .inl he
      · rw [callBuiltin_ok hb h.before h'.after hm, h'.depth_eq,
          callActive_ok (hn.trans hb) hn']
        exact .inr (.ok v (h.returned h' (m'.view v)))
      · rw [callBuiltin_error hb h.before hm, callActive_error (hn.trans hb) hn']
        exact .inr (.error e (.called h hfits h'))

omit hE in
theorem enter_calling (names : List Name) (values : List Node) (k : Nat) :
    Abreast E (Calling pre post base active depth) (Stopped fits pre post base active outer)
      (enter (evaluateFitting fits fuel outer) names values k)
      (enter (evaluateActive pre fuel) names values k) := by
  refine .bind (traceEvent_calling fun _ => rfl) fun _ m n h => ?_
  have hd : 0 < depth := h.depth_eq ▸ Nat.succ_pos _
  have body := apace_calling.abreast_body (below base active (depth + 1) outer) k _ _
    (h.push (bindParams names values))
  have hm : m.scopes.depth = depth := h.depth_eq
  have hn : n.scopes.depth = depth := h.depth_same.trans h.depth_eq
  refine Machine.Apace.withFrame_matched body (fun m' n' h' => ?_) fun m' n' h' => ?_
  · rw [hm, hn]
    exact h'.truncate hd
  · rw [hm, hn]
    exact h'.truncate depth

theorem evalLayerBy_calling (x : Node) :
    Abreast (E ·.2) (Calling pre post base active depth) (Stopped fits pre post base active outer)
      (evalLayerBy (callFitting fits outer (evaluateFitting fits fuel))
        (evaluateFitting fits fuel outer) x)
      (evalLayerBy (callActive pre (evaluateActive pre fuel)) (evaluateActive pre fuel) x) := by
  intro m n h
  refine apace_calling.evalLayerBy_matched h x (fun c _ => ?_) fun name _ => by rw [h.scopes]
  exact apace_calling.abreast_evalListBy
    ⟨below base active depth outer, enter_calling below⟩ (callFitting_calling hE below)
    (fun form => traceEvent_calling fun _ => rfl) c m n h

variable (E) in
omit below in
theorem evaluateFitting_calling (fuel : Nat) (base : List Event) (active : Array Event)
    (depth outer : Nat) (x : Node) :
    Abreast (E ·.2) (Calling pre post base active depth) (Stopped fits pre post base active outer)
      (evaluateFitting fits fuel outer x) (evaluateActive pre fuel x) := by
  induction fuel generalizing base active depth outer x with
  | zero => exact .throw Calling.stopped _
  | succ fuel ih => exact evalLayerBy_calling hE ih x

end

theorem evalTextBy_calling {E : Halt → Prop} {fits : Nat → Nat → Prop} {ev ev' : Evaluator}
    (hev : ∀ x, Abreast (E ·.2) (Calling pre post base active depth)
      (Stopped fits pre post base active outer) (ev x) (ev' x)) (text : String) :
    Abreast E (Calling pre post base active depth) (Stopped fits pre post base active outer)
      (Machine.evalTextBy ev text) (Machine.evalTextBy ev' text) :=
  .bind (.ofExcept Calling.stopped _) fun _ => .bind (apace_calling.abreast_storeGet _) fun x =>
    apace_calling.abreast_evalCopy hev x

/-- How an action ends on a machine, if `es` is what the hooks log, and how it ends when only the
calls that are going on are logged, if `calls` are left. -/
structure Hooked {ε α : Type} (pre post : String) (m : Machine) (r s : EStateM.Result ε Machine α)
    (es : List Event) (calls : Array Event) : Prop where
  same : s = carry (·.calling calls) r
  logged : (endOf r).hookEvents = m.hookEvents ++ es
  success : ∀ v m', r = .ok v m' → calls = #[] ∧ Bracketed pre post es
  failure : ∀ e m', r = .error e m' →
    Pending pre post calls.toList es ∧ ∃ rest, Bracketed pre post (es ++ rest)

section

variable {ε α : Type} {a b : EStateM ε Machine α} {fits : Nat → Nat → Prop}

theorem Hooked.events {r s : EStateM.Result ε Machine α} {calls : Array Event}
    (h : Hooked pre post m r s es calls) : (endOf s).events = calls := by
  rw [h.same]
  cases r <;> rfl

theorem calling_start (hpre : m.before = [pre]) (hpost : m.after = [post]) :
    Calling pre post m.hookEvents #[] m.depth m (m.calling #[]) :=
  ⟨hpre, hpost, rfl, rfl, [], (List.append_nil _).symm, .nil⟩

theorem hooked_of_abreast (hpre : m.before = [pre]) (hpost : m.after = [post])
    (h : Abreast (fun _ => False) (Calling pre post m.hookEvents #[] m.depth)
      (Stopped fits pre post m.hookEvents #[] outer) a b) :
    ∃ es calls, Hooked pre post m (a m) (b (m.calling #[])) es calls := by
  rcases (h _ _ (calling_start hpre hpost)).ends with
    ⟨_, _, _, he⟩ | ⟨v, m', n', ha, hb, h'⟩ | ⟨e, m', n', ha, hb, h'⟩
  · exact he.elim
  · obtain ⟨es, hes, hbracketed⟩ := h'.logged
    rw [ha, hb, h'.same]
    exact ⟨es, #[], rfl, hes, fun _ _ _ => ⟨rfl, hbracketed⟩, fun _ _ hr => by cases hr⟩
  · obtain ⟨calls, es, rfl, hes, hpending, _⟩ := h'
    rw [ha, hb, Array.empty_append]
    exact ⟨es, calls.toArray, rfl, hes, fun _ _ hr => (by cases hr),
      fun _ _ _ => ⟨hpending, hpending.exists_bracketed⟩⟩

/-- If no call breaks off, the depths of the calls that are left open fit to one another. -/
theorem isChain_of_abreast {E : ε → Prop} (hpre : m.before = [pre]) (hpost : m.after = [post])
    (h : Abreast E (Calling pre post m.hookEvents #[] m.depth)
      (Stopped fits pre post m.hookEvents #[] outer) a b) (ha : ¬ Fails E (a m)) :
    IsChain fits (outer :: (endOf (b (m.calling #[]))).events.toList.map Event.depth) := by
  rcases (h _ _ (calling_start hpre hpost)).ends with
    ⟨e, m', hr, he⟩ | ⟨v, m', n', _, hb, h'⟩ | ⟨e, m', n', _, hb, h'⟩
  · rw [hr] at ha
    exact absurd he ha
  · rw [hb, h'.same]
    exact .singleton outer
  · obtain ⟨calls, es, rfl, _, _, hchain⟩ := h'
    rw [hb]
    simpa [endOf, Machine.calling] using hchain

end

end CellScheme
