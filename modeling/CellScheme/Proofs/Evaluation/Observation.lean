import CellScheme.Proofs.Evaluation.Blind
import CellScheme.Proofs.Lawful.Runs

/-!
Tracing and hooks only write to the log. An evaluation that is watched is the evaluation that is
not, and its trace has one line for each special form that is entered and one for each body that is
run. What is entered and run is told by an evaluator that takes notes where evaluations begin, on a
machine that neither traces nor has hooks.
-/

namespace CellScheme

namespace Machine

/-- The same machine under other settings of trace and hooks. -/
def observed (m : Machine) (tracing : Bool) (before after : List String) : Machine :=
  { m with tracing, before, after }

/-- The same machine with this log, and with nothing that would write to it. -/
def unobserved (es : Array Event) (m : Machine) : Machine :=
  { m with tracing := false, before := [], after := [], events := es }

/-- The lines of the trace so far. -/
def traceLines (m : Machine) : List String :=
  m.events.toList.filterMap Event.trace?

theorem unobserved_foldl_log (es : Array Event) (e : String → Event) (hooks : List String)
    (m : Machine) : (hooks.foldl (fun m hook => m.log (e hook)) m).unobserved es =
      m.unobserved es := by
  induction hooks generalizing m with
  | nil => rfl
  | cons hook hooks ih => exact ih (m.log (e hook))

theorem blind_unobserved (es : Array Event) : Blind (·.unobserved es) where
  store _ := rfl
  scopes _ := rfl
  builtins _ := rfl
  limit _ := rfl
  setStore _ _ := rfl
  setScopes _ _ := rfl
  define _ _ _ := rfl
  trace m e _ := by
    change unobserved es _ = if false = true then _ else _
    rw [if_neg Bool.false_ne_true]
    split <;> rfl
  hooksBefore m e _ := unobserved_foldl_log es e m.before m
  hooksAfter m e _ := unobserved_foldl_log es e m.after m

end Machine

/-- What is noted: a special form, or a call without what is called, and how many frames there are.
-/
inductive Note where
  | form (depth : Nat) (elements : List Datum)
  | call (depth : Nat)

namespace Note

/-- What a trace line says that was noted. Two spaces stand for each frame above the global one. -/
def Shown : Note → String → Prop
  | .form depth elements, line =>
    line = String.ofList (List.replicate (2 * (depth - 1)) ' ') ++
      ("special form " ++ Datum.printForm elements) ++ "\n"
  | .call depth, line =>
    ∃ params args, line = String.ofList (List.replicate (2 * (depth - 1)) ' ') ++
      ("apply (" ++ Name.spaced params ++ ") <- " ++ Datum.printSeq args) ++ "\n"

/-- How a note is kept in a log to which nothing else is written. -/
def event : Note → Event
  | .form depth elements => .special depth elements
  | .call depth => .applied depth [] []

end Note

namespace Machine

/-- The same machine with these notes, and with nothing else that would write to its log. -/
def noting (notes : List Note) (m : Machine) : Machine :=
  m.unobserved (notes.map Note.event).toArray

def note (m : Machine) (n : Note) : Machine :=
  { m with events := m.events.push n.event }

end Machine

def Machine.specialForm? (m : Machine) : Node → Option (List Node)
  | .list c =>
    match m.store.elements c with
    | [] => none
    | head :: args => if (SpecialForm.ofHead? head).isSome then some (head :: args) else none
  | _ => none

/-- Note a call if the body of a procedure begins, which is known by a new frame. -/
def noteCall (outer : Nat) : PlaceAct Unit :=
  modify fun m => if outer < m.depth then m.note (.call outer) else m

/-- Note a special form if one begins. -/
def noteForm (x : Node) : PlaceAct Unit :=
  modify fun m =>
    match m.specialForm? x with
    | some form => m.note (.form m.depth (m.store.viewSeq form))
    | none => m

/-- Evaluation that takes notes where evaluations begin. The number of frames where the evaluation
around it began is `outer`. -/
def evaluateNoting : Nat → Nat → Evaluator
  | 0, outer, x => do
    noteCall outer
    throw (x, .starved)
  | fuel + 1, outer, x => do
    noteCall outer
    noteForm x
    let m ← get
    evalLayer (evaluateNoting fuel m.depth) x

/-- The first machine traces. It differs from the second in what watches evaluation, and its trace
since `earlier` shows the notes of the second. -/
structure Noted (earlier : List String) (depth : Nat) (m n : Machine) : Prop where
  tracing : m.tracing = true
  depth_eq : m.depth = depth
  same : n = m.unobserved n.events
  shown : ∃ notes lines, n.events = (notes.map Note.event).toArray ∧
    m.traceLines = earlier ++ lines ∧ List.Forall₂ Note.Shown notes lines

namespace Noted

variable {earlier : List String} {depth : Nat} {m n : Machine}

/-- Both machines may change alike, besides their logs and what writes to them. -/
theorem congr (h : Noted earlier depth m n) {f : Machine → Machine}
    (tracing : ∀ m, (f m).tracing = m.tracing) (events : ∀ m, (f m).events = m.events)
    (unobserved : ∀ m es, f (m.unobserved es) = (f m).unobserved es) :
    Noted earlier (f m).depth (f m) (f n) where
  tracing := (tracing m).trans h.tracing
  depth_eq := rfl
  same := by
    rw [events n]
    conv_lhs => rw [h.same]
    exact unobserved m _
  shown := by
    rw [events n, Machine.traceLines, events m]
    exact h.shown

theorem logged (h : Noted earlier depth m n) {f : Machine → String → Event}
    (untraced : ∀ m hook, (f m hook).trace? = none) (hooks : List String) :
    Noted earlier depth (hooks.foldl (fun m hook => m.log (f m hook)) m) n := by
  induction hooks generalizing m with
  | nil => exact h
  | cons hook hooks ih =>
      refine ih ⟨h.tracing, h.depth_eq, h.same, ?_⟩
      have lines : (m.log (f m hook)).traceLines = m.traceLines := by
        simp [Machine.traceLines, Machine.log, untraced]
      rw [lines]
      exact h.shown

theorem log (h : Noted earlier depth m n) {e : Event} {note : Note} {line : String}
    (he : e.trace? = some line) (hn : note.Shown line) :
    Noted earlier depth (m.log e) (n.note note) := by
  obtain ⟨notes, lines, hnotes, hl, hs⟩ := h.shown
  refine ⟨h.tracing, h.depth_eq, ?_, notes ++ [note], lines ++ [line], ?_, ?_, ?_⟩
  · conv_lhs => rw [h.same]
    rfl
  · simp [Machine.note, hnotes]
  · rw [Machine.traceLines] at hl
    simp [Machine.traceLines, Machine.log, hl, he]
  · exact List.rel_append hs (.cons hn .nil)

theorem store (h : Noted earlier depth m n) : n.store = m.store := by
  rw [h.same]
  rfl

theorem scopes (h : Noted earlier depth m n) : n.scopes = m.scopes := by
  rw [h.same]
  rfl

theorem depth_same (h : Noted earlier depth m n) : n.depth = m.depth :=
  congrArg Scopes.depth h.scopes

end Noted

theorem parallel_noted (earlier : List String) (depth : Nat) :
    Machine.Parallel (fun _ => False) (Noted earlier depth) where
  store h := h.store
  setStore h st := h.depth_eq ▸ h.congr (f := fun m => { m with store := st }) (fun _ => rfl)
    (fun _ => rfl) fun _ _ => rfl
  define h name x := h.depth_eq ▸ h.congr (f := (·.define name x)) (fun _ => rfl) (fun _ => rfl)
    fun _ _ => rfl
  builtins h name := .inl (by rw [h.same]; rfl)
  deep h := .inl ⟨by rw [h.same]; rfl, h.depth_same⟩
  before {m n} h name form := by
    have none : n.before = [] := by rw [h.same]; rfl
    rw [none]
    exact h.logged (fun _ _ => rfl) m.before
  after {m n} h name x := by
    have none : n.after = [] := by rw [h.same]; rfl
    rw [none]
    exact h.logged (fun _ _ => rfl) m.after

theorem traceEvent_of_tracing {m : Machine} (h : m.tracing = true) (f : Machine → Event) :
    traceEvent f m = .ok () (m.log (f m)) := by
  have e : traceEvent f m = .ok () (if m.tracing then m.log (f m) else m) := rfl
  rw [e, if_pos h]

theorem traceEvent_of_not_tracing {m : Machine} (h : m.tracing = false) (f : Machine → Event) :
    traceEvent f m = .ok () m := by
  have e : traceEvent f m = .ok () (if m.tracing then m.log (f m) else m) := rfl
  rw [e, if_neg (by rw [h]; exact Bool.false_ne_true)]

theorem noteCall_eq (outer : Nat) (m : Machine) : noteCall outer m =
    .ok () (if outer < m.depth then m.note (.call outer) else m) := rfl

theorem evaluateNoting_body (fuel : Nat) {outer : Nat} {n : Machine} (hn : n.depth = outer + 1)
    (x : Node) : evaluateNoting fuel outer x n =
      evaluateNoting fuel (outer + 1) x (n.note (.call outer)) := by
  have note : noteCall outer n = .ok () (n.note (.call outer)) := by
    rw [noteCall_eq, if_pos (by omega)]
  have idle : noteCall (outer + 1) (n.note (.call outer)) =
      .ok () (n.note (.call outer)) := by
    have hd : (n.note (.call outer)).depth = outer + 1 := hn
    rw [noteCall_eq, if_neg (by omega)]
  cases fuel <;> rw [evaluateNoting, evaluateNoting, Act.bind_ok note, Act.bind_ok idle]

theorem evalCopy_noting_body (fuel : Nat) {outer : Nat} {n : Machine} (hn : n.depth = outer + 1)
    (x : Node) : Act.evalCopy (evaluateNoting fuel outer) x n =
      Act.evalCopy (evaluateNoting fuel (outer + 1)) x (n.note (.call outer)) := by
  have h := evaluateNoting_body fuel (n := { n with store := n.store.share x }) hn x
  rw [Act.evalCopy, Act.evalCopy, Act.clone_bind, Act.clone_bind]
  simp only [EStateM.adaptExcept]
  rw [h]
  rfl

namespace Noted

variable {earlier : List String} {depth : Nat} {m n : Machine}

theorem not_tracing (h : Noted earlier depth m n) : n.tracing = false := by
  rw [h.same]
  rfl

theorem noteCall (h : Noted earlier depth m n) : noteCall depth n = .ok () n := by
  rw [noteCall_eq, h.depth_same, h.depth_eq, if_neg (Nat.lt_irrefl _)]

theorem push (h : Noted earlier depth m n) (f : Frame) :
    Noted earlier (depth + 1) (m.push f).1 (n.push f).1 := by
  have hd : (m.push f).1.depth = depth + 1 := congrArg Nat.succ h.depth_eq
  exact hd ▸ h.congr (f := fun m => (m.push f).1) (fun _ => rfl) (fun _ => rfl) fun _ _ => rfl

theorem truncate (h : Noted earlier (depth + 1) m n) (hd : 0 < depth) :
    Noted earlier depth (m.truncate depth) (n.truncate depth) := by
  have h' := h.congr (f := (·.truncate depth)) (fun _ => rfl) (fun _ => rfl) fun _ _ => rfl
  rw [Machine.depth_truncate h.depth_eq hd] at h'
  exact h'

end Noted

theorem noteForm_eq (x : Node) (m : Machine) : noteForm x m =
    .ok () (match m.specialForm? x with
      | some form => m.note (.form m.depth (m.store.viewSeq form))
      | none => m) := rfl

theorem noteForm_keeps_depth (x : Node) (m : Machine) :
    ∃ m', noteForm x m = .ok () m' ∧ m'.depth = m.depth := by
  rw [noteForm_eq]
  split
  · exact ⟨_, rfl, rfl⟩
  · exact ⟨m, rfl, rfl⟩

theorem evalList_of_not_special {m : Machine} {c : Nat} (h : m.specialForm? (.list c) = none)
    (ev : Evaluator) :
    evalList ev c m =
      match m.store.elements c with
      | [] => .error (.list c, .failed (.runtime .missingProcedure)) m
      | form => (do
        let c ← Act.leaving (.list c) (Act.storeGet (·.ownSeq c))
        evalElements ev c 0 form
        callHead ev c : PlaceAct Node) m := by
  simp only [evalList, Act.get_bind]
  rw [Machine.specialForm?] at h
  cases hform : m.store.elements c with
  | nil => rfl
  | cons head args =>
      simp only [hform] at h
      cases hhead : SpecialForm.ofHead? head with
      | none => simp only [hhead]
      | some f => simp [hhead] at h

theorem evalLayer_of_special {m : Machine} {x : Node} {form : List Node}
    (h : m.specialForm? x = some form) :
    ∃ f, ∀ (ev : Evaluator) (n : Machine), n.store = m.store →
      evalLayer ev x n = Act.leaving x (SpecialForm.run ev f form)
        (if n.tracing then n.log (.special n.depth (n.store.viewSeq form)) else n) := by
  cases x with
  | list c =>
      rw [Machine.specialForm?] at h
      cases hform : m.store.elements c with
      | nil => simp [hform] at h
      | cons head args =>
          cases hhead : SpecialForm.ofHead? head with
          | none => simp [hform, hhead] at h
          | some f =>
              simp only [hform, hhead, Option.isSome_some, if_true, Option.some.injEq] at h
              subst h
              refine ⟨f, fun ev n hn => ?_⟩
              rw [← hn] at hform
              simp only [evalLayer, evalList, Act.get_bind, hform, hhead]
              rfl
  | int _ | bool _ | lambda _ _ _ | builtin _ | symbol _ | quote _ => cases h

section

variable {earlier : List String} {ev : Evaluator} {fuel : Nat}
  (below : ∀ depth x, InStep (fun _ => False) (Noted earlier depth) (ev x)
    (evaluateNoting fuel depth x))

include below

theorem enter_noted (depth : Nat) (names : List Name) (values : List Node) (k : Nat) :
    InStep (fun _ => False) (Noted earlier depth) (enter ev names values k)
      (enter (evaluateNoting fuel depth) names values k) := by
  intro m n h
  have hd : 0 < depth := h.depth_eq ▸ Nat.succ_pos _
  rw [enter, enter, Act.bind_ok (traceEvent_of_tracing h.tracing _),
    Act.bind_ok (traceEvent_of_not_tracing h.not_tracing _)]
  refine Machine.Parallel.withFrame_alike (S := Noted earlier (depth + 1)) ?_ fun m' n' h' => ?_
  · have shown : (Note.call depth).Shown (Event.indented m.depth
        ("apply (" ++ Name.spaced names ++ ") <- " ++ Datum.printSeq (m.store.viewSeq values))) :=
      ⟨names, m.store.viewSeq values, by rw [h.depth_eq, Event.indented]⟩
    have noted : Noted earlier (depth + 1)
        ((m.log (.applied m.depth names (m.store.viewSeq values))).push
          (bindParams names values)).1
        ((n.note (.call depth)).push (bindParams names values)).1 :=
      (h.log rfl shown).push _
    have body : (do Act.evalCopy (evaluateNoting fuel depth) ((← Act.read (·.store)).payload k))
          (n.push (bindParams names values)).1 =
        (do Act.evalCopy (evaluateNoting fuel (depth + 1)) ((← Act.read (·.store)).payload k))
          ((n.note (.call depth)).push (bindParams names values)).1 := by
      have hn : (n.push (bindParams names values)).1.depth = depth + 1 :=
        congrArg Nat.succ (h.depth_same.trans h.depth_eq)
      rw [Act.read_bind, Act.read_bind, evalCopy_noting_body fuel hn]
      rfl
    rw [body]
    exact (parallel_noted earlier (depth + 1)).abreast_body (below (depth + 1)) k _ _ noted
  · have hm : (m.log (.applied m.depth names (m.store.viewSeq values))).scopes.depth = depth :=
      h.depth_eq
    have hn : n.scopes.depth = depth := h.depth_same.trans h.depth_eq
    rw [hm, hn]
    exact h'.truncate hd

theorem evalLayer_noted (depth : Nat) {m n : Machine} (h : Noted earlier depth m n) (x : Node) :
    AlikeUnless (fun _ => False) (Noted earlier depth) (evalLayer ev x m)
      ((noteForm x >>= fun _ => evalLayer (evaluateNoting fuel depth) x) n) := by
  have p := parallel_noted earlier depth
  have both : InStepBelow (fun _ => False) (Noted earlier depth) ev (evaluateNoting fuel depth) :=
    ⟨below depth, enter_noted below depth⟩
  have hsame : n.specialForm? x = m.specialForm? x := by
    cases x <;> simp only [Machine.specialForm?, h.store]
  cases hs : m.specialForm? x with
  | none =>
      have note : noteForm x n = .ok () n := by
        rw [noteForm_eq, hsame, hs]
      rw [Act.bind_ok note]
      refine p.evalLayer_alike h x (fun c hc => ?_) fun name _ => by rw [h.scopes]
      subst hc
      rw [evalList_of_not_special hs, evalList_of_not_special (hsame.trans hs), h.store]
      cases m.store.elements c with
      | nil => exact .inr (.error _ h)
      | cons head args => exact p.inStep_call both c (head :: args) m n h
  | some form =>
      have note : noteForm x n = .ok () (n.note (.form n.depth (n.store.viewSeq form))) := by
        rw [noteForm_eq, hsame, hs]
      obtain ⟨f, heval⟩ := evalLayer_of_special hs
      have noted : Noted earlier depth (m.log (.special m.depth (m.store.viewSeq form)))
          (n.note (.form n.depth (n.store.viewSeq form))) := by
        rw [h.store, h.depth_same]
        exact h.log rfl rfl
      rw [Act.bind_ok note, heval ev m rfl, if_pos h.tracing, heval (evaluateNoting fuel depth)
        (n.note _) h.store, if_neg (by rw [noted.not_tracing]; exact Bool.false_ne_true)]
      exact (p.abreast_form (below depth) f form).leaving x _ _ noted

end

theorem evaluate_noted (earlier : List String) (fuel depth : Nat) (x : Node) :
    InStep (fun _ => False) (Noted earlier depth) (evaluate fuel x)
      (evaluateNoting fuel depth x) := by
  induction fuel generalizing depth x with
  | zero =>
      intro m n h
      rw [evaluateNoting, Act.bind_ok h.noteCall]
      exact .inr (.error _ h)
  | succ fuel ih =>
      intro m n h
      have hl := evalLayer_noted ih depth h x
      obtain ⟨n', hn', hd⟩ := noteForm_keeps_depth x n
      rw [evaluateNoting, Act.bind_ok h.noteCall, Act.bind_ok hn', Act.get_bind, hd, h.depth_same,
        h.depth_eq]
      rw [Act.bind_ok hn'] at hl
      exact hl

/-- The machine on which a run ends. -/
def endOf {ε α : Type} : EStateM.Result ε Machine α → Machine
  | .ok _ m => m
  | .error _ m => m

theorem shown_of_inStep {ε α : Type} {m : Machine} {a b : EStateM ε Machine α}
    (ht : m.tracing = true)
    (h : InStep (fun _ => False) (Noted m.traceLines m.depth) a b) :
    ∃ notes lines, b (m.noting []) = carry (·.noting notes) (a m) ∧
      (endOf (a m)).traceLines = m.traceLines ++ lines ∧ List.Forall₂ Note.Shown notes lines := by
  have start : Noted m.traceLines m.depth m (m.noting []) :=
    ⟨ht, rfl, rfl, [], [], rfl, (List.append_nil _).symm, .nil⟩
  rcases (h _ _ start).ends with ⟨_, _, _, he⟩ | ⟨v, m', n', ha, hb, h'⟩ | ⟨e, m', n', ha, hb, h'⟩
  · exact he.elim
  · obtain ⟨notes, lines, hnotes, hl, hs⟩ := h'.shown
    refine ⟨notes, lines, ?_, ?_, hs⟩
    · rw [ha, hb, carry, Machine.noting, ← hnotes, ← h'.same]
    · rw [ha]
      exact hl
  · obtain ⟨notes, lines, hnotes, hl, hs⟩ := h'.shown
    refine ⟨notes, lines, ?_, ?_, hs⟩
    · rw [ha, hb, carry, Machine.noting, ← hnotes, ← h'.same]
    · rw [ha]
      exact hl

/-- Whatever the machine, the hooks and the expression, evaluation that is traced and calls hooks
ends as evaluation does that is neither: with the same value or the same failure, which leaves the
same in the place, and on the same machine but for the log. What it adds to the trace are lines, one
for each note that is taken where a special form or the body of a procedure begins, in this order,
each indented by two spaces for each frame above the global one. -/
theorem evaluate_observed (m : Machine) (before after : List String) (fuel : Nat) :
    (∀ x, evaluate fuel x (m.observed false [] []) =
      carry (·.unobserved m.events) (evaluate fuel x (m.observed true before after))) ∧
    (∀ text, Machine.evalText fuel text (m.observed false [] []) =
      carry (·.unobserved m.events)
        (Machine.evalText fuel text (m.observed true before after))) ∧
    (∀ x, ∃ notes lines,
      evaluateNoting fuel m.depth x (m.noting []) =
        carry (·.noting notes) (evaluate fuel x (m.observed true before after)) ∧
      (endOf (evaluate fuel x (m.observed true before after))).traceLines =
        m.traceLines ++ lines ∧
      List.Forall₂ Note.Shown notes lines) ∧
    ∀ text, ∃ notes lines,
      Machine.evalTextBy (evaluateNoting fuel m.depth) text (m.noting []) =
        carry (·.noting notes) (Machine.evalText fuel text (m.observed true before after)) ∧
      (endOf (Machine.evalText fuel text (m.observed true before after))).traceLines =
        m.traceLines ++ lines ∧
      List.Forall₂ Note.Shown notes lines := by
  have blind := Machine.blind_unobserved m.events
  have quiet : m.observed false [] [] = (m.observed true before after).unobserved m.events := rfl
  have noted := evaluate_noted m.traceLines fuel m.depth
  refine ⟨fun x => ?_, fun text => ?_, fun x => ?_, fun text => ?_⟩
  · rw [quiet]
    exact blind.passes_evaluate fuel x _
  · rw [quiet]
    exact blind.passes_evalText fuel text _
  · exact shown_of_inStep (m := m.observed true before after) rfl (noted x)
  · refine shown_of_inStep (m := m.observed true before after) rfl ?_
    have p := parallel_noted m.traceLines m.depth
    exact .bind (.ofExcept id _) fun d =>
      .bind (p.abreast_storeGet _) fun x => p.abreast_evalCopy noted x

example :
    (endOf (Machine.evalText 5 "((lambda (x) (or x)) 7)"
      (Machine.blank.observed true [] []))).traceLines =
      ["special form (lambda (x) (or x))\n", "apply (x) <- 7\n", "  special form (or x)\n"] := by
  decide +kernel

end CellScheme
