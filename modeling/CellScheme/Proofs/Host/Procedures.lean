import CellScheme.Proofs.Host.Evaluation
import CellScheme.Proofs.Host.Operations

/-!
What a call leaves of the procedure that it is given. The arguments go into the sequence of those
bound before. A procedure that shares this sequence keeps the old one, since the call moves to a
copy; one that alone holds it is taken over by the call, and has the arguments afterwards, whether
the call returned or failed.
-/

namespace CellScheme

open Store (Agree Reach)

variable {m : Machine} {aside : Set Cell} {F : Multiset Cell} {ev : Evaluator}
  {tev : Tree.Evaluator} {b p k : Nat} {args : List Node}

/-- A procedure refuses arguments: whatever the fuel, it says how many it takes, and the machine
stays as it is. -/
def Machine.Refuses (m : Machine) (f : Node) (args : List Node) : Prop :=
  ∀ fuel, Machine.apply fuel f args m =
    .error (.failed (.runtime (.tooManyArguments (m.arity f) args.length))) m

theorem applyLambda_refused (ev : Evaluator) (k : Nat) (h : m.store.arity b p < args.length) :
    applyLambda ev b p k args m =
      .error (.failed (.runtime (.tooManyArguments (m.store.arity b p) args.length))) m := by
  simp only [applyLambda, Act.read_bind, if_pos h]
  rfl

theorem callBound_not_refused {n : Int} {count : Nat} {m' : Machine} :
    callBound (evaluate 0) b p k m ≠
      .error (.failed (.runtime (.tooManyArguments n count))) m' := by
  intro h
  simp only [callBound, Act.get_bind] at h
  split at h
  · cases h
  · split at h
    · cases h
    · split at h
      · cases h
      · obtain ⟨es, he⟩ := traceEvent_apply
          (fun m' => .applied m'.depth (m.store.params p) (m'.store.viewSeq (m.store.elements b)))
          { m with store := m.store.shareAll (m.store.elements b) }
        rw [Act.store_bind, Act.bind_ok he] at h
        cases h

theorem Machine.refuses_lambda_iff :
    m.Refuses (.lambda b p k) args ↔ m.arity (.lambda b p k) < args.length := by
  refine ⟨fun h => ?_, fun h fuel => applyLambda_refused _ k h⟩
  by_contra hm
  have starved := h 0
  rw [Machine.apply, applyLambda_eq _ k hm] at starved
  exact callBound_not_refused starved

theorem Store.Sound.procedure_congr {st st' : Store}
    (h : st.Sound aside ((Node.lambda b p k).cells + F)) (h' : st'.Grounded)
    (agrees : ∀ {c : Cell}, Reach st ((Node.lambda b p k).cells + F) c →
      st'.Allocated c ∧ Agree st st' c) :
    st'.view (.lambda b p k) = st.view (.lambda b p k) ∧ st'.arity b p = st.arity b p := by
  have holds {c : Cell} (hc : c ∈ (Node.lambda b p k).cells) :
      Reach st ((Node.lambda b p k).cells + F) c := .root (Multiset.mem_add.mpr (.inl hc))
  have bound := (agrees (holds (c := .seq b) (by simp [Node.cells]))).2.elements_eq
  have params := (agrees (holds (c := .names p) (by simp [Node.cells]))).2.params_eq
  refine ⟨h.grounded.view_congr h' (fun c hc => h.allocated (holds hc))
    (fun c hc => (agrees (holds hc)).1)
    fun c hc => (agrees (hc.mono (Multiset.subset_of_le (Multiset.le_add_right _ _)))).2, ?_⟩
  rw [Store.arity, Store.arity, bound, params]

section

variable (hev : Faithful ev tev) (h : m.Sound False aside (Node.lambda b p k).cells F)
  (ha : ∀ x ∈ args, m.store.Visible ((Node.lambda b p k).cells + F) x)

include hev h ha

theorem applyLambda_spares
    (hb : m.store.arity b p < args.length ∨ args = [] ∨ m.store.seqs.holders b ≠ 1) :
    let st' := (m.run (applyLambda ev b p k args)).2.store
    st'.view (.lambda b p k) = m.store.view (.lambda b p k) ∧
      st'.arity b p = m.store.arity b p := by
  intro st'
  by_cases hm : m.store.arity b p < args.length
  · have e : st' = m.store := by simp only [st', Machine.run, applyLambda_refused ev k hm]
    exact e ▸ ⟨rfl, rfl⟩
  have moves := hb.resolve_left hm
  have hs := Store.sound_lambda_iff.mp h.store
  rw [Store.lambda_cells_add] at ha
  have join : m.store.MayJoin b (({.names p} + {.node k}) + F) args :=
    fun x hx => ⟨ha x hx, fun one => absurd one (moves.resolve_left (List.ne_nil_of_mem hx))⟩
  have agrees {c : Cell} (hc : Reach m.store ((Node.lambda b p k).cells + F) c) :
      st'.Allocated c ∧ Agree m.store st' c := by
    by_cases hargs : args = []
    · subst hargs
      exact applyLambda_agrees hev h join hm (.inl hc)
    · refine applyLambda_moved hev h join hm (fun he => ?_) hc
      exact moves.resolve_left hargs ((hs.appendShared_snd_eq_iff.mp he).resolve_left hargs)
  exact h.store.procedure_congr (applyLambda_grounded hev h join hm) agrees

theorem applyLambda_takes (hm : ¬ m.store.arity b p < args.length)
    (one : m.store.seqs.holders b = 1) (apart : ∀ x ∈ args, .seq b ∉ x.cells) :
    let st' := (m.run (applyLambda ev b p k args)).2.store
    st'.view (.lambda b p k) = .lambda (m.store.viewSeq (m.store.elements b ++ args))
        (m.store.params p) (m.store.view (m.store.payload k)) ∧
      st'.arity b p = m.store.arity b p - args.length := by
  intro st'
  have hs := Store.sound_lambda_iff.mp h.store
  rw [Store.lambda_cells_add] at ha
  have join : m.store.MayJoin b (({.names p} + {.node k}) + F) args :=
    fun x hx => ⟨ha x hx, fun _ => apart x hx⟩
  have w := hs.appendShared join
  have own : (m.store.appendShared b args).2 = b := hs.appendShared_snd_eq_iff.mpr (.inr one)
  have joined := h.joined join
  have agrees {c : Cell} := applyLambda_agrees (c := c) hev h join hm
  rw [own] at w joined agrees
  obtain ⟨view, arity⟩ := joined.store.procedure_congr (applyLambda_grounded hev h join hm)
    fun hc => agrees (.inl hc)
  have params := (w.keeps.reach (.names p) (.root (by simp))).params_eq
  refine ⟨view.trans (w.view_lambda (hs.forget (Multiset.le_add_left _ _))), ?_⟩
  rw [arity, Store.arity, Store.arity, w.elements, params, List.length_append]
  omega

end

namespace Host

/-- In every state of a host, for a procedure that a handle is on and arguments that this handle,
the others and the names lead to, however the call ends: a call that is refused, that brings no
argument, or whose procedure shares the sequence of its bound arguments, leaves the procedure as it
was, and what it refuses. If the handle alone holds this sequence, the call takes the procedure
over: the arguments, none of which is on the sequence itself, are behind those bound before, as many
fewer are missing, and the parameters and the body are as they were. -/
theorem apply_takes_over (table : Named Builtin) (limit : Int) (tracing : Bool)
    (before after : List String) (ops : List HostOp) (fuel : Nat) :
    let h := (start table limit tracing before after).performAll ops
    ∀ g b p k, h.handles.find? g = some (.lambda b p k) → ∀ args : List Node,
      let m := h.machine
      let f := Node.lambda b p k
      (∀ x ∈ args, m.store.Visible (f.cells + h.rootsBesides (some g)) x) →
      let m' := (m.run (Machine.apply fuel f args)).2
      (m.Refuses f args ∨ args = [] ∨ m.store.seqs.holders b ≠ 1 →
        m'.view f = m.view f ∧ m'.arity f = m.arity f ∧
          ∀ more, m'.Refuses f more ↔ m.Refuses f more) ∧
      (¬ m.Refuses f args → m.store.seqs.holders b = 1 → (∀ x ∈ args, .seq b ∉ x.cells) →
        ∃ bound params body, m.view f = .lambda bound params body ∧
          m'.view f = .lambda (bound ++ m.store.viewSeq args) params body ∧
          m'.arity f = m.arity f - args.length ∧
          ∀ more, m'.Refuses f more ↔ m.arity f < args.length + more.length) := by
  intro h g b p k hx args m f ha m'
  have hs : h.Sound := (sound_start table limit tracing before after).performAll ops
  have hm : m.Sound False ∅ f.cells (h.rootsBesides (some g)) := hs.consumed False.elim hx
  refine ⟨fun hb => ?_, fun hr one apart => ?_⟩
  · rw [Machine.refuses_lambda_iff] at hb
    obtain ⟨view, arity⟩ := applyLambda_spares (evaluate_faithful fuel) hm ha hb
    have same : m'.arity f = m.arity f := arity
    refine ⟨view, same, fun more => ?_⟩
    rw [Machine.refuses_lambda_iff, Machine.refuses_lambda_iff, same]
  · rw [Machine.refuses_lambda_iff] at hr
    obtain ⟨view, arity⟩ := applyLambda_takes (evaluate_faithful fuel) hm ha hr one apart
    have fewer : m'.arity f = m.arity f - args.length := arity
    have join : m.store.viewSeq (m.store.elements b ++ args) =
        m.store.viewSeq (m.store.elements b) ++ m.store.viewSeq args := List.map_append
    rw [join] at view
    refine ⟨_, _, _, hm.store.view_lambda .root, view, fewer, fun more => ?_⟩
    rw [Machine.refuses_lambda_iff, fewer]
    omega

theorem apply_takes_over_pair :
    let h := (start .empty 0 false [] []).performAll
      [.make "f" (.lambda ["x", "y"] (.tree (.symbol "x"))),
        .make "s" (.lambda ["x"] (.tree (.symbol "y"))), .make "t" (.clone "s")]
    let m := h.machine
    (h.handles.find? "f" = some (.lambda 0 0 0) ∧ m.store.seqs.holders 0 = 1 ∧
      let m' := (m.run (Machine.apply 2 (.lambda 0 0 0) [.int 5])).2
      m'.view (.lambda 0 0 0) = .lambda [.int 5] ["x", "y"] (.symbol "x") ∧
      m'.arity (.lambda 0 0 0) = 1 ∧ m'.Refuses (.lambda 0 0 0) [.int 5, .int 5]) ∧
    h.handles.find? "s" = some (.lambda 1 1 1) ∧ m.store.seqs.holders 1 = 2 ∧
      let m' := (m.run (Machine.apply 2 (.lambda 1 1 1) [.int 5])).2
      m'.view (.lambda 1 1 1) = .lambda [] ["x"] (.symbol "y") ∧ m'.arity (.lambda 1 1 1) = 1 ∧
      ¬ m'.Refuses (.lambda 1 1 1) [.int 5] := by
  intro h m
  have plain (R : Multiset Cell) : ∀ x ∈ [Node.int 5], m.store.Visible R x := by
    intro x hx
    obtain rfl := List.mem_singleton.mp hx
    exact fun k hk => absurd hk (Multiset.notMem_zero k)
  have call (g : String) (c : Nat) (hx : h.handles.find? g = some (.lambda c c c)) :=
    apply_takes_over .empty 0 false [] []
      [.make "f" (.lambda ["x", "y"] (.tree (.symbol "x"))),
        .make "s" (.lambda ["x"] (.tree (.symbol "y"))), .make "t" (.clone "s")] 2
      g c c c hx [.int 5] (plain _)
  have accepts (c : Nat) (hc : 0 < m.store.arity c c) :
      ¬ m.Refuses (.lambda c c c) [.int 5] := by
    rw [Machine.refuses_lambda_iff]
    exact fun hlt => absurd (Int.lt_add_one_iff.mp hlt) (Int.not_le.mpr hc)
  refine ⟨⟨by decide +kernel, by decide +kernel, ?_⟩, by decide +kernel, by decide +kernel, ?_⟩
  · obtain ⟨bound, params, body, was, view, arity, refuses⟩ :=
      (call "f" 0 (by decide +kernel)).2 (accepts 0 (by decide +kernel)) (by decide +kernel)
        (by simp [Node.cells])
    have tree : m.view (.lambda 0 0 0) = .lambda [] ["x", "y"] (.symbol "x") := rfl
    have two : m.arity (.lambda 0 0 0) = 2 := by decide +kernel
    obtain ⟨rfl, rfl, rfl⟩ := Datum.lambda.inj (was.symm.trans tree)
    rw [two] at arity refuses
    exact ⟨view, arity, (refuses _).mpr (by decide)⟩
  · obtain ⟨view, arity, refuses⟩ :=
      (call "s" 1 (by decide +kernel)).1 (.inr (.inr (by decide +kernel)))
    have tree : m.view (.lambda 1 1 1) = .lambda [] ["x"] (.symbol "y") := rfl
    have one : m.arity (.lambda 1 1 1) = 1 := by decide +kernel
    exact ⟨view.trans tree, arity.trans one,
      fun hr => accepts 1 (by decide +kernel) ((refuses _).mp hr)⟩

/-- A handle that alone holds the identity has it with the argument bound after one call, so that
the same call is refused afterwards. -/
theorem apply_alters_procedure :
    let h := (start .empty 0 false [] []).performAll
      [.make "f" (.lambda ["x"] (.tree (.symbol "x")))]
    let m := h.machine
    let f := Node.lambda 0 0 0
    let m' := (m.run (Machine.apply 2 f [.int 5])).2
    h.handles.find? "f" = some f ∧ m.store.seqs.holders 0 = 1 ∧
      (m.run (Machine.apply 2 f [.int 5])).1.toOption = some (.int 5) ∧
      m.view f = .lambda [] ["x"] (.symbol "x") ∧
      m'.view f = .lambda [.int 5] ["x"] (.symbol "x") ∧ m'.arity f ≠ m.arity f ∧
      ¬ m.Refuses f [.int 5] ∧ m'.Refuses f [.int 5] := by
  intro h m f m'
  have one : m.arity f = 1 := by decide +kernel
  have none : m'.arity f = 0 := by decide +kernel
  refine ⟨by decide +kernel, by decide +kernel, by decide +kernel, rfl, ?_,
    by rw [one, none]; decide, ?_, ?_⟩
  · have bound : m'.store.seqs.value? 0 = some [.int 5] := by decide +kernel
    have params : m'.store.names.value? 0 = some [Name.ofString "x"] := by decide +kernel
    have body : m'.store.nodes.value? 0 = some (.symbol "x") := by decide +kernel
    have gas : m'.store.gas = 3 := by decide +kernel
    simp [f, Machine.view, Store.view, gas, Store.view?, bound, params, body]
  · rw [Machine.refuses_lambda_iff, one]
    decide
  · rw [Machine.refuses_lambda_iff, none]
    decide

end Host

end CellScheme
