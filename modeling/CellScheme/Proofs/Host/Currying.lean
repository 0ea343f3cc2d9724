import CellScheme.Proofs.Host.NonInterference
import CellScheme.Proofs.Host.Sparing

/-!
Arguments that come in groups. A procedure that is given its arguments group by group, each time as
the procedure that the group before returned, does what it does with all of them at once. Groups
that leave an argument missing only join the bound arguments, and the procedure that they join is
not the one that a name keeps.
-/

namespace CellScheme

open CellScheme.Tree (World)

namespace Tree

/-- Supply arguments to a value, which has to be a lambda. -/
def applyTo (ev : Evaluator) : Datum → List Datum → Act Datum
  | .lambda bound params body, args => apply ev bound params body args
  | f, args => fail (.runtime (.notProcedure f (f :: args)))

def supply (ev : Evaluator) (f : Datum) : List (List Datum) → Act Datum
  | [] => return f
  | args :: groups => do supply ev (← applyTo ev f args) groups

variable (ev : Evaluator) {bound : List Datum} {params : List Name} {body : Datum}

theorem apply_of_lt {args : List Datum} (h : (args.length : Int) < Datum.arity bound params) :
    apply ev bound params body args = pure (.lambda (bound ++ args) params body) := by
  have missing : Datum.arity (bound ++ args) params ≠ 0 := by
    simp only [Datum.arity, List.length_append] at h ⊢
    omega
  funext w
  rw [apply_eq, if_neg (by omega), callBound, Act.get_bind, if_pos missing]

theorem supply_of_lt {init : List (List Datum)} (groups : List (List Datum))
    (h : init = [] ∨ (init.flatten.length : Int) < Datum.arity bound params) :
    supply ev (.lambda bound params body) (init ++ groups) =
      supply ev (.lambda (bound ++ init.flatten) params body) groups := by
  induction init generalizing bound with
  | nil => rw [List.flatten_nil, List.append_nil, List.nil_append]
  | cons args init ih =>
      have hlt := h.resolve_left (List.cons_ne_nil _ _)
      rw [List.flatten_cons, List.length_append] at hlt
      have rest : init = [] ∨
          (init.flatten.length : Int) < Datum.arity (bound ++ args) params := by
        refine .inr ?_
        simp only [Datum.arity, List.length_append] at hlt ⊢
        omega
      rw [List.cons_append, supply, applyTo, apply_of_lt ev (by omega), pure_bind, ih rest,
        List.flatten_cons, List.append_assoc]

theorem supply_eq_apply {init : List (List Datum)} {last : List Datum}
    (h : init = [] ∨ (init.flatten.length : Int) < Datum.arity bound params)
    (hall : ((init.flatten ++ last).length : Int) = Datum.arity bound params) :
    supply ev (.lambda bound params body) (init ++ [last]) =
      apply ev bound params body (init.flatten ++ last) := by
  have enough : ¬ Datum.arity (bound ++ init.flatten) params < last.length := by
    simp only [Datum.arity, List.length_append] at hall ⊢
    omega
  rw [supply_of_lt ev [last] h, supply, applyTo, apply_eq, apply_eq, if_neg enough,
    if_neg (by omega), List.append_assoc]
  exact bind_pure _

/-- A group with more than the missing arguments is refused, whatever the body. -/
theorem supply_too_many {init : List (List Datum)} {last : List Datum}
    (h : init = [] ∨ (init.flatten.length : Int) < Datum.arity bound params)
    (hall : Datum.arity bound params < ((init.flatten ++ last).length : Int)) :
    supply ev (.lambda bound params body) (init ++ [last]) =
      fail (.runtime (.tooManyArguments
        (Datum.arity bound params - init.flatten.length) last.length)) := by
  have arity : Datum.arity (bound ++ init.flatten) params =
      Datum.arity bound params - init.flatten.length := by
    simp only [Datum.arity, List.length_append]
    omega
  have many : Datum.arity (bound ++ init.flatten) params < last.length := by
    rw [arity]
    rw [List.length_append] at hall
    omega
  rw [supply_of_lt ev [last] h, supply, applyTo, apply_eq, if_pos many, arity]
  rfl

end Tree

/-- Supply one group after the other, each to the node that the group before returned. -/
def Machine.supply (fuel : Nat) (f : Node) : List (List Node) → Act Node
  | [] => return f
  | args :: groups => do supply fuel (← apply fuel f args) groups

variable {P : Prop} {m : Machine} {aside : Set Cell} {F : Multiset Cell}

theorem Tree.applyTo_of_kind {tev : Tree.Evaluator} {d : Datum} (hk : d.kind ≠ .lambda)
    (args : List Datum) :
    Tree.applyTo tev d args = Tree.fail (.runtime (.notProcedure d (d :: args))) := by
  cases d with
  | lambda _ _ _ => exact absurd rfl hk
  | int _ | bool _ | symbol _ | quote _ | list _ | builtin _ => rfl

theorem apply_refines (fuel : Nat) {f : Node} (h : m.Sound P aside f.cells F) {args : List Node}
    (ha : ∀ x ∈ args, m.store.Visible F x) :
    Refines P aside F m (Machine.apply fuel f args m)
      (Tree.applyTo (Tree.evaluate fuel) (m.view f) (m.store.viewSeq args) (World.of m)) := by
  have hk := h.store.kind_view (x := f) .root
  cases f with
  | lambda b p k =>
      rw [Machine.view, h.store.view_lambda .root]
      exact applyLambda_refines (evaluate_faithful fuel) h ha
  | int _ | bool _ | symbol _ | quote _ | list _ | builtin _ =>
      rw [Machine.view, Tree.applyTo_of_kind (by rw [hk]; simp [Node.kind])]
      exact .throw h

theorem supply_refines (fuel : Nat) {f : Node} (h : m.Sound P aside f.cells F)
    {groups : List (List Node)} (ha : ∀ args ∈ groups, ∀ x ∈ args, m.store.Visible F x) :
    Refines P aside F m (Machine.supply fuel f groups m)
      (Tree.supply (Tree.evaluate fuel) (m.view f) (groups.map m.store.viewSeq) (World.of m)) := by
  induction groups generalizing m f F with
  | nil => exact .pure h
  | cons args groups ih =>
      refine .bind (apply_refines fuel h (ha args (by simp))) fun v m' N h' k => ?_
      have hF : F ≤ N + F := Multiset.le_add_left _ _
      have visible : ∀ args ∈ groups, ∀ x ∈ args, m.store.Visible F x :=
        fun args hargs => ha args (List.mem_cons_of_mem _ hargs)
      have views : groups.map m'.store.viewSeq = groups.map m.store.viewSeq :=
        List.map_congr_left fun args hargs =>
          k.store.viewSeq_eq h.frame h'.frame hF (visible args hargs)
      rw [← views]
      exact ih h' fun args hargs x hx => (k.store.visible (visible args hargs x hx)).mono hF

theorem Machine.Twin.inStep_supply {E : Halt → Prop} {R : Machine → Machine → Prop} (t : Twin E R)
    (fuel : Nat) (f : Node) (groups : List (List Node)) :
    InStep E R (Machine.supply fuel f groups) (Machine.supply fuel f groups) := by
  induction groups generalizing f with
  | nil => exact .pure f
  | cons args groups ih => exact .bind (t.inStep_apply fuel f args) fun v => ih v

section

variable {b p k : Nat} {init : List (List Node)} {last : List Node}

theorem flatten_viewSeq (st : Store) (groups : List (List Node)) :
    (groups.map st.viewSeq).flatten = st.viewSeq groups.flatten :=
  List.map_flatten.symm

variable (fuel : Nat) (h : m.Sound True aside (Node.lambda b p k).cells F)
  (ha : ∀ x ∈ init.flatten ++ last, m.store.Visible F x)
  (hinit : init = [] ∨ (init.flatten.length : Int) < m.store.arity b p)

include h ha

theorem seen_supply :
    Tree.seen (Machine.supply fuel (.lambda b p k) (init ++ [last]) m) =
      Tree.supply (Tree.evaluate fuel) (.lambda (m.store.viewSeq (m.store.elements b))
        (m.store.params p) (m.view (m.store.payload k)))
        (init.map m.store.viewSeq ++ [m.store.viewSeq last]) (World.of m) := by
  have visible : ∀ args ∈ init ++ [last], ∀ x ∈ args, m.store.Visible F x := by
    intro args hargs x hx
    refine ha x ?_
    rw [← List.flatten_concat]
    exact List.mem_flatten.mpr ⟨args, hargs, hx⟩
  have hr := (supply_refines fuel h visible).seen_eq
  rw [Machine.view, h.store.view_lambda .root, List.map_append] at hr
  exact hr

include hinit

theorem seen_supply_eq (hall : ((init.flatten ++ last).length : Int) = m.store.arity b p) :
    Tree.seen (Machine.supply fuel (.lambda b p k) (init ++ [last]) m) =
      Tree.seen (Machine.apply fuel (.lambda b p k) (init.flatten ++ last) m) := by
  have hr := (apply_refines fuel h ha).seen_eq
  have join : m.store.viewSeq (init.flatten ++ last) =
      m.store.viewSeq init.flatten ++ m.store.viewSeq last := List.map_append
  rw [Machine.view, h.store.view_lambda .root, join] at hr
  rw [seen_supply fuel h ha, Tree.supply_eq_apply]
  · rw [flatten_viewSeq]
    exact hr.symm
  · rw [flatten_viewSeq, Store.length_viewSeq, arity_view, List.map_eq_nil_iff]
    exact hinit
  · rw [flatten_viewSeq, arity_view, List.length_append, Store.length_viewSeq,
      Store.length_viewSeq, ← List.length_append]
    exact hall

theorem seen_supply_too_many (hall : m.store.arity b p < ((init.flatten ++ last).length : Int)) :
    Tree.seen (Machine.supply fuel (.lambda b p k) (init ++ [last]) m) =
      .error (.failed (.runtime (.tooManyArguments
        (m.store.arity b p - init.flatten.length) last.length))) (World.of m) := by
  rw [seen_supply fuel h ha, Tree.supply_too_many]
  · rw [flatten_viewSeq, Store.length_viewSeq, arity_view, Store.length_viewSeq]
    rfl
  · rw [flatten_viewSeq, Store.length_viewSeq, arity_view, List.map_eq_nil_iff]
    exact hinit
  · rw [flatten_viewSeq, arity_view, List.length_append, Store.length_viewSeq,
      Store.length_viewSeq, ← List.length_append]
    exact hall

end

namespace Host

/-- The global names that operations define or bind, each from where the one before has led. -/
def definesAll (h : Host) : List HostOp → List Name
  | [] => []
  | op :: ops => h.defines op ++ (h.perform op).definesAll ops

/-- A global name that operations do not define keeps its tree. -/
theorem Sound.global_tree {h : Host} (hs : h.Sound) {ops : List HostOp} {n : Name}
    (hn : n ∉ h.definesAll ops) {t : Datum}
    (ht : (World.of h.machine).global.find? n = some t) :
    (World.of (h.performAll ops).machine).global.find? n = some t := by
  induction ops generalizing h with
  | nil => exact ht
  | cons op ops ih =>
      rw [definesAll, List.mem_append, not_or] at hn
      refine ih (hs.perform op) hn.2 ?_
      have find (h : Host) : (World.of h.machine).global.find? n =
          (h.machine.scopes.global.find? n).map h.machine.view :=
        Tree.frameOf_find? h.machine.store h.machine.scopes.global n
      have same := hs.global_find? hn.1
      rw [find] at ht ⊢
      rw [same]
      cases hx : h.machine.scopes.global.find? n with
      | none =>
          rw [hx] at ht
          cases ht
      | some x =>
          rw [hx] at ht same
          have view : (h.perform op).machine.view x = h.machine.view x := by
            refine hs.view_eq op ?_ ?_
            · exact (Frame.cells_of_find? hx).trans
                ((h.machine.scopes.global_cells_le).trans (h.scopes_le_rootsBesides _))
            · exact (Frame.cells_of_find? same).trans
                ((Scopes.global_cells_le _).trans (Multiset.le_add_left _ _))
          rw [Option.map_some, view]
          exact ht

end Host

theorem Tree.World.find?_global {m : Machine} {n : Name}
    (h : ∀ f ∈ m.scopes.inner, f.find? n = none) :
    (World.of m).find? n = (World.of m).global.find? n := by
  have inner : (m.scopes.inner.findSome? fun f => f.find? n) = none :=
    List.findSome?_eq_none_iff.mpr h
  have global : (World.of m).global.find? n = (m.scopes.global.find? n).map m.view :=
    Tree.frameOf_find? m.store m.scopes.global n
  rw [World.find?_of, global, Scopes.find?, inner]
  rfl

theorem Tree.evaluate_call_name {w : World} {n : Name} {bound : List Datum} {params : List Name}
    {body : Datum} (hn : SpecialForm.ofName? n = none)
    (hw : w.find? n = some (.lambda bound params body)) (args : List Datum) (fuel : Nat) :
    Tree.evaluate fuel (.list (.symbol n :: args)) w =
      Tree.evaluate fuel (.list (.lambda bound params body :: args)) w := by
  cases fuel with
  | zero => rfl
  | succ fuel =>
      have head : Tree.evaluate fuel (.symbol n) w =
          Tree.evaluate fuel (.lambda bound params body) w := by
        cases fuel with
        | zero => rfl
        | succ fuel => simp only [Tree.evaluate, Tree.evalLayer, Act.get_bind, hw]
      have form : Tree.formOfHead? (.symbol n) = none := hn
      simp only [Tree.evaluate, Tree.evalLayer, Tree.evalList, form]
      simp only [Tree.formOfHead?, Tree.evalAll, bind, EStateM.bind, head]

namespace Host

/-- In every state of a host: a lambda that is given its arguments in groups, of which none but the
last completes them, ends as it does with all arguments at once, if that calls no builtin which
looks at storage. A group of more arguments than are missing is refused, also without any fuel, and
changes nothing. A global name that stands for a lambda stands for the same one after any operations
that do not define the name, and every call by that name ends as a call of a new copy of it does. -/
theorem arguments_in_groups (table : Named Builtin) (limit : Int) (tracing : Bool)
    (before after : List String) (ops : List HostOp) (fuel : Nat) :
    let h := (start table limit tracing before after).performAll ops
    (∀ g b p k, h.handles.find? g = some (.lambda b p k) →
      ∀ (init : List (List Node)) (last : List Node),
      (∀ x ∈ init.flatten ++ last, ∃ n ≠ g, h.handles.find? n = some x) →
      (init = [] ∨ (init.flatten.length : Int) < h.machine.arity (.lambda b p k)) →
      (((init.flatten ++ last).length : Int) = h.machine.arity (.lambda b p k) →
        h.machine.Spares (Machine.apply fuel (.lambda b p k) (init.flatten ++ last)) →
        Tree.seen (Machine.supply fuel (.lambda b p k) (init ++ [last]) h.machine) =
          Tree.seen (Machine.apply fuel (.lambda b p k) (init.flatten ++ last) h.machine)) ∧
      (h.machine.arity (.lambda b p k) < ((init.flatten ++ last).length : Int) →
        Tree.seen (Machine.supply fuel (.lambda b p k) (init ++ [last]) h.machine) =
          .error (.failed (.runtime (.tooManyArguments
            (h.machine.arity (.lambda b p k) - init.flatten.length) last.length)))
            (World.of h.machine))) ∧
    ∀ n bound params body, SpecialForm.ofName? n = none →
      (World.of h.machine).global.find? n = some (.lambda bound params body) →
      ∀ more, n ∉ h.definesAll more →
      let h' := h.performAll more
      (World.of h'.machine).global.find? n = some (.lambda bound params body) ∧
      ((∀ f ∈ h'.machine.scopes.inner, f.find? n = none) → ∀ args,
        h'.machine.Spares (Machine.evalDatum fuel (.list (.symbol n :: args))) →
        Tree.seen (Machine.evalDatum fuel (.list (.symbol n :: args)) h'.machine) =
          Tree.seen (Machine.evalDatum fuel (.list (.lambda bound params body :: args))
            h'.machine)) := by
  intro h
  have hs : h.Sound := (sound_start table limit tracing before after).performAll ops
  refine ⟨fun g b p k hx init last hargs hinit => ?_, fun n bound params body hn ht more hm => ?_⟩
  · have hm : h.machine.spared.Sound True ∅ (Node.lambda b p k).cells (h.rootsBesides (some g)) :=
      (hs.consumed (P := False) False.elim hx).spared
    have visible : ∀ x ∈ init.flatten ++ last,
        h.machine.spared.store.Visible (h.rootsBesides (some g)) x := by
      intro x hx
      obtain ⟨n, hne, hn⟩ := hargs x hx
      exact .of_le (cells_handle_le hn fun e => hne (Option.some.inj e).symm)
    have twin := Machine.twin_restored h.machine.builtins
    refine ⟨fun hall hspares => ?_, fun hall => ?_⟩
    · exact (hspares.seen_eq (twin.inStep_apply fuel _ _) (twin.inStep_supply fuel _ _)
        (seen_supply_eq fuel hm visible hinit hall)).2
    · -- The refusal itself calls no builtin.
      have hspares : h.machine.Spares (Act.fail (.runtime (.tooManyArguments
          (h.machine.arity (.lambda b p k) - init.flatten.length) last.length))) :=
        fun _ _ e => by cases e
      exact (hspares.seen_eq (.fail id _) (twin.inStep_supply fuel _ _)
        (seen_supply_too_many fuel hm visible hinit hall)).2
  · intro h'
    have hs' : h'.Sound := hs.performAll more
    have ht' := hs.global_tree hm ht
    refine ⟨ht', fun hframes args hspares => ?_⟩
    have hm' : h'.machine.spared.Sound True ∅ 0 h'.roots := hs'.machine.spared
    have twin := Machine.twin_restored h'.machine.builtins
    have found : (World.of h'.machine.spared).find? n = some (.lambda bound params body) :=
      (World.find?_global hframes).trans ht'
    refine (hspares.seen_eq (twin.inStep_evalDatum fuel _) (twin.inStep_evalDatum fuel _) ?_).2.symm
    rw [(evalDatum_refines fuel hm' _).seen_eq, (evalDatum_refines fuel hm' _).seen_eq]
    exact (Tree.evaluate_call_name hn found args fuel).symm

/-- Addition takes its arguments one by one, refuses a third one after the first, and `(+ 1)` under
a name is used twice. -/
theorem arguments_in_groups_sum :
    let h := (start .empty 0 false [] []).performAll
      [.register "+" ⟨2, .arith .add⟩, .step (.find "f" "+"), .make "a" (.tree (.int 1)),
        .make "b" (.tree (.int 2)), .step (.evalText 5 "r" "(define inc (+ 1))")]
    h.handles.find? "f" = some (.lambda 1 0 0) ∧ h.machine.arity (.lambda 1 0 0) = 2 ∧
    Tree.seen (Machine.supply 5 (.lambda 1 0 0) [[.int 1], [.int 2]] h.machine) =
      Tree.seen (Machine.apply 5 (.lambda 1 0 0) [.int 1, .int 2] h.machine) ∧
    Tree.seen (Machine.supply 5 (.lambda 1 0 0) [[.int 1], [.int 2, .int 2]] h.machine) =
      .error (.failed (.runtime (.tooManyArguments 1 2))) (World.of h.machine) ∧
    ∃ bound params body,
      (World.of h.machine).global.find? "inc" = some (.lambda bound params body) ∧
      Tree.seen (Machine.evalDatum 5 (.list [.symbol "inc", .int 7])
          (h.performAll [.step (.evalText 5 "s" "(inc 2)")]).machine) =
        Tree.seen (Machine.evalDatum 5 (.list [.lambda bound params body, .int 7])
          (h.performAll [.step (.evalText 5 "s" "(inc 2)")]).machine) := by
  intro h
  have found : h.handles.find? "f" = some (.lambda 1 0 0) := by decide +kernel
  have arity : h.machine.arity (.lambda 1 0 0) = 2 := by decide +kernel
  have args : ∀ last : List Node, (∀ x ∈ last, x = .int 2) →
      ∀ x ∈ [[Node.int 1]].flatten ++ last,
        ∃ n ≠ Name.ofString "f", h.handles.find? n = some x := by
    intro last hlast x hx
    rcases List.mem_append.mp hx with hx | hx
    · obtain rfl : x = .int 1 := by simpa using hx
      exact ⟨"a", by decide, by decide +kernel⟩
    · obtain rfl := hlast x hx
      exact ⟨"b", by decide, by decide +kernel⟩
  have part : ([[Node.int 1]].flatten.length : Int) < h.machine.arity (.lambda 1 0 0) := by
    rw [arity]
    decide
  obtain ⟨groups, names⟩ := arguments_in_groups .empty 0 false [] []
    [.register "+" ⟨2, .arith .add⟩, .step (.find "f" "+"), .make "a" (.tree (.int 1)),
      .make "b" (.tree (.int 2)), .step (.evalText 5 "r" "(define inc (+ 1))")] 5
  refine ⟨found, arity, ?_, ?_, ?_⟩
  · refine (groups "f" 1 0 0 found [[.int 1]] [.int 2] (args _ (by simp)) (.inr part)).1 ?_ ?_
    · rw [arity]
      rfl
    · exact .of_not_fails (by decide +kernel)
  · have refused := (groups "f" 1 0 0 found [[.int 1]] [.int 2, .int 2] (args _ (by simp))
      (.inr part)).2 (by rw [arity]; decide)
    rw [arity] at refused
    exact refused
  · obtain ⟨bound, params, body, kept⟩ : ∃ bound params body,
        (World.of h.machine).global.find? "inc" = some (.lambda bound params body) := by
      have kind : ((World.of h.machine).global.find? "inc").map Datum.kind = some .lambda := by
        decide +kernel
      generalize (World.of h.machine).global.find? "inc" = t at kind
      obtain _ | ⟨_ | _ | _ | _ | _ | ⟨bound, params, body⟩ | _⟩ := t <;> cases kind
      exact ⟨bound, params, body, rfl⟩
    refine ⟨bound, params, body, kept, ?_⟩
    refine (names "inc" _ _ _ (by decide) kept [.step (.evalText 5 "s" "(inc 2)")]
      (by decide +kernel)).2 ?_ [.int 7] (.of_not_fails (by decide +kernel))
    decide +kernel

end Host

end CellScheme
