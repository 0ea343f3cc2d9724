import CellScheme.Proofs.Host.Calls
import CellScheme.Proofs.Host.Quotation

/-!
The laws of lists. An element that is taken out of a quoted list is quoted again if evaluation would
change it, and loses the quote when it is put into a list; so taking apart undoes putting together,
and the other way round. No call changes the list that it is given, whoever else holds its cells.
-/

namespace CellScheme

open CellScheme.Tree (World)

namespace Datum

/-- The tree evaluates to itself: it is no symbol, no list, and no quote that evaluation strips. -/
def isValue : Datum → Bool
  | symbol _ | list _ => false
  | quote d => d.needsQuote
  | int _ | bool _ | lambda _ _ _ | builtin _ => true

theorem requote_unquote_iff (d : Datum) : d.unquote.requote = d ↔ d.isValue = true := by
  cases d with
  | quote d => cases d <;> simp [unquote, requote, needsQuote, isValue]
  | int _ | bool _ | symbol _ | list _ | lambda _ _ _ | builtin _ =>
      simp [unquote, requote, needsQuote, isValue]

theorem unquote_requote (d : Datum) : d.requote.unquote = d := by
  cases d <;> rfl

def taken (name : Name) (part : Datum → List Datum → Datum) (v : Datum) :
    Except TypeFailure Datum :=
  match v.quotedList? with
  | some (d :: ds) => .ok (part d ds)
  | some [] => .error (.emptyList name v)
  | none => .error (.notQuotedList name v)

def first : Datum → Except TypeFailure Datum :=
  taken "car" fun d _ => d.requote

/-- What leaving the first element out gives. -/
def rest : Datum → Except TypeFailure Datum :=
  taken "cdr" fun _ ds => quote (list ds)

/-- What putting an element in front gives. -/
def prepend (a v : Datum) : Except TypeFailure Datum :=
  match v.quotedList? with
  | some ds => .ok (quote (list (a.unquote :: ds)))
  | none => .error (.notQuotedList "cons" v)

theorem quotedList?_eq_some {v : Datum} {ds : List Datum} :
    v.quotedList? = some ds ↔ v = quote (list ds) := by
  constructor
  · intro h
    unfold quotedList? at h
    split at h
    · rw [Option.some.inj h]
    · cases h
  · rintro rfl
    rfl

theorem prepend_refuses_iff (a v : Datum) :
    (∃ f, a.prepend v = .error f) ↔ ∀ ds, v ≠ quote (list ds) := by
  simp only [← quotedList?_eq_some.not, prepend]
  cases v.quotedList? with
  | none | some _ => simp

theorem taken_refuses_iff (name : Name) (part : Datum → List Datum → Datum) (v : Datum) :
    (∃ f, v.taken name part = .error f) ↔ ∀ d ds, v ≠ quote (list (d :: ds)) := by
  simp only [← quotedList?_eq_some.not, taken]
  cases v.quotedList? with
  | none => simp
  | some ds =>
      cases ds with
      | nil | cons _ _ => simp

end Datum

namespace Tree

/-- Calls of the builtins. -/
def carCall (e : Datum) : Datum :=
  .list [.symbol "car", e]

@[inherit_doc carCall]
def cdrCall (e : Datum) : Datum :=
  .list [.symbol "cdr", e]

@[inherit_doc carCall]
def consCall (e e' : Datum) : Datum :=
  .list [.symbol "cons", e, e']

/-- A call gives a tree or refuses an argument, and the world stays as it is. -/
def World.outcome (w : World) : Except TypeFailure Datum → EStateM.Result Halt World Datum
  | .ok d => .ok d w
  | .error f => .error (.failed (.type f)) w

/-- With this much fuel, or more, the expression has that outcome. -/
def World.Ends (w : World) (fuel : Nat) (e : Datum) (r : Except TypeFailure Datum) : Prop :=
  ∀ more, evaluate (fuel + more) e w = w.outcome r

/-- An expression for a value: the value, if it evaluates to itself, or a name that is bound to
it. -/
inductive World.Operand (w : World) : Datum → Datum → Prop where
  | value {v : Datum} : v.isValue = true → Operand w v v
  | name {n : Name} {v : Datum} : w.find? n = some v → Operand w (.symbol n) v

section

variable (ev : Evaluator) (f a v : Datum) (w : World)

theorem runNative_car : runNative ev .car "car" [f, v] w = w.outcome v.first := by
  have argument : Check.argument "car" [f, v] 1 = .ok v := rfl
  rw [runNative, Native.checks, Datum.first, Datum.taken]
  simp only [Check.runAll, Check.run, Check.quotedListAt, argument, runChecked, quotedElements]
  cases v.quotedList? with
  | none => rfl
  | some ds =>
      cases ds with
      | nil | cons _ _ => rfl

theorem runNative_cdr : runNative ev .cdr "cdr" [f, v] w = w.outcome v.rest := by
  have argument : Check.argument "cdr" [f, v] 1 = .ok v := rfl
  rw [runNative, Native.checks, Datum.rest, Datum.taken]
  simp only [Check.runAll, Check.run, Check.quotedListAt, argument, runChecked, quotedElements]
  cases v.quotedList? with
  | none => rfl
  | some ds =>
      cases ds with
      | nil | cons _ _ => rfl

theorem runNative_cons : runNative ev .cons "cons" [f, a, v] w = w.outcome (a.prepend v) := by
  have argument : Check.argument "cons" [f, a, v] 2 = .ok v := rfl
  rw [runNative, Native.checks, Datum.prepend]
  simp only [Check.runAll, Check.run, Check.quotedListAt, argument, runChecked, quotedElements]
  cases v.quotedList? with
  | none | some _ => rfl

end

namespace World

variable {w : World} {fuel : Nat} {e e₁ e₂ a v : Datum} {ds : List Datum}

/-- The builtins for lists stand under their names, and there is no limit. -/
structure HasLists (w : World) : Prop where
  car : w.Stands "car" ⟨1, .car⟩
  cdr : w.Stands "cdr" ⟨1, .cdr⟩
  cons : w.Stands "cons" ⟨2, .cons⟩
  limit : w.limit ≤ 0

theorem result_mapError (r : Except TypeFailure Datum) :
    w.result (r.mapError .type) = w.outcome r := by
  cases r <;> rfl

theorem yields_iff {r : Except TypeFailure Datum} :
    w.Yields fuel e (r.mapError .type) ↔ w.Ends fuel e r := by
  rw [Yields, result_mapError, Ends]

theorem Stands.ends {name : Name} {b : Builtin} (hs : w.Stands name b) (hlimit : w.limit ≤ 0)
    (hform : SpecialForm.ofName? name = none) {es vs : List Datum} (hlen : vs.length = b.arity)
    (hargs : List.Forall₂ (fun e v => w.Ends (fuel + 2) e (.ok v)) es vs)
    {r : Except TypeFailure Datum}
    (hr : ∀ ev w, runNative ev b.native name (.builtin name :: vs) w = w.outcome r) :
    w.Ends (fuel + 3) (.list (.symbol name :: es)) r := by
  have args : List.Forall₂ (fun e v => w.Yields (fuel + 2) e (.ok v)) es vs :=
    hargs.imp fun _ _ => yields_iff.mpr
  exact yields_iff.mp (hs.yields (by omega) hform hlen args fun ev w =>
    (hr ev w).trans (result_mapError r).symm)

theorem Operand.ends (h : w.Operand e v) (fuel : Nat) : w.Ends (fuel + 1) e (.ok v) := by
  intro more
  rw [Nat.add_right_comm]
  cases h with
  | name hn => exact evaluate_symbol hn _
  | value hv =>
      cases e with
      | quote d => exact congrArg (EStateM.Result.ok · w) (if_pos hv)
      | int _ | bool _ | lambda _ _ _ | builtin _ => rfl
      | symbol _ | list _ => cases hv

namespace HasLists

variable (h : w.HasLists)

include h

theorem car_ends (he : w.Ends (fuel + 2) e (.ok v)) : w.Ends (fuel + 3) (carCall e) v.first :=
  h.car.ends h.limit rfl rfl (.cons he .nil) fun ev => runNative_car ev _ v

theorem cdr_ends (he : w.Ends (fuel + 2) e (.ok v)) : w.Ends (fuel + 3) (cdrCall e) v.rest :=
  h.cdr.ends h.limit rfl rfl (.cons he .nil) fun ev => runNative_cdr ev _ v

theorem cons_ends (he₁ : w.Ends (fuel + 2) e₁ (.ok a)) (he₂ : w.Ends (fuel + 2) e₂ (.ok v)) :
    w.Ends (fuel + 3) (consCall e₁ e₂) (a.prepend v) :=
  h.cons.ends h.limit rfl rfl (.cons he₁ (.cons he₂ .nil)) fun ev => runNative_cons ev _ a v

/-- The first element of what was put together is what was put in front. -/
theorem car_cons_ends (he₁ : w.Ends (fuel + 2) e₁ (.ok a))
    (he₂ : w.Ends (fuel + 2) e₂ (.ok (.quote (.list ds)))) :
    w.Ends (fuel + 4) (carCall (consCall e₁ e₂)) (.ok a.unquote.requote) :=
  h.car_ends (h.cons_ends he₁ he₂)

theorem cdr_cons_ends (he₁ : w.Ends (fuel + 2) e₁ (.ok a))
    (he₂ : w.Ends (fuel + 2) e₂ (.ok (.quote (.list ds)))) :
    w.Ends (fuel + 4) (cdrCall (consCall e₁ e₂)) (.ok (.quote (.list ds))) :=
  h.cdr_ends (h.cons_ends he₁ he₂)

theorem cons_car_cdr_ends {d : Datum}
    (he : w.Ends (fuel + 2) e (.ok (.quote (.list (d :: ds))))) :
    w.Ends (fuel + 4) (consCall (carCall e) (cdrCall e)) (.ok (.quote (.list (d :: ds)))) := by
  have all := h.cons_ends (h.car_ends he) (h.cdr_ends he)
  rw [← d.unquote_requote]
  exact all

end HasLists

end World

end Tree

theorem Tree.World.HasLists.spared {m : Machine} (h : (World.of m).HasLists) :
    (World.of m.spared).HasLists := by
  exact ⟨h.car.spared rfl, h.cdr.spared rfl, h.cons.spared rfl, h.limit⟩

namespace Host

variable {h : Host}

/-- An evaluation has that outcome, and leaves bindings, definitions and the trees of all nodes as
they are. -/
def Finds (h : Host) (a : Act Node) (r : Except TypeFailure Datum) : Prop :=
  Tree.seen (a h.machine) = (World.of h.machine).outcome r ∧
    ∀ y, h.Has y → (h.machine.run a).2.view y = h.machine.view y

/-- The tree has that outcome, in new cells and on every node that has it. -/
def Answers (h : Host) (fuel : Nat) (e : Datum) (r : Except TypeFailure Datum) : Prop :=
  h.Finds (Machine.evalDatum fuel e) r ∧
    ∀ x, h.Has x → h.machine.view x = e → h.Finds (Machine.eval fuel x) r

theorem obtains_iff {a : Act Node} {r : Except TypeFailure Datum} :
    h.Obtains a (r.mapError .type) ↔ h.Finds a r := by
  rw [Obtains, World.result_mapError, Finds]

theorem Sound.answers (hs : h.Sound) {fuel : Nat} {e : Datum} {r : Except TypeFailure Datum}
    (he : (World.of h.machine.spared).Ends fuel e r) (more : Nat) :
    h.Answers (fuel + more) e r := by
  obtain ⟨built, placed⟩ := hs.gives (by cases r <;> simp [Except.mapError])
    (World.yields_iff.mpr he) more
  exact ⟨obtains_iff.mp built, fun x hx hview => obtains_iff.mp (placed x hx hview)⟩

/-- In every state of a host without a limit where the list builtins stand under their names, for
arguments that stand in the call or under a name: taking apart undoes putting together, for every
list and, exactly, for every value that evaluates to itself; putting together undoes taking apart;
and a builtin refuses its argument, as one of a wrong type, exactly if it is not a quoted list, or
is one without a first element. No call changes the trees of the nodes that there are. -/
theorem list_laws (table : Named Builtin) (limit : Int) (tracing : Bool)
    (before after : List String) (ops : List HostOp)
    (hl : (World.of
      ((start table limit tracing before after).performAll ops).machine).HasLists) :
    let h := (start table limit tracing before after).performAll ops
    (∀ e₁ e₂ a v, (World.of h.machine).Operand e₁ a → (World.of h.machine).Operand e₂ v → ∀ fuel,
      h.Answers (fuel + 3) (Tree.carCall e₂) v.first ∧
      h.Answers (fuel + 3) (Tree.cdrCall e₂) v.rest ∧
      h.Answers (fuel + 3) (Tree.consCall e₁ e₂) (a.prepend v) ∧
      ∀ ds, v = .quote (.list ds) →
        h.Answers (fuel + 4) (Tree.carCall (Tree.consCall e₁ e₂)) (.ok a.unquote.requote) ∧
        h.Answers (fuel + 4) (Tree.cdrCall (Tree.consCall e₁ e₂)) (.ok v) ∧
        (ds ≠ [] →
          h.Answers (fuel + 4) (Tree.consCall (Tree.carCall e₂) (Tree.cdrCall e₂)) (.ok v))) ∧
    (∀ a : Datum, a.unquote.requote = a ↔ a.isValue = true) ∧
    ∀ a v : Datum,
      ((∃ f, v.first = .error f) ↔ ∀ d ds, v ≠ .quote (.list (d :: ds))) ∧
      ((∃ f, v.rest = .error f) ↔ ∀ d ds, v ≠ .quote (.list (d :: ds))) ∧
      ((∃ f, a.prepend v = .error f) ↔ ∀ ds, v ≠ .quote (.list ds)) := by
  intro h
  have hs : h.Sound := (sound_start table limit tracing before after).performAll ops
  have hl' := hl.spared
  refine ⟨fun e₁ e₂ a v h₁ h₂ fuel => ?_, Datum.requote_unquote_iff, fun a v =>
    ⟨v.taken_refuses_iff _ _, v.taken_refuses_iff _ _, a.prepend_refuses_iff v⟩⟩
  have ends {e d : Datum} (ho : (World.of h.machine).Operand e d) :
      (World.of h.machine.spared).Ends 2 e (.ok d) := by
    have ho' : (World.of h.machine.spared).Operand e d := by
      cases ho with
      | value hv => exact .value hv
      | name hn => exact .name hn
    exact ho'.ends 1
  simp only [Nat.add_comm fuel]
  refine ⟨hs.answers (hl'.car_ends (ends h₂)) fuel, hs.answers (hl'.cdr_ends (ends h₂)) fuel,
    hs.answers (hl'.cons_ends (ends h₁) (ends h₂)) fuel, ?_⟩
  rintro ds rfl
  refine ⟨hs.answers (hl'.car_cons_ends (ends h₁) (ends h₂)) fuel,
    hs.answers (hl'.cdr_cons_ends (ends h₁) (ends h₂)) fuel, fun hne => ?_⟩
  obtain ⟨d, ds, rfl⟩ := List.exists_cons_of_ne_nil hne
  exact hs.answers (hl'.cons_car_cdr_ends (ends h₂)) fuel

/-- The call shares the cells of the list with a handle and a name. -/
theorem list_laws_shared :
    let table := Builtin.table [("car", ⟨1, .car⟩), ("cdr", ⟨1, .cdr⟩), ("cons", ⟨2, .cons⟩),
      ("eq?", ⟨2, .identical⟩)]
    let l := Datum.quote (.list [.symbol "p", .bool true])
    let ops : List HostOp := [.step (.work (.build "l" l)), .step (.define "l" "l"),
      .make "e" (.list [.tree (.symbol "car"),
        .list [.tree (.symbol "cons"), .tree (.int 5), .clone "l"]])]
    let h := (start table 0 false [] []).performAll ops
    (World.of h.machine).HasLists ∧ h.handles.find? "e" = some (.list 10) ∧
      h.handles.find? "l" = some (.quote 4) ∧ h.machine.view (.quote 4) = l ∧
      Tree.seen (Machine.eval 4 (.list 10) h.machine) = .ok (.int 5) (World.of h.machine) ∧
      (h.machine.run (Machine.eval 4 (.list 10))).2.view (.quote 4) = l := by
  intro table l ops h
  have hs : h.Sound := (sound_start table 0 false [] []).performAll ops
  have hl : (World.of h.machine).HasLists := by
    refine ⟨⟨?_, by rfl⟩, ⟨?_, by rfl⟩, ⟨?_, by rfl⟩, le_rfl⟩
    · apply hs.machine.find?_builtin (b := 1) (p := 0) (k := 0) (c := 0) <;> decide +kernel
    · apply hs.machine.find?_builtin (b := 3) (p := 1) (k := 1) (c := 2) <;> decide +kernel
    · apply hs.machine.find?_builtin (b := 5) (p := 2) (k := 2) (c := 4) <;> decide +kernel
  have he : h.handles.find? "e" = some (.list 10) := by decide +kernel
  have hy : h.handles.find? "l" = some (.quote 4) := by decide +kernel
  have outer : h.machine.store.elements 10 = [.symbol "car", .list 9] := by decide +kernel
  have inner : h.machine.store.elements 9 = [.symbol "cons", .int 5, .quote 4] := by
    decide +kernel
  have payload : h.machine.store.payload 4 = .list 8 := by decide +kernel
  have elements : h.machine.store.elements 8 = [.symbol "p", .bool true] := by decide +kernel
  have visible : h.machine.store.Visible h.roots (.quote 4) := visible_handle hy
  have list : h.machine.view (.quote 4) = l := by
    rw [Machine.view, hs.store.view_quote visible, payload,
      hs.store.view_list (payload ▸ visible.quote_payload), elements]
    simp [Store.viewSeq, l]
  have call : h.machine.view (.list 10) = Tree.carCall (Tree.consCall (.int 5) l) := by
    have held := visible_handle he
    have below : h.machine.store.Visible h.roots (.list 9) :=
      held.list_element (outer ▸ by simp)
    rw [Machine.view, hs.store.view_list held, outer]
    rw [Machine.view] at list
    simp [Store.viewSeq, hs.store.view_list below, inner, list, Tree.carCall, Tree.consCall]
  obtain ⟨_, _, _, laws⟩ := (list_laws table 0 false [] [] ops hl).1 (.int 5) l (.int 5) l
    (.value rfl) (.value rfl) 0
  obtain ⟨seen, kept⟩ := (laws _ rfl).1.2 (.list 10) (.handle he) call
  exact ⟨hl, he, hy, list, seen, (kept _ (.handle hy)).trans list⟩

end Host

end CellScheme
