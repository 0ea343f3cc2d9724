import CellScheme.Proofs.Host.Carries
import CellScheme.Proofs.Json.RoundTrip
import CellScheme.Proofs.Lawful.Guarded

/-!
Hosts that only bring in trees that were read. Whatever they evaluate, bind, edit and load, every
node that a handle or a name is on is whole, so that the guard of evaluation is never needed and no
evaluation ends with an internal failure.
-/

namespace CellScheme

/-- Trees that come from texts, from JSON and from images, of whatever bytes. -/
inductive Datum.Read : Datum → Prop where
  | text {t : String} {ds : List Datum} {d : Datum} : parseAll t = .ok ds → d ∈ ds → Read d
  | json {v : Json.Value} {d : Datum} : ofJson v = .ok d → Read d
  | image {path : String} {bs : Bytes} {defs : List (Name × Datum)} {name : Name} {d : Datum} :
      Machine.readImage path bs = .ok defs → (name, d) ∈ defs → Read d

theorem Datum.Read.bounded {d : Datum} (h : d.Read) : d.Bounded := by
  cases h with
  | text ht hd =>
      obtain ⟨ls, _, hds⟩ := Datum.parseAll_eq_ok.mp ht
      exact lawful_bounded.readable (Datum.Readable.of_sexps hds d hd)
  | json hv => exact Datum.ofJson_bounded hv
  | image hi hd => exact Machine.readImage_bounded hi _ hd

/-- The trees that a step brings in were read, and the native procedure that it calls is offered. -/
def HostStep.Admitted : HostStep → Prop
  | .work (.build _ d) | .work (.append _ d) | .work (.set _ _ d) => d.Read
  | .work _ => True
  | .native _ _ n _ _ => n.Offered
  | .load defs => ∃ path bs, Machine.readImage path bs = .ok defs
  | .find _ _ | .eval _ _ _ | .evalText _ _ _ | .evalPlace _ _ | .define _ _ | .bind _ _
  | .unbind _ | .push _ _ | .truncate _ => True

theorem HostStep.Admitted.bounded {s : HostStep} (h : s.Admitted) : ∀ d ∈ s.trees, d.Bounded := by
  cases s with
  | work s =>
      cases s with
      | build t d | append t d | set t i d =>
          intro e he
          rw [List.mem_singleton.mp he]
          exact Datum.Read.bounded h
      | clone _ _ | requote _ _ | unquote _ _ | element _ _ _ | setHandle _ _ _ | drop _
      | compare _ _ => exact fun _ hd => by cases hd
  | load defs =>
      obtain ⟨path, bs, hi⟩ := h
      exact List.forall_mem_map.mpr (Machine.readImage_bounded hi)
  | find _ _ | eval _ _ _ | evalText _ _ _ | evalPlace _ _ | native _ _ _ _ _ | define _ _
  | bind _ _ | unbind _ | push _ _ | truncate _ => exact fun _ hd => by cases hd

/-- With an argument for each, every parameter is bound. -/
theorem isSome_find?_bindParams {params : List Name} {args : List Node}
    (hlen : params.length ≤ args.length) {name : Name} (hn : name ∈ params) :
    ((bindParams params args).find? name).isSome := by
  rw [find?_bindParams, Named.isSome_lookup_zip_iff hlen]
  exact hn

namespace Host

variable {h : Host}

/-- Trees are bounded, and only natives that are offered can be called. -/
structure Tame (h : Host) : Prop extends Carries Datum.Bounded h where
  natives : ∀ b ∈ h.machine.builtins.values, b.native.Offered

theorem Tame.fit (ht : h.Tame) : h.machine.Fit (fun _ => Datum.Bounded) Native.Offered
    h.machine.limit h.machine.depth ∅ 0 h.roots :=
  ⟨ht.sound.machine, ht.all, rfl, rfl, ht.natives⟩

theorem Tame.step (ht : h.Tame) {s : HostStep} (ha : s.Admitted) : (h.step s).Tame :=
  ⟨ht.toCarries.step ha.bounded, (ht.sound.does s).builtins ▸ ht.natives⟩

theorem Tame.run (ht : h.Tame) {steps : List HostStep} (ha : ∀ s ∈ steps, s.Admitted) :
    (h.run steps).Tame := by
  induction steps generalizing h with
  | nil => exact ht
  | cons s steps ih => exact ih (ht.step (ha s (by simp))) fun s hs => ha s (by simp [hs])

theorem tame_start {table : Named Builtin} (hn : ∀ b ∈ table.values, b.native.Offered)
    (limit : Int) (tracing : Bool) (before after : List String) :
    (start table limit tracing before after).Tame :=
  ⟨carries_start lawful_bounded table limit tracing before after,
    (fit_start lawful_bounded.law hn limit tracing before after).natives⟩

theorem evaluates_guarded (h : Host) (fuel : Nat) :
    (Regime.guarded fuel).Evaluates h.machine.limit h.machine.depth (fun _ => Datum.Bounded)
      fun _ _ => Datum.Bounded :=
  (Regime.guarded_evaluates fuel _ _).mono fun _ _ => Or.inl

theorem Tame.consumed (ht : h.Tame) {g : Name} {x : Node} (hx : h.handles.find? g = some x) :
    h.machine.Fit (fun _ => Datum.Bounded) Native.Offered h.machine.limit h.machine.depth ∅ x.cells
      (h.rootsBesides (some g)) :=
  ⟨ht.sound.consumed False.elim hx, ht.all, rfl, rfl, ht.natives⟩

theorem Tame.leadsIn (ht : h.Tame) (fuel : Nat) {g : Name} {x : Node}
    (hx : h.handles.find? g = some x) :
    (Regime.guarded fuel).LeadsIn ∅ (h.rootsBesides (some g)) h.machine (fun ev => ev x)
      fun _ => Datum.Bounded :=
  h.evaluates_guarded fuel (ht.consumed hx) (ht.handles g x hx)

theorem Tame.arity_nonneg (ht : h.Tame) {x : Node} (hx : h.Has x) : 0 ≤ h.machine.arity x := by
  cases x with
  | lambda b p k =>
      have hb := ht.has Datum.Bounded.body hx
      rw [Machine.view, ht.sound.store.view_lambda hx.visible] at hb
      cases hb with
      | lambda hlen _ _ =>
          rw [Store.length_viewSeq] at hlen
          simp only [Machine.arity, Store.arity]
          omega
  | int _ | bool _ | symbol _ | quote _ | list _ | builtin _ => exact le_rfl

theorem Tame.apply (ht : h.Tame) (fuel : Nat) {g : Name} {f : Node} {args : List Node}
    (hf : h.handles.find? g = some f)
    (hargs : ∀ y ∈ args, ∃ g', g' ≠ g ∧ h.handles.find? g' = some y) (c : InternalFailure)
    (m : Machine) : Machine.apply fuel f args h.machine ≠ .error (.failed (.internal c)) m := by
  cases f with
  | lambda b p k =>
      have visible : ∀ y ∈ args, h.machine.store.Visible (h.rootsBesides (some g)) y := by
        intro y hy
        obtain ⟨g', hne, hy⟩ := hargs y hy
        exact .of_le (cells_handle_le hy fun e => hne (Option.some.inj e).symm)
      have bounded : ∀ y ∈ args, (h.machine.view y).Bounded := by
        intro y hy
        obtain ⟨g', _, hy⟩ := hargs y hy
        exact ht.handles g' y hy
      have hl := applyLambda_leads (R := .guarded fuel)
        (fun _ => Regime.guarded_evaluates fuel _ _) (ht.consumed hf) visible (ht.handles g _ hf)
        bounded
      exact hl.guarded.2 c m
  | int _ | bool _ | symbol _ | quote _ | list _ | builtin _ =>
      intro hc
      cases hc

/-- Where only offered natives are registered, with any arity and under any name, and all trees were
read: whatever has been evaluated, bound, edited and loaded, every node that exists is whole, its
arity is not negative, and its evaluation never ends with an internal failure and is the same with
the guard. So is evaluation in place; and no call of a procedure with other nodes lacks a value for
a parameter or ends with an internal failure. -/
theorem evaluation_safe {table : Named Builtin} (hn : ∀ b ∈ table.values, b.native.Offered)
    (limit : Int) (tracing : Bool) (before after : List String) {steps : List HostStep}
    (ha : ∀ s ∈ steps, s.Admitted) (fuel : Nat) :
    let h := (start table limit tracing before after).run steps
    h.machine.intact = true ∧
    (∀ x, h.Has x → h.machine.whole x = true ∧ 0 ≤ h.machine.arity x ∧
      Act.evalCopy (evaluateGuarded fuel) x h.machine = Machine.eval fuel x h.machine ∧
      ∀ c m, Machine.eval fuel x h.machine ≠ .error (.failed (.internal c)) m) ∧
    (∀ g x, h.handles.find? g = some x →
      evaluateGuarded fuel x h.machine = evaluate fuel x h.machine ∧
      ∀ c left m, evaluate fuel x h.machine ≠ .error (left, .failed (.internal c)) m) ∧
    ∀ g f args, h.handles.find? g = some f →
      (∀ y ∈ args, ∃ g', g' ≠ g ∧ h.handles.find? g' = some y) →
      (∀ b p k, f = .lambda b p k → h.machine.arity f = (args : List Node).length →
        ∀ name ∈ h.machine.store.params p,
          ((bindParams (h.machine.store.params p)
            (h.machine.store.elements b ++ args)).find? name).isSome) ∧
      ∀ c m, Machine.apply fuel f args h.machine ≠ .error (.failed (.internal c)) m := by
  intro h
  have ht : h.Tame := (tame_start hn limit tracing before after).run ha
  have hev := h.evaluates_guarded fuel
  refine ⟨ht.sound.machine.intact ht.all, fun x hx => ?_,
    fun g x hx => (ht.leadsIn fuel hx).guarded, fun g f args hf hargs => ⟨?_, ?_⟩⟩
  · have hv := hx.visible
    have hb := ht.has Datum.Bounded.body hx
    exact ⟨ht.sound.machine.whole (hv.mono (Multiset.le_add_left _ _)) hb, ht.arity_nonneg hx,
      (hev.copy ht.fit hv hb).guarded⟩
  · rintro b p k rfl har name hname
    refine isSome_find?_bindParams ?_ hname
    simp only [Machine.arity, Store.arity] at har
    rw [List.length_append]
    omega
  · exact ht.apply fuel hf hargs

/-- A call of a builtin without its argument, read from JSON. -/
theorem evaluation_safe_raw :
    let h := (start (Builtin.table [("first", ⟨0, .car⟩)]) 0 false [] []).run
      [.work (.build "call" (.list [.builtin "first"]))]
    h.handles.find? "call" = some (.list 2) ∧
      evaluateGuarded 3 (.list 2) h.machine = evaluate 3 (.list 2) h.machine ∧
      ∀ c left m, evaluate 3 (.list 2) h.machine ≠ .error (left, .failed (.internal c)) m := by
  intro h
  have hn : ∀ b ∈ (Builtin.table [("first", ⟨0, .car⟩)]).values, b.native.Offered := by
    unfold Native.Offered
    decide
  have hread : Datum.Read (.list [.builtin "first"]) :=
    .json (v := .array [.object [(Datum.Tag.builtin, .string (Text.utf8 "first"))]]) rfl
  have found : h.handles.find? "call" = some (.list 2) := by decide
  refine ⟨found, (evaluation_safe hn 0 false [] [] (fun s hs => ?_) 3).2.2.1 "call" _ found⟩
  rw [List.mem_singleton.mp hs]
  exact hread

end Host

end CellScheme
