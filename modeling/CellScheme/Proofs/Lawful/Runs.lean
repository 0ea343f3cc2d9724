import CellScheme.Proofs.Lawful.Evaluate
import CellScheme.Proofs.Reading.RoundTrip
import Mathlib.Order.Filter.Map

/-!
What holds of expressions that are read and of the bindings of a machine holds of every machine that
evaluating texts leads to, whatever the fuel of each evaluation.
-/

namespace CellScheme

open CellScheme.Tree (World)

variable {V : Datum → Prop} {K : Native → Prop} {R : Regime} {limit : Int} {depth : Nat}
  {m : Machine} {aside : Set Cell} {X F : Multiset Cell}

theorem Law.readable {E V : List Name → Datum → Prop} (law : Law E V) (ns : List Name) {d : Datum}
    (h : d.Readable) : E ns d := by
  induction h with
  | int v => exact law.expr (law.int ns v)
  | bool b => exact law.expr (law.bool ns b)
  | symbol h => exact law.symbol ns h
  | quote _ ih => exact law.quote.mpr ih
  | list _ ih => exact law.list.mpr ih

theorem Lawful.readable (hV : Lawful V) {d : Datum} (h : d.Readable) : V d :=
  hV.law.readable [] h

/-- Evaluate a tree in new cells with an evaluator. -/
def Machine.evalDatumBy (ev : Evaluator) (d : Datum) : Act Node := do
  Act.evalCopy ev (← build d)

/-- Evaluate the one expression of a text with an evaluator. -/
def Machine.evalTextBy (ev : Evaluator) (text : String) : Act Node := do
  let x ← build (← Act.ofExcept (Datum.parse text))
  Act.evalCopy ev x

theorem evalText_eq (fuel : Nat) (text : String) :
    Machine.evalText fuel text = Machine.evalTextBy (evaluate fuel) text := rfl

theorem Datum.parse_outward {text : String} {f : Failure} (h : Datum.parse text = .error f) :
    f.Outward := by
  by_cases hs : ∃ d, Grammar.Script text.toList [d]
  · obtain ⟨d, hd⟩ := hs
    rw [Datum.parse_eq_ok.mpr hd] at h
    cases h
  · obtain ⟨e, he⟩ := Datum.parse_error_of_not hs
    rw [he] at h
    cases h
    trivial

theorem evalDatumBy_leads (hev : R.Evaluates limit depth R.expr fun _ => R.value)
    (h : m.Fit R.value R.native limit depth aside X F) {d : Datum} (hd : R.expr m.defined d) :
    R.Leads aside F m (fun ev => Machine.evalDatumBy ev d) R.value := by
  obtain ⟨g, hv⟩ := h.sound.frame.build d
  have k := h.sound.kept_of_extends g.ext
  have h1 := h.with_store g.sound k.store
  have hval : R.expr m.defined
      ({ m with store := (m.store.build d).1 }.view (m.store.build d).2) := by
    rw [Machine.view, hv]
    exact hd
  have hl := hev.copy h1.keepAll .root hval
  exact hl.mono.after k rfl fun _ => rfl

theorem evalTextBy_leads (hev : R.Evaluates limit depth R.expr fun _ => R.value)
    (h : m.Fit R.value R.native limit depth aside X F) (text : String) :
    R.Leads aside F m (fun ev => Machine.evalTextBy ev text) R.value := by
  refine .ofExcept_bind h (fun f hf => R.fails f (Datum.parse_outward hf)) fun d hd => ?_
  obtain ⟨ls, _, hds⟩ := Datum.parse_eq_ok.mp hd
  exact evalDatumBy_leads hev h (R.law.readable _ (Datum.Readable.of_sexps hds d (by simp)))

theorem frequently_leaves {evs : Filter Evaluator} {fuel : Nat} (h : pure (evaluate fuel) ≤ evs) :
    ∃ᶠ ev in evs, Leaves ev :=
  (Filter.frequently_pure.mpr (evaluate_leaves fuel)).filter_mono h

namespace Regime

/-- The same regime for the evaluators of one amount of fuel. -/
def fueled (R : Regime) (evs : Nat → Filter Evaluator) (hevs : ∀ k, pure (evaluate k) ≤ evs k)
    (fuel : Nat) : Regime :=
  { R with evaluators := evs fuel, leaves := frequently_leaves (hevs fuel) }

/-- What comes up in evaluation: expressions, and the parts of procedures that stand for
builtins. -/
def Occurs (R : Regime) (ns : List Name) (d : Datum) : Prop :=
  R.expr ns d ∨ d.NativeCall ∨ d.CallPart

/-- If without fuel evaluation may end in any way, and with more fuel it ends as its layer does,
then with any fuel it makes values of expressions. -/
theorem fueled_evaluates (evs : Nat → Filter Evaluator) (hevs : ∀ k, pure (evaluate k) ≤ evs k)
    (zero : ∀ {limit : Int} {depth : Nat} {m : Machine} {aside : Set Cell} {F : Multiset Cell}
      {x : Node} {Q : List Name → Datum → Prop},
        m.Fit R.value R.native limit depth aside x.cells F →
          (R.fueled evs hevs 0).LeadsIn aside F m (fun ev => ev x) Q)
    (succ : ∀ {fuel : Nat} {limit : Int} {depth : Nat} {m : Machine} {aside : Set Cell}
      {F : Multiset Cell} {x : Node} {Q : List Name → Datum → Prop},
        m.Fit R.value R.native limit depth aside x.cells F → R.Occurs m.defined (m.view x) →
          (∀ ns d, Q ns d → R.Occurs ns d) →
          (R.fueled evs hevs fuel).LeadsIn aside F m (fun ev => evalLayer ev x) Q →
            (R.fueled evs hevs (fuel + 1)).LeadsIn aside F m (fun ev => ev x) Q)
    (fuel : Nat) (limit : Int) (depth : Nat) :
    (R.fueled evs hevs fuel).Evaluates limit depth (fun ns d => R.expr ns d ∨ d.NativeCall)
      fun _ => R.value := by
  induction fuel generalizing depth with
  | zero => exact fun aside F m x h _ => zero h
  | succ fuel ih =>
      have hpart : (R.fueled evs hevs fuel).Evaluates limit depth (fun _ => Datum.CallPart)
          (R.fueled evs hevs fuel).CallElement := by
        intro aside F m x h hx
        cases fuel with
        | zero => exact zero h
        | succ fuel =>
            refine succ h (.inr (.inr hx)) (fun ns d hd => ?_)
              (callPart_leads (R := R.fueled evs hevs fuel) h hx)
            rcases hx with ⟨name, hx⟩ | ⟨name, hx⟩
            · exact .inr (.inr (.inl ⟨name, (hd.1 name hx).trans hx⟩))
            · exact .inl (R.law.expr (hd.2 name hx))
      have hany : (R.fueled evs hevs fuel).Evaluates limit depth R.expr fun _ => R.value :=
        (ih depth).mono fun _ _ => .inl
      intro aside F m x h hx
      have hvalue : ∀ ns d, R.value ns d → R.Occurs ns d := fun _ _ hd => .inl (R.law.expr hd)
      rcases hx with hx | hx
      · exact succ h (.inl hx) hvalue (evalLayer_leads h hx (hany.mono fun _ _ hd => hd.1)
          (fun _ => ih (depth + 1)) fun _ => hany)
      · exact succ h (.inr (.inl hx)) hvalue
          (evalLayer_nativeCall_leads h hx hpart hany fun _ => ih (depth + 1))

theorem knows_of_any : (∀ n : Native, True → n.Offered) ∨ ∀ _ : Failure, True :=
  .inr fun _ => trivial

theorem knows_of_offered : (∀ n : Native, n.Offered → n.Offered) ∨
    ∀ (f : Failure) (c : InternalFailure), Halt.failed f ≠ .failed (.internal c) :=
  .inl fun _ h => h

/-- A failure that an expression can be blamed for is not one of the store. -/
theorem halt_not_internal (f : Failure) (hf : f.Outward) (c : InternalFailure) :
    Halt.failed f ≠ .failed (.internal c) := by
  rintro ⟨⟩
  exact hf

theorem eventually_pair {ev ev' : Evaluator} {p : Evaluator → Prop} :
    (∀ᶠ ev in pure ev ⊔ pure ev', p ev) ↔ p ev ∧ p ev' := by
  rw [Filter.eventually_sup, Filter.eventually_pure, Filter.eventually_pure]

theorem starved_leads {x : Node} {Q : List Name → Datum → Prop}
    (h : m.Fit R.value R.native limit depth aside x.cells F) (halts : R.halts .starved)
    (starved : ∀ᶠ ev in R.evaluators, ev x m = .error (x, .starved) m) :
    R.LeadsIn aside F m (fun ev => ev x) Q :=
  ⟨_, starved, fun _ => (Refines.throw h.sound).congr False.elim, h.all, halts⟩

/-- One evaluator, which may halt in any way. -/
def fixed {E V : List Name → Datum → Prop} (law : Law E V) (fuel : Nat) : Regime where
  evaluators := pure (evaluate fuel)
  leaves := frequently_leaves le_rfl
  expr := E
  value := V
  native _ := True
  halts _ := True
  law := law
  fails _ _ := trivial
  knows := knows_of_any

theorem fixed_evaluates {E V : List Name → Datum → Prop} (law : Law E V) (fuel : Nat) (limit : Int)
    (depth : Nat) :
    (fixed law fuel).Evaluates limit depth (fun ns d => E ns d ∨ d.NativeCall) fun _ => V := by
  refine fueled_evaluates (R := fixed law fuel) (fun k => pure (evaluate k)) (fun _ => le_rfl) ?_ ?_
    fuel limit depth
  · intro limit depth m aside F x Q h
    exact starved_leads (R := fixed law 0) h trivial (Filter.eventually_pure.mpr rfl)
  · intro fuel limit depth m aside F x Q _ _ _ hl
    obtain ⟨r, hr, ho, he⟩ := hl
    exact ⟨r, Filter.eventually_pure.mpr (Filter.eventually_pure.mp hr), ho, he⟩

end Regime

/-- A machine whose bindings are values, with nothing else as roots. -/
def Machine.Binds (V : List Name → Datum → Prop) (limit : Int) (depth : Nat) (m : Machine) : Prop :=
  ∃ F, m.Fit V (fun _ => True) limit depth ∅ 0 F

theorem Regime.Leads.binds {E V : List Name → Datum → Prop} {law : Law E V} {fuel : Nat}
    (h : m.Fit V (fun _ => True) limit depth ∅ 0 F) {a : Evaluator → Act Node}
    (hl : (Regime.fixed law fuel).Leads ∅ F m a V) :
    (m.run (a (evaluate fuel))).2.Binds V limit depth ∧
      ∀ v m', a (evaluate fuel) m = .ok v m' →
        ∃ F, m'.Fit V (fun _ => True) limit depth ∅ v.cells F ∧ V m'.defined (m'.view v) := by
  obtain ⟨r, hr, ho, he⟩ := hl
  have hr : a (evaluate fuel) m = r := Filter.eventually_pure.mp hr
  rw [Machine.run, hr]
  cases r with
  | ok v m' =>
      obtain ⟨N, o, _⟩ := ho (.error .starved (World.of m))
      have hfit := h.after o he.1
      refine ⟨⟨_, hfit.forget⟩, fun v' m'' e => ?_⟩
      cases e
      exact ⟨_, hfit, he.2⟩
  | error e m' =>
      obtain ⟨N, o, _⟩ := ho (.error .starved (World.of m))
      exact ⟨⟨_, h.after o he.1⟩, fun v' m'' e => by cases e⟩

theorem Machine.Binds.evalText {E V : List Name → Datum → Prop} (law : Law E V)
    (h : m.Binds V limit depth) (fuel : Nat) (text : String) :
    (m.run (Machine.evalText fuel text)).2.Binds V limit depth ∧
      ∀ v m', Machine.evalText fuel text m = .ok v m' →
        ∃ F, m'.Fit V (fun _ => True) limit depth ∅ v.cells F ∧ V m'.defined (m'.view v) := by
  obtain ⟨F, h⟩ := h
  have hev := (Regime.fixed_evaluates law fuel limit depth).mono fun _ _ => Or.inl
  exact (evalTextBy_leads hev h text).binds h

theorem Machine.Binds.evalDatum {E V : List Name → Datum → Prop} (law : Law E V)
    (h : m.Binds V limit depth) (fuel : Nat) {d : Datum} (hd : E m.defined d) :
    (m.run (Machine.evalDatum fuel d)).2.Binds V limit depth := by
  obtain ⟨F, h⟩ := h
  have hev := (Regime.fixed_evaluates law fuel limit depth).mono fun _ _ => Or.inl
  exact ((evalDatumBy_leads hev h hd).binds h).1

/-- A machine of which the property holds, with nothing but the bindings as roots. -/
def Machine.Keeps (V : Datum → Prop) (limit : Int) (depth : Nat) (m : Machine) : Prop :=
  m.Binds (fun _ => V) limit depth

theorem Machine.Keeps.evalText (hV : Lawful V) (h : m.Keeps V limit depth) (fuel : Nat)
    (text : String) : (m.run (Machine.evalText fuel text)).2.Keeps V limit depth :=
  (Machine.Binds.evalText hV.law h fuel text).1

theorem Machine.Keeps.evalDatum (hV : Lawful V) (h : m.Keeps V limit depth) (fuel : Nat)
    {d : Datum} (hd : V d) : (m.run (Machine.evalDatum fuel d)).2.Keeps V limit depth :=
  Machine.Binds.evalDatum hV.law h fuel hd

end CellScheme
