import CellScheme.Proofs.Host.Start
import Mathlib.Order.Filter.AtTopBot.Basic

/-!
A limit of the depth makes evaluation total. Builtins stand only in the bodies of the procedures
that stand for them, so whatever is evaluated is either smaller than the current expression or runs
in a frame of its own, and the number of frames is limited.
-/

namespace CellScheme

open Filter (atTop)

/-- No builtin stands in the tree, except in the bodies of procedures that stand for builtins. -/
inductive Datum.Confined : Datum → Prop where
  | int (v : Int64) : Confined (.int v)
  | bool (b : Bool) : Confined (.bool b)
  | symbol (name : Name) : Confined (.symbol name)
  | quote {d : Datum} : Confined d → Confined (.quote d)
  | list {ds : List Datum} : (∀ d ∈ ds, Confined d) → Confined (.list ds)
  | lambda {bound : List Datum} {params : List Name} {body : Datum} :
      (∀ d ∈ bound, Confined d) → Confined body → Confined (.lambda bound params body)
  | standing {bound : List Datum} {params : List Name} {body : Datum} :
      (∀ d ∈ bound, Confined d) → body.NativeCall → Confined (.lambda bound params body)

theorem lawful_confined : Lawful Datum.Confined where
  int := .int
  bool := .bool
  symbol := .symbol
  quote := by
    refine ⟨fun h => ?_, .quote⟩
    cases h with
    | quote h => exact h
  list := by
    refine ⟨fun h => ?_, .list⟩
    cases h with
    | list h => exact h
  closure _ h := .lambda (by simp) h
  bound h := by
    cases h with
    | lambda hb _ | standing hb _ => exact hb
  body h := by
    cases h with
    | lambda _ hk => exact .inl hk
    | standing _ hk => exact .inr hk
  supply h ha _ := by
    cases h with
    | lambda hb hk => exact .lambda (List.forall_mem_append.mpr ⟨hb, ha⟩) hk
    | standing hb hk => exact .standing (List.forall_mem_append.mpr ⟨hb, ha⟩) hk
  standing name arity := .standing (by simp) ⟨name, Machine.builtinParams arity, rfl⟩

/-- Evaluation that is given up when an expression is evaluated in more frames than these. A frame
is pushed only to evaluate a body in it, and nothing resumes an evaluation that was given up, so a
run that ends otherwise has had no more frames at any time. -/
def evaluateWithin (frames : Nat) : Nat → Evaluator
  | 0, x => throw (x, .starved)
  | fuel + 1, x => fun m =>
    if frames < m.depth then .error (x, .starved) m
    else evalLayer (evaluateWithin frames fuel) x m

namespace Regime

variable {frames : Nat} {limit : Int} {depth : Nat} {m : Machine} {aside : Set Cell}
  {F : Multiset Cell} {Q : List Name → Datum → Prop}

def total (frames : Nat) : Regime where
  evaluators := Filter.map evaluate atTop ⊔ Filter.map (evaluateWithin frames) atTop
  leaves := by
    have all : ∃ᶠ ev in Filter.map evaluate atTop, Leaves ev :=
      Filter.frequently_map.mpr (Filter.Frequently.of_forall evaluate_leaves)
    exact all.filter_mono le_sup_left
  expr _ := Datum.Confined
  value _ := Datum.Confined
  native _ := True
  halts h := h ≠ .starved
  law := lawful_confined.law
  fails _ _ := by simp
  knows := .inr (by simp)

theorem eventually_total {p : Evaluator → Prop} :
    (∀ᶠ ev in (total frames).evaluators, p ev) ↔
      ∃ n, ∀ fuel ≥ n, p (evaluate fuel) ∧ p (evaluateWithin frames fuel) := by
  rw [total, Filter.eventually_sup, Filter.eventually_map, Filter.eventually_map,
    ← Filter.eventually_and, Filter.eventually_atTop]

theorem total_layer (hm : m.depth ≤ frames) {x : Node}
    (h : (total frames).LeadsIn aside F m (fun ev => evalLayer ev x) Q) :
    (total frames).LeadsIn aside F m (fun ev => ev x) Q := by
  obtain ⟨r, hr, ho, he⟩ := h
  refine ⟨r, ?_, ho, he⟩
  obtain ⟨n, hn⟩ := eventually_total.mp hr
  refine eventually_total.mpr ⟨n + 1, fun fuel hf => ?_⟩
  obtain ⟨k, rfl⟩ : ∃ k, fuel = k + 1 := ⟨fuel - 1, by omega⟩
  obtain ⟨h₁, h₂⟩ := hn k (by omega)
  refine ⟨h₁, ?_⟩
  change (if frames < m.depth then _ else evalLayer (evaluateWithin frames k) x m) = r
  rw [if_neg (by omega)]
  exact h₂

theorem total_values (hm : depth ≤ frames) (hbody : (total frames).RunsBodies limit depth) :
    (total frames).Evaluates limit depth (fun _ => Datum.Confined) fun _ _ => Datum.Confined := by
  have below : ∀ s, (total frames).Evaluates limit depth ((total frames).Below s)
      fun _ _ => Datum.Confined := by
    intro s
    induction s with
    | zero => exact fun aside F m x _ hx => absurd hx.2 (Nat.not_lt_zero _)
    | succ s ih =>
        intro aside F m x h hx
        refine total_layer (h.depth_eq ▸ hm)
          (evalLayer_leads h hx.1 (ih.mono fun _ d hd => ?_) hbody ?_)
        · have hs := hx.2
          have hd2 := hd.2
          exact ⟨hd.1, by omega⟩
        · rintro ⟨_, name, hname⟩
          cases hname
  exact fun aside F m x h hx => below (sizeOf (m.view x) + 1) h ⟨hx, Nat.lt_succ_self _⟩

theorem total_of_bodies (hm : depth ≤ frames) (hbody : (total frames).RunsBodies limit depth) :
    (total frames).Evaluates limit depth (fun _ d => d.Confined ∨ d.NativeCall)
      fun _ _ => Datum.Confined := by
  have hany := total_values hm hbody
  intro aside F m x h hx
  rcases hx with hx | hx
  · exact hany h hx
  · refine total_layer (h.depth_eq ▸ hm)
      (evalLayer_nativeCall_leads h hx (fun aside F m x h hx => ?_) hany hbody)
    exact total_layer (h.depth_eq ▸ hm) (callPart_leads h hx)

theorem total_evaluates (hl : 0 < limit) (hf : limit.toNat + 1 ≤ frames) (k : Nat)
    (hm : depth ≤ frames) (hk : limit < depth + k) :
    (total frames).Evaluates limit depth (fun _ d => d.Confined ∨ d.NativeCall)
      fun _ _ => Datum.Confined := by
  induction k generalizing depth with
  | zero => exact total_of_bodies hm fun hn => absurd ⟨hl, by omega⟩ hn
  | succ k ih =>
      refine total_of_bodies hm fun hn => ?_
      have hle : (depth : Int) ≤ limit := by
        by_contra hlt
        exact hn ⟨hl, by omega⟩
      exact ih (by omega) (by push_cast; omega)

end Regime

/-- The machine after texts have been evaluated one after the other, each with its fuel. -/
def Machine.evalTexts (m : Machine) (texts : List (Nat × String)) : Machine :=
  texts.foldl (fun m (fuel, text) => (m.run (Machine.evalText fuel text)).2) m

theorem Machine.Binds.evalTexts {E V : List Name → Datum → Prop} (law : Law E V) {m : Machine}
    {limit : Int} {depth : Nat} (h : m.Binds V limit depth) (texts : List (Nat × String)) :
    (m.evalTexts texts).Binds V limit depth := by
  induction texts generalizing m with
  | nil => exact h
  | cons t texts ih => exact ih (h.evalText law t.1 t.2).1

theorem Machine.Keeps.evalTexts {V : Datum → Prop} (hV : Lawful V) {m : Machine} {limit : Int}
    {depth : Nat} (h : m.Keeps V limit depth) (texts : List (Nat × String)) :
    (m.evalTexts texts).Keeps V limit depth :=
  Machine.Binds.evalTexts hV.law h texts

namespace Host

/-- With a positive limit of the depth every text comes to an end, with a value or a failure, and
never has more frames than it started with or one more than the limit, on every machine that
evaluating texts leads to. -/
theorem evalText_total (table : Named Builtin) {limit : Int} (hl : 0 < limit) (tracing : Bool)
    (before after : List String) (texts : List (Nat × String)) (text : String) :
    let m := (start table limit tracing before after).machine.evalTexts texts
    ∃ (r : EStateM.Result Halt Machine Node) (enough : Nat), (∀ m', r ≠ .error .starved m') ∧
      ∀ fuel ≥ enough, Machine.evalText fuel text m = r ∧
        Machine.evalTextBy (evaluateWithin (max m.depth (limit.toNat + 1)) fuel) text m = r := by
  intro m
  have hstart := keeps_start lawful_confined table limit tracing before after
  obtain ⟨F, hm⟩ := hstart.evalTexts lawful_confined texts
  have hdepth : m.depth = 1 := hm.depth_eq
  have hev : (Regime.total (max m.depth (limit.toNat + 1))).Evaluates limit 1 _ _ :=
    Regime.total_evaluates hl (le_max_right _ _) (limit.toNat + 1) (by omega) (by push_cast; omega)
  obtain ⟨r, hr, _, he⟩ := evalTextBy_leads (hev.mono fun _ _ => Or.inl) hm text
  obtain ⟨n, hn⟩ := Regime.eventually_total.mp hr
  refine ⟨r, n, ?_, hn⟩
  rintro m' rfl
  exact he.2 rfl

/-- A procedure that calls itself without end. -/
theorem evalText_total_endless :
    let m := (start (Builtin.table Builtin.all) 3 false [] []).machine.evalTexts
      [(4, "(define f (lambda (x) (f (eval x))))")]
    (0 : Int) < 3 ∧
      ∃ (r : EStateM.Result Halt Machine Node) (enough : Nat), (∀ m', r ≠ .error .starved m') ∧
        ∀ fuel ≥ enough, Machine.evalText fuel "(f 1)" m = r ∧
          Machine.evalTextBy (evaluateWithin (max m.depth 4) fuel) "(f 1)" m = r :=
  ⟨by decide, evalText_total _ (by decide) false [] [] _ "(f 1)"⟩

end Host

end CellScheme
