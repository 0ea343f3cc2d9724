import CellScheme.Proofs.Evaluation.Hooks
import CellScheme.Proofs.Host.Depth

/-!
Calls of builtins inside one another. Where builtins stand only in the bodies of the procedures that
stand for them, a builtin is called in the frame of such a procedure and only evaluates expressions
that call no builtin before they have entered another frame. So each call is deeper than the one
around it, and evaluation that breaks off at any other call never breaks off.
-/

namespace CellScheme

variable {limit : Int} {depth fuel outer : Nat} {m : Machine} {aside : Set Cell}
  {F : Multiset Cell} {Q : List Name → Datum → Prop}

open Classical in
/-- Call a builtin, and break off where its depth being greater than an outer one would make a
difference. -/
noncomputable def callNested (fuel outer : Nat) : Caller := fun name form m =>
  if callFitting (· < ·) outer (evaluateFitting (· < ·) fuel) name form m =
      callBuiltin (evaluate fuel) name form m then
    callBuiltin (evaluate fuel) name form m
  else .error (.failed (.internal .absentNode)) m

theorem callNested_cases (fuel outer : Nat) (name : Name) (form : List Node) (m : Machine) :
    Fails (· = .failed (.internal .absentNode)) (callNested fuel outer name form m) ∨
      callBuiltin (evaluate fuel) name form m = callNested fuel outer name form m ∧
        callFitting (· < ·) outer (evaluateFitting (· < ·) fuel) name form m =
          callNested fuel outer name form m := by
  by_cases e : callFitting (· < ·) outer (evaluateFitting (· < ·) fuel) name form m =
    callBuiltin (evaluate fuel) name form m
  · rw [callNested, if_pos e]
    exact .inr ⟨rfl, e⟩
  · rw [callNested, if_neg e]
    exact .inl rfl

namespace Regime

/-- Evaluation with a given fuel, and evaluation that breaks off at calls of builtins that are not
deeper than the one around them, where only known builtins are offered. It may halt with a failure
of the program or for want of fuel. -/
def nested (fuel outer : Nat) : Regime where
  evaluators := pure (evaluate fuel) ⊔ pure (evaluateFitting (· < ·) fuel outer)
  leaves := frequently_leaves le_sup_left
  expr _ := Datum.Confined
  value _ := Datum.Confined
  native := Native.Offered
  halts h := ∀ c, h ≠ .failed (.internal c)
  law := lawful_confined.law
  fails := halt_not_internal
  knows := knows_of_offered

theorem Leads.nested {a : Evaluator → Act Node} (h : (nested fuel outer).Leads aside F m a Q) :
    ¬ Fails (· = .failed (.internal .absentNode)) (a (evaluateFitting (· < ·) fuel outer) m) := by
  obtain ⟨r, hr, _, he⟩ := h
  have hr : a (evaluateFitting (· < ·) fuel outer) m = r := (eventually_pair.mp hr).2
  rw [hr]
  cases r with
  | ok v m => exact id
  | error e m => exact he.2 _

theorem LeadsIn.nested {a : Evaluator → PlaceAct Node}
    (h : (nested fuel outer).LeadsIn aside F m a Q) :
    ¬ Fails (·.2 = .failed (.internal .absentNode)) (a (evaluateFitting (· < ·) fuel outer) m) := by
  obtain ⟨r, hr, _, he⟩ := h
  have hr : a (evaluateFitting (· < ·) fuel outer) m = r := (eventually_pair.mp hr).2
  rw [hr]
  cases r with
  | ok v m => exact id
  | error e m => exact he.2 _

theorem nested_starved {x : Node}
    (h : m.Fit (nested 0 outer).value (nested 0 outer).native limit depth aside x.cells F) :
    (nested 0 outer).LeadsIn aside F m (fun ev => ev x) Q :=
  starved_leads h (by rintro c ⟨⟩) (eventually_pair.mpr ⟨rfl, rfl⟩)

theorem nested_layer {x : Node} (h : (nested fuel outer).LeadsIn aside F m
      (fun ev => evalLayerBy (callNested fuel outer) ev x) Q) :
    (nested (fuel + 1) outer).LeadsIn aside F m (fun ev => ev x) Q := by
  obtain ⟨r, hr, ho, he⟩ := h
  obtain ⟨h₁, h₂⟩ := eventually_pair.mp hr
  have whole : ¬ Fails (fun e : Node × Halt => e.2 = .failed (.internal .absentNode)) r := by
    intro hf
    cases r with
    | ok v m' => exact hf
    | error e m' => exact he.2 _ hf
  have same {call : Caller} {ev : Evaluator} (hr : evalLayerBy (callNested fuel outer) ev x m = r)
      (hcall : ∀ name form m, call name form m = callNested fuel outer name form m ∨
        Fails (· = .failed (.internal .absentNode)) (callNested fuel outer name form m)) :
      evalLayerBy call ev x m = r := by
    have e := evalLayerBy_congr (fun name form m => (hcall name form m).symm) ev x m
    rw [hr] at e
    exact e.resolve_left whole
  refine ⟨r, eventually_pair.mpr ⟨?_, ?_⟩, ho, he⟩
  · exact (congrFun (evalLayerBy_callBuiltin _ x) m).symm.trans (same h₁ fun name form m =>
      (callNested_cases fuel outer name form m).symm.imp_left And.left)
  · exact same h₂ fun name form m =>
      (callNested_cases fuel outer name form m).symm.imp_left And.right

theorem nested_calls (hfits : outer < depth) (hany : (nested fuel depth).Evaluates limit depth
      (fun _ => Datum.Confined) fun _ _ => Datum.Confined) (name : Name) :
    (nested fuel outer).Calls limit depth (fun _ => callNested fuel outer) name := by
  intro aside F m form h hv hval
  obtain ⟨r, hr, ho, he⟩ := callBuiltin_leads hany h hv hval name
  obtain ⟨h₁, h₂⟩ := eventually_pair.mp hr
  have fitting : callFitting (· < ·) outer (evaluateFitting (· < ·) fuel) name form m = r := by
    rw [callFitting, h.depth_eq, if_pos hfits]
    exact h₂
  exact ⟨r, .of_forall fun _ => (if_pos (fitting.trans h₁.symm)).trans h₁, ho, he⟩

theorem nested_parts : (nested fuel outer).Evaluates limit depth (fun _ => Datum.CallPart)
    (nested fuel outer).CallElement := by
  intro aside F m x h hx
  cases fuel with
  | zero => exact nested_starved h
  | succ fuel =>
      refine nested_layer (.congr (callPart_leads (R := nested fuel outer) h hx) fun ev => ?_)
      rcases hx with ⟨name, hx⟩ | ⟨name, hx⟩
      · obtain rfl := builtin_of_view h.sound .root hx
        rfl
      · obtain rfl := symbol_of_view h.sound .root hx
        rfl

/-- No call breaks off. The calls in the frame of a builtin are known by induction on the fuel,
which is about any outer depth. -/
theorem nested_evaluates (fuel : Nat) (limit : Int) {depth outer : Nat} (hle : outer ≤ depth) :
    (nested fuel outer).Evaluates limit depth
      (fun _ d => d.Confined ∨ d.NativeCall ∧ outer < depth) fun _ _ => Datum.Confined := by
  induction fuel generalizing depth outer with
  | zero => exact fun aside F m x h _ => nested_starved h
  | succ fuel ih =>
      have hbody : (nested fuel outer).RunsBodies limit depth := fun _ =>
        (ih (Nat.le_succ_of_le hle)).mono
          fun _ d hd => hd.imp_right fun hn => ⟨hn, Nat.lt_succ_of_le hle⟩
      intro aside F m x h hx
      rcases hx with hx | ⟨hx, hlt⟩
      · exact nested_layer (evalLayerBy_leads (R := nested fuel outer) h hx
          ((ih hle).mono fun _ _ hd => .inl hd.1) hbody fun name ⟨_, hn⟩ => by cases hn)
      · exact nested_layer (evalLayerBy_nativeCall_leads (R := nested fuel outer) h hx nested_parts
          (nested_calls hlt ((ih le_rfl).mono fun _ _ => .inl)) hbody)

end Regime

end CellScheme
