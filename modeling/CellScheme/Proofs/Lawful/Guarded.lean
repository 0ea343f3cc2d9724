import CellScheme.Proofs.Image.Definitions
import CellScheme.Proofs.Lawful.Runs

/-!
Evaluation that looks before it reads. The guarded evaluator looks at every expression before it is
evaluated and at every value that comes back, with all the bindings of that moment, and breaks off
if a cell is missing or a procedure has more bound arguments than parameters. On machines that only
offer known builtins and only bind such trees it never breaks off, and no internal failure arises.
-/

namespace CellScheme

open CellScheme.Tree (World)

namespace Datum

mutual
/-- Whether no procedure in the tree has more bound arguments than parameters. -/
def isBounded : Datum → Bool
  | .int _ | .bool _ | .symbol _ | .builtin _ => true
  | .quote d => d.isBounded
  | .list ds => allBounded ds
  | .lambda bound params body =>
    decide (bound.length ≤ params.length) && allBounded bound && body.isBounded
termination_by structural d => d

def allBounded : List Datum → Bool
  | [] => true
  | d :: ds => d.isBounded && allBounded ds
termination_by structural ds => ds
end

theorem allBounded_iff {ds : List Datum} : allBounded ds = true ↔ ∀ d ∈ ds, d.isBounded = true := by
  induction ds with
  | nil => simp [allBounded]
  | cons d ds ih => simp [allBounded, ih]

theorem Bounded.isBounded {d : Datum} (h : d.Bounded) : d.isBounded = true := by
  induction h with
  | int _ | bool _ | symbol _ | builtin _ => rfl
  | quote _ ih => exact ih
  | list _ ih => exact allBounded_iff.mpr ih
  | lambda hlen _ _ ihb ihk =>
      rw [Datum.isBounded, allBounded_iff.mpr ihb, ihk, decide_eq_true hlen]
      rfl

end Datum

namespace Machine

/-- All cells that the node leads to are there, and its tree is bounded. -/
def whole (m : Machine) (x : Node) : Bool :=
  (m.store.view? m.store.gas x).any Datum.isBounded

/-- Everything that the frames bind is whole. -/
def intact (m : Machine) : Bool :=
  m.scopes.frames.all fun f => f.bindings.values.all m.whole

end Machine

/-- Evaluation that breaks off at an expression or a value that is not whole, and if a binding is
not. -/
def evaluateGuarded : Nat → Evaluator
  | 0, x => throw (x, .starved)
  | fuel + 1, x => fun m =>
    if m.whole x && m.intact then
      match evalLayer (evaluateGuarded fuel) x m with
      | .ok v m =>
        if m.whole v && m.intact then .ok v m else .error (x, .failed (.internal .absentNode)) m
      | .error e m => .error e m
    else .error (x, .failed (.internal .absentNode)) m

variable {K : Native → Prop} {limit : Int} {depth : Nat} {m : Machine} {aside : Set Cell}
  {X F : Multiset Cell}

namespace Machine.Sound

theorem whole (h : m.Sound False aside X F) {x : Node} (hx : m.store.Visible (X + F) x)
    (hb : (m.view x).Bounded) : m.whole x = true := by
  obtain ⟨L, hL⟩ := h.store
  rw [Machine.whole, hL.view?_eq (hL.visible_mem hx)]
  exact hb.isBounded

theorem intact (h : m.Sound False aside X F) (hb : (World.of m).All Datum.Bounded) :
    m.intact = true := by
  refine List.all_eq_true.mpr fun f hf => List.all_eq_true.mpr fun x hx => ?_
  refine h.whole (.of_le ?_) (World.all_of.mp hb f hf x hx)
  exact (Scopes.cells_le_of_mem_frames hf hx).trans
    (h.scopes.trans (Multiset.le_add_left _ _))

end Machine.Sound

namespace Regime

/-- Evaluation with a given fuel, with and without the guard, where only known builtins are offered.
It may halt with a failure of the program or for want of fuel. -/
def guarded (fuel : Nat) : Regime where
  evaluators := pure (evaluate fuel) ⊔ pure (evaluateGuarded fuel)
  leaves := frequently_leaves le_sup_left
  expr _ := Datum.Bounded
  value _ := Datum.Bounded
  native := Native.Offered
  halts h := ∀ c, h ≠ .failed (.internal c)
  law := lawful_bounded.law
  fails := halt_not_internal
  knows := knows_of_offered

theorem Leads.guarded {fuel : Nat} {a : Evaluator → Act Node} {Q : List Name → Datum → Prop}
    (h : (guarded fuel).Leads aside F m a Q) :
    a (evaluateGuarded fuel) m = a (evaluate fuel) m ∧
      ∀ c m', a (evaluate fuel) m ≠ .error (.failed (.internal c)) m' := by
  obtain ⟨r, hr, _, he⟩ := h
  obtain ⟨h₁, h₂⟩ := eventually_pair.mp hr
  refine ⟨h₂.trans h₁.symm, fun c m' hc => ?_⟩
  obtain rfl := h₁.symm.trans hc
  exact he.2 c rfl

theorem LeadsIn.guarded {fuel : Nat} {a : Evaluator → PlaceAct Node} {Q : List Name → Datum → Prop}
    (h : (guarded fuel).LeadsIn aside F m a Q) :
    a (evaluateGuarded fuel) m = a (evaluate fuel) m ∧
      ∀ c left m', a (evaluate fuel) m ≠ .error (left, .failed (.internal c)) m' := by
  obtain ⟨r, hr, _, he⟩ := h
  obtain ⟨h₁, h₂⟩ := eventually_pair.mp hr
  refine ⟨h₂.trans h₁.symm, fun c left m' hc => ?_⟩
  obtain rfl := h₁.symm.trans hc
  exact he.2 c rfl

theorem Occurs.bounded {fuel : Nat} {ns : List Name} {d : Datum} (h : (guarded fuel).Occurs ns d) :
    d.Bounded := by
  rcases h with h | ⟨name, params, rfl⟩ | ⟨name, rfl⟩ | ⟨name, rfl⟩
  · exact h
  · refine .list fun d hd => ?_
    rcases List.mem_cons.mp hd with rfl | hd
    · exact .builtin name
    · obtain ⟨p, _, rfl⟩ := List.mem_map.mp hd
      exact .symbol p
  · exact .builtin name
  · exact .symbol name

theorem guarded_evaluates (fuel : Nat) (limit : Int) (depth : Nat) :
    (guarded fuel).Evaluates limit depth (fun _ d => d.Bounded ∨ d.NativeCall)
      fun _ _ => Datum.Bounded := by
  refine fueled_evaluates (R := guarded fuel)
    (fun k => pure (evaluate k) ⊔ pure (evaluateGuarded k)) (fun _ => le_sup_left) ?_ ?_ fuel limit
    depth
  · intro limit depth m aside F x Q h
    exact starved_leads (R := guarded 0) h (by rintro c ⟨⟩) (eventually_pair.mpr ⟨rfl, rfl⟩)
  · intro k limit depth m aside F x Q h hx hQ hl
    obtain ⟨r, hr, ho, he⟩ := hl
    obtain ⟨h₁, h₂⟩ := eventually_pair.mp hr
    refine ⟨r, eventually_pair.mpr ⟨h₁, ?_⟩, ho, he⟩
    have hbefore : (m.whole x && m.intact) = true := by
      rw [h.sound.whole .root hx.bounded, h.sound.intact h.all]
      rfl
    simp only [evaluateGuarded, hbefore, if_true, h₂]
    cases r with
    | error e m' => rfl
    | ok v m' =>
        obtain ⟨N, o, _⟩ := ho (.error .starved (World.of m))
        have hafter : (m'.whole v && m'.intact) = true := by
          rw [o.sound.whole .root (hQ _ _ he.2).bounded, o.sound.intact he.1]
          rfl
        simp only [hafter, if_true]

end Regime

end CellScheme
