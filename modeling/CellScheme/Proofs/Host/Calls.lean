import CellScheme.Proofs.Evaluation.Standing
import CellScheme.Proofs.Host.Carries
import CellScheme.Proofs.Host.Sparing

/-!
Evaluations that give a tree or fail and leave everything as it is. What an expression yields on
trees, without the builtins that look at storage, it gives in a state of a host: in new cells, on
the nodes that have its tree, and from text to text.
-/

namespace CellScheme

open CellScheme.Tree (World)

theorem Machine.seen_result {m : Machine} {a : Act Node}
    (ha : InStep (Misses m.builtins) (Restored m.builtins) a a) {r : Except Failure Datum}
    (hr : ∀ name, r ≠ .error (.runtime (.unknownBuiltin name)))
    (h : Tree.seen (a m.spared) = (World.of m.spared).result r) :
    Tree.seen (a m) = (World.of m).result r := by
  have spares : m.Spares a := by
    intro name m' e
    rw [e] at h
    cases r with
    | ok d => cases h
    | error f =>
        have he := (EStateM.Result.error.inj h).1
        exact absurd (congrArg Except.error (Halt.failed.inj he).symm) (hr name)
  rw [spares.eq_carry ha, seen_offering, h]
  cases r <;> rfl

theorem Tree.World.Stands.spared {m : Machine} {name : Name} {b : Builtin}
    (h : (World.of m).Stands name b) (hb : b.native.looksAtStorage = false) :
    (World.of m.spared).Stands name b := by
  have registered : m.builtins.find? name = some b := h.registered
  have spared : Builtin.isSpared m.builtins name = true := by
    rw [Builtin.isSpared, registered, Option.all_some, hb]
    rfl
  exact ⟨h.bound, (Builtin.find?_sparing _ _).trans ((if_pos spared).trans registered)⟩

namespace Host

variable {h : Host}

/-- An evaluation has that result, and leaves bindings, definitions and the trees of all nodes as
they are. -/
def Obtains (h : Host) (a : Act Node) (r : Except Failure Datum) : Prop :=
  Tree.seen (a h.machine) = (World.of h.machine).result r ∧
    ∀ y, h.Has y → (h.machine.run a).2.view y = h.machine.view y

/-- The tree has that result, in new cells and on every node that has it. -/
def Gives (h : Host) (fuel : Nat) (e : Datum) (r : Except Failure Datum) : Prop :=
  h.Obtains (Machine.evalDatum fuel e) r ∧
    ∀ x, h.Has x → h.machine.view x = e → h.Obtains (Machine.eval fuel x) r

theorem Sound.gives (hs : h.Sound) {fuel : Nat} {e : Datum} {r : Except Failure Datum}
    (hr : ∀ name, r ≠ .error (.runtime (.unknownBuiltin name)))
    (he : (World.of h.machine.spared).Yields fuel e r) (more : Nat) :
    h.Gives (fuel + more) e r := by
  have twin := Machine.twin_restored h.machine.builtins
  refine ⟨⟨Machine.seen_result (twin.inStep_evalDatum _ e) hr ?_, fun y hy => ?_⟩, ?_⟩
  · exact (evalDatum_refines _ hs.machine.spared e).seen_eq.trans (he more)
  · exact (evalDatum_refines _ hs.machine e).view_eq hs.machine hy.visible
  rintro x hx rfl
  refine ⟨Machine.seen_result (twin.abreast_evalCopy (twin.inStep_evaluate _) x) hr ?_,
    fun y hy => ?_⟩
  · exact (eval_refines _ hs.machine.spared hx.visible).seen_eq.trans (he more)
  · exact (eval_refines _ hs.machine hx.visible).view_eq hs.machine hy.visible

theorem Gives.evalPrint {fuel : Nat} {e : Datum} {r : Except Failure Datum}
    (hg : h.Gives fuel e r) {text : String} (ht : Datum.parse text = .ok e) :
    (h.machine.run (Machine.evalPrint fuel text)).1 =
      (r.map Datum.print).mapError Halt.failed := by
  have hseen := hg.1.1
  have hread : Machine.evalText fuel text h.machine = Machine.evalDatum fuel e h.machine := by
    rw [Machine.evalText, ht]
    rfl
  rw [← hread] at hseen
  rw [Machine.run, Machine.evalPrint]
  cases hv : Machine.evalText fuel text h.machine with
  | ok v m =>
      rw [hv] at hseen
      cases r with
      | ok d =>
          obtain rfl : m.view v = d := (EStateM.Result.ok.inj hseen).1
          rw [Act.bind_ok hv, Act.read_bind]
          rfl
      | error f => cases hseen
  | error e m =>
      rw [hv] at hseen
      cases r with
      | ok d => cases hseen
      | error f =>
          obtain rfl : e = .failed f := (EStateM.Result.error.inj hseen).1
          rw [Act.bind_error hv]
          rfl

end Host

end CellScheme
