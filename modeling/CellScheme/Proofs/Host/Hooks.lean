import CellScheme.Proofs.Host.Carries
import CellScheme.Proofs.Lawful.Nested

/-!
What one hook before and one after each builtin log, for any machine and any expression. Hosts that
never bring in a builtin by itself see each call of a builtin at a greater depth than the one around
it.
-/

namespace CellScheme

/-- No builtin stands by itself in the trees that an operation brings in, and a builtin that it
registers has a native procedure that is offered. -/
def HostOp.Clean (op : HostOp) : Prop :=
  (∀ d ∈ op.trees, d.Confined) ∧ ∀ name b, op = .register name b → b.native.Offered

namespace Host

variable {h : Host} {fuel : Nat}

/-- No builtin stands by itself in what handles and names are on, and only natives that are offered
can be called. -/
structure Clean (h : Host) : Prop extends Carries Datum.Confined h where
  natives : ∀ b ∈ h.machine.builtins.values, b.native.Offered

theorem closes_confined (params : List Name) : Closes Datum.Confined params :=
  fun _ h => .lambda (by simp) h

theorem Clean.perform (hc : h.Clean) {op : HostOp} (ho : op.Clean) : (h.perform op).Clean := by
  refine ⟨hc.toCarries.perform ho.1 fun ps _ => closes_confined ps, ?_⟩
  cases op with
  | step s => exact (hc.sound.does s).builtins ▸ hc.natives
  | make t r | append t r | set t i r => exact hc.natives
  | register name b =>
      intro c hb
      rcases Named.mem_values_insert hb with rfl | hb
      · exact ho.2 name c rfl
      · exact hc.natives c hb

theorem Clean.performAll (hc : h.Clean) {ops : List HostOp} (ho : ∀ op ∈ ops, op.Clean) :
    (h.performAll ops).Clean := by
  induction ops generalizing h with
  | nil => exact hc
  | cons op ops ih =>
      exact ih (hc.perform (ho op (by simp))) fun op hop => ho op (by simp [hop])

theorem clean_start {table : Named Builtin} (hn : ∀ b ∈ table.values, b.native.Offered)
    (limit : Int) (tracing : Bool) (before after : List String) :
    (start table limit tracing before after).Clean :=
  ⟨carries_start lawful_confined table limit tracing before after,
    (fit_start lawful_confined.law hn limit tracing before after).natives⟩

theorem Clean.evaluate (hc : h.Clean) (fuel : Nat) {g : Name} {x : Node}
    (hx : h.handles.find? g = some x) : ¬ Fails (·.2 = .failed (.internal .absentNode))
      (evaluateFitting (· < ·) fuel 0 x h.machine) := by
  have hfit : h.machine.Fit (fun _ => Datum.Confined) Native.Offered h.machine.limit
      h.machine.depth ∅ x.cells (h.rootsBesides (some g)) :=
    ⟨hc.sound.consumed False.elim hx, hc.all, rfl, rfl, hc.natives⟩
  exact (Regime.nested_evaluates fuel h.machine.limit (Nat.zero_le _) hfit
    (.inl (hc.handles g x hx))).nested

theorem Clean.evalText (hc : h.Clean) (fuel : Nat) (text : String) :
    ¬ Fails (· = .failed (.internal .absentNode))
      (Machine.evalTextBy (evaluateFitting (· < ·) fuel 0) text h.machine) := by
  have hfit : h.machine.Fit (fun _ => Datum.Confined) Native.Offered h.machine.limit
      h.machine.depth ∅ 0 h.roots :=
    ⟨hc.sound.machine, hc.all, rfl, rfl, hc.natives⟩
  have hev := (Regime.nested_evaluates fuel h.machine.limit (Nat.zero_le h.machine.depth)).mono
    fun _ _ => Or.inl
  exact (evalTextBy_leads hev hfit text).nested

/-- The host is new, with natives that are offered, or it has only done what brings in no builtin by
itself. -/
def ReachedCleanly (h : Host) : Prop :=
  ∃ (table : Named Builtin) (limit : Int) (tracing : Bool) (before after : List String)
    (ops : List HostOp), (∀ b ∈ table.values, b.native.Offered) ∧ (∀ op ∈ ops, op.Clean) ∧
      h = (start table limit tracing before after).performAll ops

theorem ReachedCleanly.clean (hr : h.ReachedCleanly) : h.Clean := by
  obtain ⟨table, limit, tracing, before, after, ops, hn, ho, rfl⟩ := hr
  exact (clean_start hn limit tracing before after).performAll ho

theorem increasing_of_isChain {calls : List Event}
    (h : List.IsChain (· < ·) (0 :: calls.map Event.depth)) :
    (calls.map Event.depth).Pairwise (· < ·) :=
  (List.pairwise_cons.mp h.pairwise).2

/-- Whatever the machine, with one hook before and one after each builtin: what the hooks log of an
evaluation that ends with a value is well bracketed. Of one that fails it is the front of a sequence
that is, and the calls of the hook before a builtin that are not matched are those of the calls that
were going on, from the outermost to the innermost. They are what is left in the log of evaluation
without hooks that logs each call until the builtin has returned, and that ends in the same way on
the same machine. Their depths are increasing on every host that has brought in no builtin by
itself. -/
theorem hooks_bracketed {m : Machine} {pre post : String} (hpre : m.before = [pre])
    (hpost : m.after = [post]) (fuel : Nat) :
    (∀ x, ∃ es calls,
      Hooked pre post m (CellScheme.evaluate fuel x m) (evaluateActive pre fuel x (m.calling #[]))
        es calls ∧
      ∀ h : Host, h.ReachedCleanly → h.machine = m → (∃ g, h.handles.find? g = some x) →
        (calls.toList.map Event.depth).Pairwise (· < ·)) ∧
    ∀ text, ∃ es calls,
      Hooked pre post m (Machine.evalText fuel text m)
        (Machine.evalTextBy (evaluateActive pre fuel) text (m.calling #[])) es calls ∧
      ∀ h : Host, h.ReachedCleanly → h.machine = m →
        (calls.toList.map Event.depth).Pairwise (· < ·) := by
  have plain : ∀ x, Abreast (fun _ => False) (Calling pre post m.hookEvents #[] m.depth)
      (Stopped (fun _ _ => True) pre post m.hookEvents #[] 0) (CellScheme.evaluate fuel x)
      (evaluateActive pre fuel x) := fun x => by
    rw [← evaluateFitting_true fuel 0]
    exact evaluateFitting_calling (fun _ => False) (fun _ _ => .inl trivial) fuel _ _ _ 0 x
  have deeper : ∀ x, Abreast (·.2 = .failed (.internal .absentNode))
      (Calling pre post m.hookEvents #[] m.depth) (Stopped (· < ·) pre post m.hookEvents #[] 0)
      (evaluateFitting (· < ·) fuel 0 x) (evaluateActive pre fuel x) :=
    evaluateFitting_calling (· = .failed (.internal .absentNode)) (fun _ _ => .inr rfl) fuel _ _ _ 0
  refine ⟨fun x => ?_, fun text => ?_⟩
  · obtain ⟨es, calls, hooked⟩ := hooked_of_abreast hpre hpost (plain x)
    refine ⟨es, calls, hooked, fun h hr hm ⟨g, hx⟩ => increasing_of_isChain ?_⟩
    subst hm
    rw [← hooked.events]
    exact isChain_of_abreast hpre hpost (deeper x) (hr.clean.evaluate fuel hx)
  · rw [evalText_eq]
    obtain ⟨es, calls, hooked⟩ := hooked_of_abreast hpre hpost (evalTextBy_calling plain text)
    refine ⟨es, calls, hooked, fun h hr hm => increasing_of_isChain ?_⟩
    subst hm
    rw [← hooked.events]
    exact isChain_of_abreast hpre hpost (evalTextBy_calling deeper text)
      (hr.clean.evalText fuel text)

theorem hooks_bracketed_nested :
    let h := start (Builtin.table [("car", ⟨1, .car⟩), ("eval", ⟨1, .eval⟩)]) 0 false ["pre"]
      ["post"]
    h.machine.before = ["pre"] ∧ h.machine.after = ["post"] ∧ h.ReachedCleanly ∧
      ∃ es calls,
        Hooked "pre" "post" h.machine (Machine.evalText 7 "(eval '(car 1))" h.machine)
          (Machine.evalTextBy (evaluateActive "pre" 7) "(eval '(car 1))" (h.machine.calling #[]))
          es calls ∧
        calls.toList.map Event.depth = [2, 3] ∧
          (calls.toList.map Event.depth).Pairwise (· < ·) := by
  intro h
  have hn : ∀ b ∈ (Builtin.table [("car", ⟨1, .car⟩), ("eval", ⟨1, .eval⟩)]).values,
      b.native.Offered := by
    unfold Native.Offered
    decide
  have hr : h.ReachedCleanly := ⟨_, 0, false, ["pre"], ["post"], [], hn, by simp, rfl⟩
  obtain ⟨es, calls, hooked, hdepth⟩ :=
    (hooks_bracketed (m := h.machine) rfl rfl 7).2 "(eval '(car 1))"
  refine ⟨rfl, rfl, hr, es, calls, hooked, ?_, hdepth h hr rfl⟩
  rw [← hooked.events]
  decide +kernel

end Host

end CellScheme
