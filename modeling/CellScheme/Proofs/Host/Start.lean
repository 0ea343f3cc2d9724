import CellScheme.Proofs.Host.Steps
import CellScheme.Proofs.Lawful.Runs

/-!
New hosts. Their names are bound to the procedures that stand for builtins, which have every
property that evaluation keeps.
-/

namespace CellScheme

open CellScheme.Tree (World)

variable {V : Datum → Prop} {K : Native → Prop} {limit : Int} {depth : Nat} {m : Machine}

theorem Machine.Fit.addBuiltin {E V : List Name → Datum → Prop} (law : Law E V)
    (h : m.Fit V K limit depth ∅ 0 m.scopes.cells) (name : Name) {b : Builtin} (hb : K b.native) :
    (m.addBuiltin name b).Fit V K limit depth ∅ 0 (m.addBuiltin name b).scopes.cells := by
  obtain ⟨g, hv⟩ := h.sound.frame.build (Machine.builtinDatum name b.arity)
  have h1 := h.with_store g.sound (h.sound.kept_of_extends g.ext).store
  have hcells := m.scopes.cells_setGlobal_le name
    (m.store.build (Machine.builtinDatum name b.arity)).2
  refine ⟨⟨?_, le_rfl, False.elim⟩, ?_, h.limit_eq, h.depth_eq, ?_⟩
  · rw [zero_add]
    exact g.sound.forget hcells
  · have hall := h1.all.define name (law.own (law.standing m.defined name b.arity) rfl)
    have hw := World.of_define
      { m with store := (m.store.build (Machine.builtinDatum name b.arity)).1 } name
      (m.store.build (Machine.builtinDatum name b.arity)).2
    rw [Machine.view, hv] at hw
    rw [← hw] at hall
    exact hall
  · intro c hc
    rcases Named.mem_values_insert hc with rfl | hc
    · exact hb
    · exact h.natives c hc

theorem Host.fit_start {E V : List Name → Datum → Prop} (law : Law E V) {table : Named Builtin}
    (ht : ∀ b ∈ table.values, K b.native) (limit : Int) (tracing : Bool)
    (before after : List String) :
    let m := (start table limit tracing before after).machine
    m.Fit V K limit 1 ∅ 0 m.scopes.cells := by
  have blank : Machine.blank.Fit V K 0 1 ∅ 0 Machine.blank.scopes.cells := by
    refine ⟨⟨Store.sound_empty, le_rfl, False.elim⟩, fun f hf d hd => ?_, rfl, rfl,
      fun b hb => ?_⟩
    · obtain rfl := List.mem_singleton.mp hf
      cases hd
    · cases hb
  have h := Machine.withBuiltins_ind (P := fun m => m.Fit V K 0 1 ∅ 0 m.scopes.cells) blank
    fun m hm b hb => hm.addBuiltin law b.1 (ht b.2 (List.mem_map_of_mem hb))
  exact ⟨⟨h.sound.store, h.sound.scopes, False.elim⟩, h.all, rfl, h.depth_eq, h.natives⟩

theorem Host.binds_start {E V : List Name → Datum → Prop} (law : Law E V) (table : Named Builtin)
    (limit : Int) (tracing : Bool) (before after : List String) :
    (start table limit tracing before after).machine.Binds V limit 1 :=
  ⟨_, fit_start law (fun _ _ => trivial) limit tracing before after⟩

theorem Host.keeps_start (hV : Lawful V) (table : Named Builtin) (limit : Int) (tracing : Bool)
    (before after : List String) :
    (start table limit tracing before after).machine.Keeps V limit 1 :=
  binds_start hV.law table limit tracing before after

end CellScheme
