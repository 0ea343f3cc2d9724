import CellScheme.Proofs.Host.Carries

/-!
Which images can be read. A host saves its definitions whatever it has done, but an image is read
back only if every defined name still has a value: the list of defined names and the global frame
are kept in step by all that a host does, except that it may take away the value of a name.
-/

namespace CellScheme

open CellScheme.Tree (World)

/-- What an operation does to the list of defined names and to the names that are bound, of which
it may take one away. -/
structure Machine.Records (gone : Option Name) (m m' : Machine) : Prop where
  nodup : m.defined.Nodup → m'.defined.Nodup
  bound : ∀ n, gone ≠ some n → (m.scopes.global.find? n).isSome →
    (m'.scopes.global.find? n).isSome
  added : ∀ n ∈ m'.defined, n ∈ m.defined ∨ (m'.scopes.global.find? n).isSome

/-- Every defined name has a global value. -/
def Machine.Valued (m : Machine) : Prop :=
  ∀ n ∈ m.defined, (m.scopes.global.find? n).isSome

namespace Machine

variable {gone : Option Name} {m m' : Machine}

theorem Records.of_defines (d : m.Defines m') : Records gone m m' :=
  ⟨d.nodup, fun n _ => d.bound n, d.added⟩

theorem Records.of_same (hs : m'.scopes.global = m.scopes.global) (hd : m'.defined = m.defined) :
    Records gone m m' := by
  refine ⟨fun hn => hd ▸ hn, fun n _ hn => ?_, fun n hn => .inl (hd ▸ hn)⟩
  rw [hs]
  exact hn

theorem Records.of_setGlobal {name : Name} {x : Node}
    (hs : m'.scopes = m.scopes.setGlobal name x) (hd : m'.defined = m.defined) :
    Records gone m m' := by
  refine ⟨fun hn => hd ▸ hn, fun n _ hn => ?_, fun n hn => .inl (hd ▸ hn)⟩
  have hf : m'.scopes.global.find? n = if n = name then some x else m.scopes.global.find? n := by
    rw [hs]
    exact Named.find?_insert _ _ _ _
  rw [hf]
  split
  · rfl
  · exact hn

theorem defines_store (m : Machine) (st : Store) (name : Name) (x : Node) :
    m.Defines ({ m with store := st }.define name x) := by
  have same : m.Defines { m with store := st } := .of_same rfl rfl rfl rfl
  exact same.trans (.of_define _ name x)

theorem Records.valued (r : Records gone m m') (h : m.Valued)
    (hg : ∀ n, gone = some n → n ∉ m.defined) : m'.Valued := by
  intro n hn
  rcases r.added n hn with hold | hnew
  · exact r.bound n (fun e => hg n e hold) (h n hold)
  · exact hnew

end Machine

/-- The global name that an operation takes away. -/
def HostOp.unbound : HostOp → Option Name
  | .step (.unbind name) => some name
  | _ => none

namespace Host

variable {h : Host}

theorem defines_keep {a : Act Node} {t : EStateM.Result Halt World Datum} {F : Multiset Cell}
    (hr : Refines False ∅ F h.machine (a h.machine) t) (g : String) :
    h.machine.Defines (h.keep g a).machine := by
  unfold keep
  cases ha : a h.machine with
  | ok v m =>
      rw [ha] at hr
      obtain ⟨_, o, _⟩ := hr
      exact o.kept.scopes
  | error e m =>
      rw [ha] at hr
      obtain ⟨_, o, _⟩ := hr
      exact o.kept.scopes

theorem machine_evalPlace (h : Host) (fuel : Nat) (t : String) :
    (h.step (.evalPlace fuel t)).machine = (h.machine.evalPlace fuel (h.handles.find? t)).2 := by
  simp only [step]
  split
  all_goals rename_i he; rw [he]
  · rfl
  · rfl
  · split <;> rfl

theorem Sound.defines_evalPlace (hs : h.Sound) (fuel : Nat) (t : String) :
    h.machine.Defines (h.step (.evalPlace fuel t)).machine := by
  rw [machine_evalPlace]
  cases hx : h.handles.find? t with
  | none => exact .of_same rfl rfl rfl rfl
  | some x =>
      have hr := evaluate_faithful fuel (hs.consumed False.elim hx)
      simp only [Machine.evalPlace]
      cases he : evaluate fuel x h.machine with
      | ok v m =>
          rw [Act.settle_ok he] at hr
          obtain ⟨_, o, _⟩ := hr
          exact o.kept.scopes
      | error e m =>
          rw [Act.settle_error he] at hr
          obtain ⟨_, o, _⟩ := hr
          exact o.kept.scopes

theorem defines_load (m : Machine) (defs : List (Name × Datum)) :
    m.Defines (defs.foldl (fun m (name, d) => m.defineDatum name d) m) := by
  induction defs generalizing m with
  | nil => exact .of_same rfl rfl rfl rfl
  | cons p ps ih =>
      have one := m.defines_store (m.store.build p.2).1 p.1 (m.store.build p.2).2
      exact one.trans (ih (m.defineDatum p.1 p.2))

theorem Sound.records (hs : h.Sound) (op : HostOp) :
    Machine.Records op.unbound h.machine (h.perform op).machine := by
  cases op with
  | make _ _ | append _ _ | set _ _ _ => exact .of_same rfl rfl
  | register name b => exact .of_setGlobal rfl rfl
  | step s =>
      cases s with
      | work s => exact .of_same rfl rfl
      | find t name =>
          simp only [Host.perform, Host.step, Machine.find]
          cases h.machine.scopes.find? name <;> exact .of_same rfl rfl
      | eval fuel t g =>
          exact .of_defines (defines_keep (eval_refines fuel hs.machine (h.visible_find g)) t)
      | evalText fuel t text =>
          exact .of_defines (defines_keep (evalText_refines fuel hs.machine text) t)
      | evalPlace fuel t => exact .of_defines (hs.defines_evalPlace fuel t)
      | native fuel t n name args =>
          refine .of_defines (defines_keep (n.run_refines (evaluate_faithful fuel) False.elim
            hs.machine (fun x hx => ?_) name) t)
          rcases List.mem_cons.mp hx with rfl | hx
          · exact fun k hk => absurd hk (Multiset.notMem_zero k)
          · obtain ⟨g, _, rfl⟩ := List.mem_map.mp hx
            exact h.visible_find g
      | define name g =>
          exact .of_defines (h.machine.defines_store (h.machine.store.share (h.find g)) name _)
      | bind name g => exact .of_setGlobal rfl rfl
      | unbind name =>
          refine ⟨id, fun n hn hb => ?_, fun n hn => .inl hn⟩
          have hf : (h.machine.deleteGlobal name).scopes.global.find? n =
              h.machine.scopes.global.find? n :=
            handles_erase hn
          exact (congrArg Option.isSome hf).trans hb
      | load defs => exact .of_defines (defines_load h.machine defs)
      | push label bindings => exact .of_same rfl rfl
      | truncate size => exact .of_same rfl rfl

theorem Sound.nodup_performAll (hs : h.Sound) (hn : h.machine.defined.Nodup) (ops : List HostOp) :
    (h.performAll ops).machine.defined.Nodup := by
  induction ops generalizing h with
  | nil => exact hn
  | cons op ops ih => exact ih (hs.perform op) ((hs.records op).nodup hn)

/-- No name is taken away while it is defined. -/
def Spares (h : Host) : List HostOp → Prop
  | [] => True
  | op :: ops =>
    (∀ n, op.unbound = some n → n ∉ h.machine.defined) ∧ (h.perform op).Spares ops

theorem Sound.valued_performAll (hs : h.Sound) (hv : h.machine.Valued) {ops : List HostOp}
    (ho : h.Spares ops) : (h.performAll ops).machine.Valued := by
  induction ops generalizing h with
  | nil => exact hv
  | cons op ops ih => exact ih (hs.perform op) ((hs.records op).valued hv ho.1) ho.2

end Host

namespace Host

variable {h : Host}

theorem Carries.definitions {V : Datum → Prop} (hb : h.Carries V) :
    ∀ p ∈ h.machine.definitions, ∀ d, p.2 = some d → V d := by
  intro p hp d hd
  obtain ⟨n, _, rfl⟩ := List.mem_map.mp hp
  obtain ⟨x, hx, rfl⟩ := Option.map_eq_some_iff.mp hd
  refine hb.bindings x ⟨h.machine.scopes.global, ?_, Named.mem_values_of_lookup hx⟩
  exact List.mem_append.mpr (.inr (List.mem_singleton_self _))

/-- What a host has saved loads into a machine if every defined name has a value, and else into
none. -/
theorem Carries.load_saved (hb : h.Carries Datum.Bounded)
    (hl : (packDefinitions h.machine.definitions).length < 2 ^ 32) {d d' : Directory}
    {path : String} (hs : h.machine.save d path = .ok d') (m : Machine) :
    (h.machine.Valued → ∃ m', m.load d' path = .ok m') ∧
      (¬ h.machine.Valued →
        m.load d' path = .error (.corrupt path (.pack (.wrongForm .nil .array)))) := by
  obtain ⟨hfile, hread⟩ := Directory.read_write (Machine.save_eq_ok hs)
  refine ⟨fun hv => ?_, fun hv => ?_⟩
  · have some : ∀ p ∈ h.machine.definitions, p.2.isSome := by
      intro p hp
      obtain ⟨n, hn, rfl⟩ := List.mem_map.mp hp
      exact Option.isSome_map.trans (hv n hn)
    obtain ⟨defs, hdefs⟩ := exists_found some
    have hbounded : ∀ p ∈ defs, p.2.Bounded := fun p hp =>
      hb.definitions _ (hdefs ▸ List.mem_map_of_mem hp) p.2 rfl
    exact ⟨_, Machine.load_eq_ok.mpr
      ⟨hfile, _, defs, hread, Machine.readImage_image hdefs hbounded hl path, rfl⟩⟩
  · have hnone : ∃ p ∈ h.machine.definitions, p.2 = none := by
      simp only [Machine.Valued, not_forall] at hv
      obtain ⟨n, hn, hnot⟩ := hv
      refine ⟨_, List.mem_map_of_mem hn, ?_⟩
      rw [Option.not_isSome_iff_eq_none.mp hnot]
      rfl
    exact Machine.load_eq_error hfile hread (Machine.readImage_absent hb.definitions hnone hl path)

/-- In every state of a host that brings in bounded trees, the list of defined names has no name
twice, and if no name was taken away while it was defined, every name on it has a value. An image
that was saved then loads into every machine, a new one or not. In general it loads if every defined
name has a value; the image of a defined name without one is written, and no machine reads it. The
definitions are written as one sequence of bytes, which has to be shorter than a header can tell. -/
theorem load_save_iff (table : Named Builtin) (limit : Int) (tracing : Bool)
    (before after : List String) {ops : List HostOp}
    (ht : ∀ op ∈ ops, ∀ d ∈ op.trees, d.Bounded) :
    let h₀ := start table limit tracing before after
    let m := (h₀.performAll ops).machine
    m.defined.Nodup ∧ (h₀.Spares ops → m.Valued) ∧
      ∀ (d d' : Directory) (path : String), (packDefinitions m.definitions).length < 2 ^ 32 →
        m.save d path = .ok d' → ∀ other : Machine,
          (h₀.Spares ops → ∃ m', other.load d' path = .ok m') ∧
          ((∃ m', other.load d' path = .ok m') ↔ m.Valued) ∧
          (¬ m.Valued →
            other.load d' path = .error (.corrupt path (.pack (.wrongForm .nil .array)))) := by
  intro h₀ m
  have hb : (h₀.performAll ops).Carries Datum.Bounded :=
    (carries_start lawful_bounded table limit tracing before after).performAll ht
      fun _ _ ps _ => closes_bounded ps
  have hs := sound_start table limit tracing before after
  have hempty := (imaged_start table limit tracing before after).2
  have hvalued : h₀.Spares ops → m.Valued := by
    refine fun ho => hs.valued_performAll (fun n hn => ?_) ho
    rw [hempty] at hn
    cases hn
  refine ⟨hs.nodup_performAll (hempty ▸ .nil) ops, hvalued, fun d d' path hl hsave other => ?_⟩
  obtain ⟨hload, hfail⟩ := hb.load_saved hl hsave other
  refine ⟨fun ho => hload (hvalued ho), ⟨fun ⟨m', hm⟩ => ?_, hload⟩, hfail⟩
  by_contra hv
  rw [hfail hv] at hm
  cases hm

theorem load_save_iff_define :
    let h := (start .empty 0 false [] []).performAll [.step (.evalText 3 "x" "(define x 1)")]
    h.machine.defined = ["x"] ∧ ∃ d' m', h.machine.save .empty "image" = .ok d' ∧
      (start .empty 0 false [] []).machine.load d' "image" = .ok m' := by
  intro h
  have hl : (packDefinitions h.machine.definitions).length < 2 ^ 32 := by decide +kernel
  have hs : h.machine.save .empty "image" =
    .ok (Directory.empty.withFile ["image"] h.machine.image) := rfl
  have ht : ∀ op ∈ [HostOp.step (.evalText 3 "x" "(define x 1)")], ∀ d ∈ op.trees, d.Bounded := by
    simp [HostOp.trees, HostStep.trees]
  have hall := (load_save_iff .empty 0 false [] [] ht).2.2 _ _ _ hl hs
    (start .empty 0 false [] []).machine
  obtain ⟨m', hm⟩ := hall.1 ⟨fun n hn => (by cases hn), trivial⟩
  exact ⟨by decide +kernel, _, m', hs, hm⟩

/-- A defined name that is taken away: the image is saved, and loads into no machine. -/
theorem saved_unloadable :
    let h := (start .empty 0 false [] []).performAll
      [.step (.evalText 3 "x" "(define x 1)"), .step (.unbind "x")]
    h.machine.defined = ["x"] ∧ h.machine.scopes.global.find? "x" = none ∧
      ∃ d', h.machine.save .empty "image" = .ok d' ∧ ∀ m : Machine,
        m.load d' "image" = .error (.corrupt "image" (.pack (.wrongForm .nil .array))) := by
  intro h
  have hdefined : h.machine.defined = ["x"] := by decide +kernel
  have hgone : h.machine.scopes.global.find? "x" = none := by decide +kernel
  have hl : (packDefinitions h.machine.definitions).length < 2 ^ 32 := by decide +kernel
  have hb : h.Carries Datum.Bounded :=
    (carries_start lawful_bounded .empty 0 false [] []).performAll
      (by simp [HostOp.trees, HostStep.trees]) fun _ _ ps _ => closes_bounded ps
  have hs : h.machine.save .empty "image" =
    .ok (Directory.empty.withFile ["image"] h.machine.image) := rfl
  refine ⟨hdefined, hgone, _, hs, fun m => (hb.load_saved hl hs m).2 fun hv => ?_⟩
  have hx := hv "x" (by rw [hdefined]; exact List.mem_singleton_self _)
  rw [hgone] at hx
  cases hx

end Host

end CellScheme
