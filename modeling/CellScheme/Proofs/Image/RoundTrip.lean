import CellScheme.Proofs.Host.Evaluation
import CellScheme.Proofs.Image.File
import CellScheme.Proofs.Host.Start

/-!
A machine that evaluating texts and loading images leads to is saved whole: loading the file gives
a new machine the same definitions, and its image has the same bytes.
-/

namespace CellScheme

open CellScheme.Tree (World)

namespace Tree.World

variable {w : World} {defs : List (Name × Datum)}

/-- Define names one after the other. -/
def defineAll (w : World) (defs : List (Name × Datum)) : World :=
  defs.foldl (fun w (name, d) => w.define name d) w

theorem find?_define (w : World) (name other : Name) (d : Datum) :
    (w.define name d).global.find? other =
      if other = name then some d else w.global.find? other :=
  Named.find?_insert _ _ _ _

theorem find?_defineAll_of_notMem {name : Name} (h : name ∉ defs.map Prod.fst) :
    (w.defineAll defs).global.find? name = w.global.find? name := by
  induction defs generalizing w with
  | nil => rfl
  | cons p ps ih =>
      rw [List.map_cons, List.mem_cons, not_or] at h
      rw [defineAll, List.foldl_cons]
      exact (ih h.2).trans (by rw [find?_define, if_neg h.1])

theorem find?_defineAll_of_mem (hn : (defs.map Prod.fst).Nodup) {p : Name × Datum} (h : p ∈ defs) :
    (w.defineAll defs).global.find? p.1 = some p.2 := by
  induction defs generalizing w with
  | nil => cases h
  | cons q qs ih =>
      rw [List.map_cons, List.nodup_cons] at hn
      rw [defineAll, List.foldl_cons]
      rcases List.mem_cons.mp h with rfl | h
      · exact (find?_defineAll_of_notMem hn.1).trans (by rw [find?_define, if_pos rfl])
      · exact ih hn.2 h

/-- Names that were not defined are listed in their order. -/
theorem defined_defineAll (hn : (w.defined ++ defs.map Prod.fst).Nodup) :
    (w.defineAll defs).defined = w.defined ++ defs.map Prod.fst := by
  induction defs generalizing w with
  | nil => simp [defineAll]
  | cons p ps ih =>
      have hp : p.1 ∉ w.defined := fun hp =>
        (List.nodup_append.mp hn).2.2 p.1 hp p.1 (by simp) rfl
      have hd : (w.define p.1 p.2).defined = w.defined ++ [p.1] := by
        simp [define, hp]
      rw [defineAll, List.foldl_cons]
      refine (ih (w := w.define p.1 p.2) ?_).trans ?_
      · rw [hd]
        simpa using hn
      · rw [hd]
        simp

theorem defined_of (m : Machine) : (World.of m).defined = m.defined := rfl

/-- Each defined name is listed once and has a value. -/
structure Recorded (w : World) : Prop where
  nodup : w.defined.Nodup
  bound : ∀ name ∈ w.defined, (w.global.find? name).isSome

theorem Recorded.define (h : w.Recorded) (name : Name) (d : Datum) :
    (w.define name d).Recorded := by
  constructor
  · rw [World.define]
    split
    · exact h.nodup
    · rename_i hn
      rw [List.contains_iff_mem] at hn
      exact List.nodup_append.mpr ⟨h.nodup, by simp, by grind⟩
  · intro other hother
    rw [find?_define]
    split
    · rfl
    · rename_i hne
      refine h.bound other ?_
      simp only [World.define] at hother
      grind

theorem Recorded.defineAll (h : w.Recorded) (defs : List (Name × Datum)) :
    (w.defineAll defs).Recorded := by
  induction defs generalizing w with
  | nil => exact h
  | cons p ps ih => exact ih (h.define p.1 p.2)

theorem Recorded.exists_definitions (h : w.Recorded) :
    ∃ defs : List (Name × Datum), defs.map Prod.fst = w.defined ∧
      ∀ p ∈ defs, w.global.find? p.1 = some p.2 := by
  refine ⟨w.defined.attach.map fun n => (n.1, (w.global.find? n.1).get (h.bound n.1 n.2)), ?_, ?_⟩
  · simp
  · intro p hp
    obtain ⟨n, _, rfl⟩ := List.mem_map.mp hp
    simp

end Tree.World

namespace Machine

variable {V : Datum → Prop} {limit : Int} {depth : Nat} {m m' : Machine} {X F : Multiset Cell}

theorem world_defineDatum (h : m.Sound False ∅ X F) (name : Name) (d : Datum) :
    World.of (m.defineDatum name d) = (World.of m).define name d := by
  obtain ⟨g, hv⟩ := h.frame.build d
  have hs : { m with store := (m.store.build d).1 }.Sound False ∅ _ F := h.grow g
  have hw := h.world_eq hs le_rfl (h.kept_of_extends g.ext).store rfl rfl rfl rfl
  have hd := World.of_define { m with store := (m.store.build d).1 } name (m.store.build d).2
  rw [Machine.view, hv, hw] at hd
  exact hd

theorem Keeps.defineDatum (h : m.Keeps V limit depth) (name : Name) {d : Datum} (hd : V d) :
    (m.defineDatum name d).Keeps V limit depth := by
  obtain ⟨F, h⟩ := h
  obtain ⟨N, o⟩ := Host.defineDatum_outcome h.sound name d
  refine ⟨N + F, h.after o ?_⟩
  rw [world_defineDatum h.sound]
  exact h.all.define name hd

theorem Keeps.defineAll (h : m.Keeps V limit depth) {defs : List (Name × Datum)}
    (hd : ∀ p ∈ defs, V p.2) :
    (defs.foldl (fun m (name, x) => m.defineDatum name x) m).Keeps V limit depth ∧
      World.of (defs.foldl (fun m (name, x) => m.defineDatum name x) m) =
        (World.of m).defineAll defs := by
  induction defs generalizing m with
  | nil => exact ⟨h, rfl⟩
  | cons p ps ih =>
      obtain ⟨hk, hw⟩ := ih (h.defineDatum p.1 (hd p (by simp))) fun q hq => hd q (by simp [hq])
      refine ⟨hk, hw.trans ?_⟩
      obtain ⟨F, h⟩ := h
      rw [world_defineDatum h.sound]
      rfl

/-- Machines that evaluating texts and loading images leads to. -/
inductive Reached (start : Machine) : Machine → Prop where
  | start : Reached start start
  | text {m : Machine} (fuel : Nat) (text : String) :
      Reached start m → Reached start (m.run (Machine.evalText fuel text)).2
  | load {m m' : Machine} {d : Directory} {path : String} :
      Reached start m → m.load d path = .ok m' → Reached start m'

/-- What an image needs: trees that can be read back, and definitions that have values. -/
structure Imaged (limit : Int) (m : Machine) : Prop where
  keeps : m.Keeps Datum.Bounded limit 1
  recorded : (World.of m).Recorded

theorem Imaged.after_run (h : m.Imaged limit) {a : Act Node}
    {t : EStateM.Result Halt World Datum}
    (hr : ∀ F, m.Sound False ∅ 0 F → Refines False ∅ F m (a m) t)
    (hk : (m.run a).2.Keeps Datum.Bounded limit 1) :
    (m.run a).2.Imaged limit := by
  refine ⟨hk, ?_⟩
  obtain ⟨F, hm⟩ := h.keeps
  have o := Refines.inOrder hm.sound (hr F hm.sound)
  refine ⟨o.nodup h.recorded.nodup, fun name hname => ?_⟩
  rcases o.added name hname with hold | hnew
  · exact o.bound name (h.recorded.bound name hold)
  · exact hnew

theorem Imaged.evalText (h : m.Imaged limit) (fuel : Nat) (text : String) :
    (m.run (Machine.evalText fuel text)).2.Imaged limit :=
  h.after_run (fun _ hm => evalText_refines fuel hm text)
    (h.keeps.evalText lawful_bounded fuel text)

theorem Imaged.evalDatum (h : m.Imaged limit) (fuel : Nat) {d : Datum} (hd : d.Bounded) :
    (m.run (Machine.evalDatum fuel d)).2.Imaged limit :=
  h.after_run (fun _ hm => evalDatum_refines fuel hm d)
    (h.keeps.evalDatum lawful_bounded fuel hd)

theorem Imaged.load (h : m.Imaged limit) {d : Directory} {path : String}
    (hl : m.load d path = .ok m') : m'.Imaged limit := by
  obtain ⟨_, bs, defs, _, hdefs, rfl⟩ := load_eq_ok.mp hl
  obtain ⟨hk, hw⟩ := h.keeps.defineAll (readImage_bounded hdefs)
  refine ⟨hk, ?_⟩
  rw [hw]
  exact h.recorded.defineAll defs

theorem Reached.imaged {start : Machine} (hs : start.Imaged limit) (h : start.Reached m) :
    m.Imaged limit := by
  induction h with
  | start => exact hs
  | text fuel text _ ih => exact ih.evalText fuel text
  | load _ hl ih => exact ih.load hl

theorem save_eq_ok {d d' : Directory} {path : String} (h : m.save d path = .ok d') :
    d.write path m.image = .ok d' := by
  unfold save at h
  split at h
  · cases h
  · cases hw : d.write path m.image with
    | error e =>
        rw [hw] at h
        cases h
    | ok _ =>
        rw [hw] at h
        cases h
        rfl

theorem definitions_eq (m : Machine) :
    m.definitions = (World.of m).defined.map fun n => (n, (World.of m).global.find? n) := by
  refine List.map_congr_left fun n _ => ?_
  rw [World.of_eq, Tree.frameOf_find?]
  rfl

/-- Loading what the image of a machine holds gives a machine without definitions those of the
first, and nothing else. -/
theorem Imaged.load_image (h : m.Imaged limit)
    (hl : (packDefinitions m.definitions).length < 2 ^ 32) {fresh : Machine} {limit' : Int}
    (hf : fresh.Imaged limit') (hempty : fresh.defined = []) {d : Directory} {path : String}
    (hfile : d.hasFile path = true) (hread : d.read path = .ok m.image) :
    ∃ m', fresh.load d path = .ok m' ∧ m'.defined = m.defined ∧
      (∀ name ∈ m.defined,
        (World.of m').global.find? name = (World.of m).global.find? name) ∧
      ∀ name ∉ m.defined, (World.of m').global.find? name = (World.of fresh).global.find? name := by
  obtain ⟨defs, hnames, hvalues⟩ := h.recorded.exists_definitions
  have hdefs : m.definitions = defs.map fun p => (p.1, some p.2) := by
    rw [definitions_eq, ← hnames, List.map_map]
    exact List.map_congr_left fun p hp => congrArg (Prod.mk p.1) (hvalues p hp)
  have hbounded : ∀ p ∈ defs, p.2.Bounded := by
    intro p hp
    obtain ⟨F, hm⟩ := h.keeps
    exact hm.all _ (by simp) p.2 (Named.mem_values_of_lookup (hvalues p hp))
  have himage := readImage_image hdefs hbounded hl path
  refine ⟨_, load_eq_ok.mpr ⟨hfile, _, defs, hread, himage, rfl⟩, ?_⟩
  obtain ⟨_, hw⟩ := hf.keeps.defineAll hbounded
  have hnodup : (defs.map Prod.fst).Nodup := hnames ▸ h.recorded.nodup
  have hdefined : ((World.of fresh).defineAll defs).defined = m.defined := by
    have hf : (World.of fresh).defined = [] := hempty
    rw [World.defined_defineAll, hf, List.nil_append, hnames, World.defined_of]
    rw [hf, List.nil_append]
    exact hnodup
  refine ⟨(congrArg World.defined hw).trans hdefined, fun name hname => ?_, fun name hname => ?_⟩
  · obtain ⟨p, hp, rfl⟩ : ∃ p ∈ defs, p.1 = name := List.mem_map.mp (hnames ▸ hname)
    rw [hw, World.find?_defineAll_of_mem hnodup hp, hvalues p hp]
  · rw [hw, World.find?_defineAll_of_notMem (hnames ▸ hname)]

end Machine

namespace Host

/-- What registering a builtin leaves is in a new machine as in the blank one. -/
theorem withBuiltins_same {α : Type} (f : Machine → α)
    (h : ∀ m name b, f (Machine.addBuiltin m name b) = f m) (table : Named Builtin) :
    f (.withBuiltins table) = f .blank :=
  Machine.withBuiltins_ind (P := fun m => f m = f .blank) rfl
    fun m hm b _ => (h m b.1 b.2).trans hm

theorem imaged_start (table : Named Builtin) (limit : Int) (tracing : Bool)
    (before after : List String) :
    (start table limit tracing before after).machine.Imaged limit ∧
      (start table limit tracing before after).machine.defined = [] := by
  have hempty : (start table limit tracing before after).machine.defined = [] :=
    withBuiltins_same Machine.defined (fun _ _ _ => rfl) table
  refine ⟨⟨keeps_start lawful_bounded table limit tracing before after, ?_, ?_⟩, hempty⟩
  · rw [World.defined_of, hempty]
    exact .nil
  · intro name hname
    rw [World.defined_of, hempty] at hname
    cases hname

/-- A file that a machine saved loads into every new machine with the same builtins: the same names
are defined in the same order with the same trees, other names keep their values, and the loaded
machine saves what the first one does. The definitions are written as one sequence of bytes, which
has to be shorter than a header can tell, and so then are all names and sequences in it. -/
theorem load_save (table : Named Builtin) (limit limit' : Int) (tracing tracing' : Bool)
    (before after before' after' : List String) {m : Machine}
    (hm : (start table limit tracing before after).machine.Reached m)
    (hl : (packDefinitions m.definitions).length < 2 ^ 32) {d d' : Directory} {path : String}
    (hs : m.save d path = .ok d') :
    let fresh := (start table limit' tracing' before' after').machine
    ∃ m', fresh.load d' path = .ok m' ∧ m'.defined = m.defined ∧
      (∀ name ∈ m.defined, ∃ tree, (World.of m).global.find? name = some tree ∧
        (World.of m').global.find? name = some tree) ∧
      (∀ name ∉ m.defined,
        (World.of m').global.find? name = (World.of fresh).global.find? name) ∧
      d'.read path = .ok m'.image ∧ ∀ e p, m'.save e p = m.save e p := by
  intro fresh
  have him := hm.imaged (imaged_start table limit tracing before after).1
  obtain ⟨hf, hempty⟩ := imaged_start table limit' tracing' before' after'
  obtain ⟨hfile, hread⟩ := Directory.read_write (Machine.save_eq_ok hs)
  obtain ⟨m', hload, hdefined, hvalues, hothers⟩ := him.load_image hl hf hempty hfile hread
  have hdefs : m'.definitions = m.definitions := by
    rw [m'.definitions_eq, m.definitions_eq, World.defined_of, World.defined_of, hdefined]
    exact List.map_congr_left fun n hn => congrArg (Prod.mk n) (hvalues n hn)
  have himage : m'.image = m.image := by
    rw [Machine.image, Machine.image, hdefs]
  refine ⟨m', hload, hdefined, fun name hname => ?_, hothers, ?_, fun e p => ?_⟩
  · obtain ⟨tree, htree⟩ := Option.isSome_iff_exists.mp (him.recorded.bound name hname)
    exact ⟨tree, htree, (hvalues name hname).trans htree⟩
  · rw [himage, hread]
  · rw [Machine.save, Machine.save, himage]

/-- A procedure that calls a builtin. -/
theorem load_save_procedure :
    let table := Builtin.table [("+", ⟨2, .arith .add⟩)]
    let m := ((start table 0 false [] []).machine.run
      (Machine.evalText 3 "(define f (lambda (x) (+ x 1)))")).2
    m.defined = ["f"] ∧ (packDefinitions m.definitions).length < 2 ^ 32 ∧
      ∃ d' m', m.save .empty "image" = .ok d' ∧
        (start table 9 true [] []).machine.load d' "image" = .ok m' ∧ m'.defined = m.defined ∧
          d'.read "image" = .ok m'.image := by
  intro table m
  have hl : (packDefinitions m.definitions).length < 2 ^ 32 := by decide +kernel
  have hs : m.save .empty "image" = .ok (Directory.empty.withFile ["image"] m.image) := rfl
  obtain ⟨m', hload, hdefined, _, _, hread, _⟩ :=
    load_save table 0 9 false true [] [] [] [] (.text 3 _ .start) hl hs
  exact ⟨by decide +kernel, hl, _, m', hs, hload, hdefined, hread⟩

end Host

end CellScheme
