import CellScheme.Console
import CellScheme.Proofs.Host.Operations
import CellScheme.Proofs.Image.RoundTrip
import CellScheme.Proofs.Image.Truncation

/-!
Loading an image is all or nothing: whether it fails depends on the file alone and changes nothing,
and if it succeeds it makes the definitions that the image holds, in their order. The last
definition of a name counts, so that loading the image once more makes no difference.
-/

namespace CellScheme

open CellScheme.Tree (World)

namespace Tree.World

variable {w : World} {defs : List (Name × Datum)}

/-- The last definition of a name counts, and else the value that it had. -/
theorem find?_defineAll (w : World) (defs : List (Name × Datum)) (name : Name) :
    (w.defineAll defs).global.find? name =
      ((defs.reverse.find? fun p => p.1 = name).map Prod.snd).or (w.global.find? name) := by
  induction defs generalizing w with
  | nil => rfl
  | cons p ps ih =>
      rw [defineAll, List.foldl_cons]
      refine (ih (w.define p.1 p.2)).trans ?_
      rw [find?_define, List.reverse_cons, List.find?_append]
      cases ps.reverse.find? fun p => p.1 = name with
      | some q => rfl
      | none => by_cases h : name = p.1 <;> simp [h, eq_comm]

theorem inner_defineAll (w : World) (defs : List (Name × Datum)) :
    (w.defineAll defs).inner = w.inner := by
  induction defs generalizing w with
  | nil => rfl
  | cons p ps ih => exact ih (w.define p.1 p.2)

theorem mem_defined_define {name other : Name} {d : Datum} :
    other ∈ (w.define name d).defined ↔ other ∈ w.defined ∨ other = name := by
  simp only [define]
  split <;> simp_all

theorem mem_defined_defineAll {name : Name} :
    name ∈ (w.defineAll defs).defined ↔ name ∈ w.defined ∨ name ∈ defs.map Prod.fst := by
  induction defs generalizing w with
  | nil => simp [defineAll]
  | cons p ps ih =>
      rw [defineAll, List.foldl_cons]
      refine (ih (w := w.define p.1 p.2)).trans ?_
      rw [mem_defined_define, List.map_cons, List.mem_cons, or_assoc]

/-- Names that are on the list are not added to it again. -/
theorem defined_defineAll_of_subset (h : defs.map Prod.fst ⊆ w.defined) :
    (w.defineAll defs).defined = w.defined := by
  induction defs generalizing w with
  | nil => rfl
  | cons p ps ih =>
      rw [List.map_cons, List.cons_subset] at h
      have hd : (w.define p.1 p.2).defined = w.defined := by
        simp [define, h.1]
      rw [defineAll, List.foldl_cons]
      refine (ih (w := w.define p.1 p.2) ?_).trans hd
      rw [hd]
      exact h.2

theorem defineAll_twice (w : World) (defs : List (Name × Datum)) :
    ((w.defineAll defs).defineAll defs).defined = (w.defineAll defs).defined ∧
      ((w.defineAll defs).defineAll defs).inner = (w.defineAll defs).inner ∧
      ∀ name, ((w.defineAll defs).defineAll defs).global.find? name =
        (w.defineAll defs).global.find? name := by
  refine ⟨defined_defineAll_of_subset fun name hname => ?_, inner_defineAll _ _, fun name => ?_⟩
  · exact mem_defined_defineAll.mpr (.inr hname)
  · simp only [find?_defineAll, ← Option.or_assoc, Option.or_self]

end Tree.World

namespace Machine

variable {m m' : Machine} {F : Multiset Cell} {d : Directory} {path : String}

theorem Sound.world_defineAll (h : m.Sound False ∅ 0 F) (defs : List (Name × Datum)) :
    World.of (defs.foldl (fun m (name, x) => m.defineDatum name x) m) =
      (World.of m).defineAll defs := by
  induction defs generalizing m F with
  | nil => rfl
  | cons p ps ih =>
      obtain ⟨_, o⟩ := Host.defineDatum_outcome h p.1 p.2
      refine (ih o.sound).trans ?_
      rw [world_defineDatum h]
      rfl

theorem load_fails_alike {e : ImageFailure} (h : m.load d path = .error e) (other : Machine) :
    other.load d path = .error e := by
  cases hfile : d.hasFile path with
  | false => simpa [load, hfile] using h
  | true =>
      cases hread : d.read path with
      | error err => simpa [load, hfile, hread] using h
      | ok bs =>
          cases himage : readImage path bs with
          | error err => simpa [load, hfile, hread, himage, Except.map] using h
          | ok defs => simp [load, hfile, hread, himage, Except.map] at h

theorem Sound.load_twice (h : m.Sound False ∅ 0 F) (hl : m.load d path = .ok m') :
    ∃ bs defs, d.read path = .ok bs ∧ readImage path bs = .ok defs ∧
      World.of m' = (World.of m).defineAll defs ∧
      ∃ m'', m'.load d path = .ok m'' ∧ World.of m'' = (World.of m').defineAll defs := by
  obtain ⟨hfile, bs, defs, hread, hdefs, rfl⟩ := load_eq_ok.mp hl
  obtain ⟨_, o⟩ := Host.defineAll_outcome h defs
  exact ⟨bs, defs, hread, hdefs, h.world_defineAll defs, _,
    load_eq_ok.mpr ⟨hfile, bs, defs, hread, hdefs, rfl⟩, o.sound.world_defineAll defs⟩

end Machine

theorem Console.machine_runLoad {c : Console} {path : String} {e : ImageFailure}
    (h : c.machine.load c.directory path = .error e) : (c.runLoad path).machine = c.machine := by
  simp only [runLoad, h]
  split <;> rfl

namespace Host

/-- In every state of a host, loading a file either fails, as it does in every other state, and the
machine stays as it is; or it makes the definitions that the image holds in their order, and
loading the file once more leaves the same names defined, the same frames and the same values. What
is left of a saved image after bytes have been cut off at its end loads into no machine. -/
theorem load_all_or_nothing (table : Named Builtin) (limit : Int) (tracing : Bool)
    (before after : List String) (ops : List HostOp) (d : Directory) (path : String) :
    let m := ((start table limit tracing before after).performAll ops).machine
    (∀ e, m.load d path = .error e →
      (∀ other : Machine, other.load d path = .error e) ∧
        ∀ c : Console, c.machine = m → c.directory = d → (c.runLoad path).machine = m) ∧
    (∀ m', m.load d path = .ok m' →
      ∃ bs defs, d.read path = .ok bs ∧ Machine.readImage path bs = .ok defs ∧
        World.of m' = (World.of m).defineAll defs ∧
        ∃ m'', m'.load d path = .ok m'' ∧ m''.defined = m'.defined ∧
          (World.of m'').inner = (World.of m').inner ∧
          ∀ name, (World.of m'').global.find? name = (World.of m').global.find? name) ∧
    (∀ d', m.save d path = .ok d' → m.Summed → ∃ bs, d'.read path = .ok bs ∧
      ∀ front more, bs = front ++ more → more ≠ [] →
        ∀ (other : Machine) (dir : Directory) (path' : String), dir.read path' = .ok front →
          ∃ e, other.load dir path' = .error e) := by
  intro m
  have hs : m.Sound False ∅ 0 _ :=
    ((sound_start table limit tracing before after).performAll ops).machine
  refine ⟨fun e he => ⟨Machine.load_fails_alike he, ?_⟩, fun m' hm' => ?_, fun d' hd' hsum => ?_⟩
  · rintro c hc rfl
    rw [Console.machine_runLoad (hc ▸ he), hc]
  · obtain ⟨bs, defs, hread, hdefs, hworld, m'', hm'', hworld'⟩ := hs.load_twice hm'
    obtain ⟨hdefined, hinner, hfind⟩ := World.defineAll_twice (World.of m) defs
    rw [← hworld, ← hworld'] at hdefined hinner hfind
    exact ⟨bs, defs, hread, hdefs, hworld, m'', hm'', hdefined, hinner, hfind⟩
  · obtain ⟨_, hread⟩ := Directory.read_write (Machine.save_eq_ok hd')
    exact ⟨m.image, hread, fun front more himage hmore other dir path' hfront =>
      Machine.load_front hsum himage hmore other hfront⟩

/-- An image of one definition without its last byte. -/
theorem load_all_or_nothing_cut :
    let h := (start .empty 0 false [] []).performAll [.step (.evalText 3 "x" "(define x 1)")]
    let cut := Directory.empty.withFile ["cut"] h.machine.image.dropLast
    h.machine.defined = ["x"] ∧ h.machine.Summed ∧
      ∀ m : Machine, ∃ e, m.load cut "cut" = .error e := by
  intro h cut
  have hsum : h.machine.Summed := Machine.summed_of_lt (by decide +kernel)
  have hs : h.machine.save .empty "image" =
    .ok (Directory.empty.withFile ["image"] h.machine.image) := rfl
  have himage : (Directory.empty.withFile ["image"] h.machine.image).read "image" =
    .ok h.machine.image := rfl
  obtain ⟨bs, hread, hfront⟩ := (load_all_or_nothing .empty 0 false [] []
    [.step (.evalText 3 "x" "(define x 1)")] .empty "image").2.2 _ hs hsum
  have hbs : bs = h.machine.image := Except.ok.inj (hread.symm.trans himage)
  have hcut : bs = h.machine.image.dropLast ++ [h.machine.image.getLast h.machine.image_ne_nil] :=
    hbs.trans (List.dropLast_append_getLast _).symm
  exact ⟨by decide +kernel, hsum, fun m => hfront _ _ hcut (by simp) m cut "cut" rfl⟩

end Host

end CellScheme
