import CellScheme.Proofs.Host.NonInterference
import CellScheme.Proofs.Host.Operations
import CellScheme.Proofs.Image.RoundTrip

/-!
Hosts that bring in only trees with a property that evaluation keeps. Whatever they evaluate, bind,
edit and load, and whichever natives they call, every node that a handle or a name is on has a tree
with that property.
-/

namespace CellScheme

open CellScheme.Tree (World)
open Store (Grown)

/-- The trees that a step brings in. -/
def HostStep.trees : HostStep → List Datum
  | .work (.build _ d) | .work (.append _ d) | .work (.set _ _ d) => [d]
  | .load defs => defs.map Prod.snd
  | _ => []

/-- The trees that an operation brings in. -/
def HostOp.trees : HostOp → List Datum
  | .step s => s.trees
  | .make _ r | .append _ r | .set _ _ r => r.trees
  | .register _ _ => []

/-- The parameters of the procedures that an operation makes around nodes. -/
def HostOp.params : HostOp → List (List Name)
  | .make _ r | .append _ r | .set _ _ r => r.params
  | .step _ | .register _ _ => []

/-- Procedures with these parameters have the property if their bodies do. -/
def Closes (V : Datum → Prop) (params : List Name) : Prop :=
  ∀ body, V body → V (.lambda [] params body)

theorem closes_bounded (params : List Name) : Closes Datum.Bounded params :=
  fun _ h => .lambda (Nat.zero_le _) (by simp) h

namespace Recipe

variable {V : Datum → Prop} {find : String → Datum}

mutual
/-- The tree of a made node has the property if what it is made of does. -/
theorem lawful_view (hV : Lawful V) (hf : ∀ g, V (find g)) (r : Recipe) (ht : ∀ d ∈ r.trees, V d)
    (hp : ∀ ps ∈ r.params, Closes V ps) : V (r.view find) := by
  match r with
  | .tree d => exact ht d (List.mem_singleton_self d)
  | .clone g => exact hf g
  | .quote r => exact hV.quote.mpr (lawful_view hV hf r ht hp)
  | .list rs => exact hV.list.mpr (lawful_viewSeq hV hf rs ht hp)
  | .lambda ps r =>
      obtain ⟨hps, hr⟩ := List.forall_mem_cons.mp hp
      exact hps _ (lawful_view hV hf r ht hr)
termination_by structural r

theorem lawful_viewSeq (hV : Lawful V) (hf : ∀ g, V (find g)) (rs : List Recipe)
    (ht : ∀ d ∈ treesSeq rs, V d) (hp : ∀ ps ∈ paramsSeq rs, Closes V ps) :
    ∀ d ∈ viewSeq find rs, V d := by
  match rs with
  | [] => exact fun d hd => by cases hd
  | r :: rs =>
      obtain ⟨ht₁, ht₂⟩ := List.forall_mem_append.mp ht
      obtain ⟨hp₁, hp₂⟩ := List.forall_mem_append.mp hp
      exact List.forall_mem_cons.mpr ⟨lawful_view hV hf r ht₁ hp₁, lawful_viewSeq hV hf rs ht₂ hp₂⟩
termination_by structural rs
end

end Recipe

namespace Host

variable {V : Datum → Prop} {h h' : Host} {t b : Option Name} {fuel : Nat}

/-- A name of some frame is on the node. -/
def Binds (h : Host) (x : Node) : Prop :=
  ∃ f ∈ h.machine.scopes.frames, x ∈ f.bindings.values

/-- The counts are right, and all nodes that handles and names are on have trees with a property
that evaluation keeps. -/
structure Carries (V : Datum → Prop) (h : Host) : Prop where
  lawful : Lawful V
  sound : h.Sound
  handles : ∀ g x, h.handles.find? g = some x → V (h.machine.view x)
  bindings : ∀ x, h.Binds x → V (h.machine.view x)

theorem Binds.cells_le {x : Node} (hx : h.Binds x) : x.cells ≤ h.machine.scopes.cells := by
  obtain ⟨f, hf, hx⟩ := hx
  exact Scopes.cells_le_of_mem_frames hf hx

theorem Carries.all (ht : h.Carries V) : (World.of h.machine).All V :=
  World.all_of.mpr fun f hf x hx => ht.bindings x ⟨f, hf, hx⟩

theorem Carries.fit (ht : h.Carries V) : h.machine.Fit (fun _ => V) (fun _ => True)
    h.machine.limit h.machine.depth ∅ 0 h.roots :=
  ⟨ht.sound.machine, ht.all, rfl, rfl, fun _ _ => trivial⟩

theorem Carries.find (ht : h.Carries V) (g : String) : V (h.machine.view (h.find g)) := by
  rw [Host.find]
  cases hx : h.handles.find? g with
  | none => exact ht.lawful.int 0
  | some x => exact ht.handles g x hx

/-- After a step all is as before but for the nodes that the target is on and those that are bound
anew. -/
theorem Carries.of_does (ht : h.Carries V) (d : Does t b h h')
    (target : ∀ g x, t = some g → h'.handles.find? g = some x → V (h'.machine.view x))
    (bindings : ∀ x, h'.Binds x → h.Binds x ∨ V (h'.machine.view x)) : h'.Carries V := by
  have kept {x : Node} (hx : x.cells ≤ h.rootsBesides t) (hx' : x.cells ≤ h'.roots)
      (hb : V (h.machine.view x)) : V (h'.machine.view x) := by
    have e : h'.machine.view x = h.machine.view x :=
      (ht.sound.store.forget (h.rootsBesides_le t)).view_congr d.sound.store (.of_le hx)
        (.of_le hx') d.keeps.reach
    rw [e]
    exact hb
  refine ⟨ht.lawful, d.sound, fun g x hx => ?_, fun x hx => ?_⟩
  · by_cases hg : t = some g
    · exact target g x hg hx
    · have hx₀ := (d.handles g hg).symm.trans hx
      exact kept (cells_handle_le hx₀ hg) (cells_handle_le hx (t := none) (by simp))
        (ht.handles g x hx₀)
  · rcases bindings x hx with hx₀ | hb
    · exact kept (hx₀.cells_le.trans (h.scopes_le_rootsBesides t))
        (hx.cells_le.trans (Multiset.le_add_left _ _)) (ht.bindings x hx₀)
    · exact hb

theorem Carries.idle (ht : h.Carries V) : (h.next h.machine h.handles).Carries V :=
  ⟨ht.lawful, ⟨ht.sound.store, ht.sound.sorted⟩, ht.handles, ht.bindings⟩

theorem Carries.bind (ht : h.Carries V) {st : Store} {x : Node} (t : Name)
    (g : Grown h.machine.store st ∅ x.cells h.roots) (hx : V (st.view x)) :
    (h.next { h.machine with store := st } (h.handles.insert t x)).Carries V := by
  refine ht.of_does (ht.sound.bind t g) (fun n y hn hy => ?_) fun y hy => .inl hy
  cases hn
  rw [next_handles, Named.find?_insert_self] at hy
  cases hy
  exact hx

theorem Carries.share (ht : h.Carries V) {x : Node} (t : Name)
    (hx : h.machine.store.Visible h.roots x) (hb : V (h.machine.view x)) :
    (h.next { h.machine with store := h.machine.store.share x }
      (h.handles.insert t x)).Carries V := by
  have g := ht.sound.store.share hx
  refine ht.bind t g ?_
  rw [g.view_eq ht.sound.store hx .root]
  exact hb

theorem Carries.editList (ht : h.Carries V) {st : Store} {x : Node} (t : String)
    (g : Grown h.machine.store st ∅ x.cells h.roots) (hx : V (st.view x))
    {f : List Node → List Node} (hf : ∀ xs, cellsOf (f xs) ≤ x.cells + cellsOf xs)
    (hmem : ∀ xs, ∀ y ∈ f xs, y = x ∨ y ∈ xs) :
    let w := Workbench.editList ⟨h.machine.store, h.handles⟩ st t f
    (h.next { h.machine with store := w.store } w.handles).Carries V := by
  refine ht.of_does (ht.sound.editList t g hf) (fun n y hn hy => ?_) fun y hy => .inl hy
  cases hn
  have visible {y : Node} (hy : h.handles.find? t = some y) : st.Visible (x.cells + h.roots) y :=
    g.visible ht.sound.store (Multiset.le_add_left _ _) (visible_handle hy)
  have old {y : Node} (hy : h.handles.find? t = some y) : V (st.view y) := by
    rw [g.view_eq ht.sound.store (visible_handle hy) (visible hy)]
    exact ht.handles t y hy
  simp only [next_machine, next_handles, Machine.view, Workbench.editList, Workbench.find] at hy ⊢
  cases hz : h.handles.find? t with
  | none =>
      simp only [hz, Option.getD_none] at hy
      exact absurd (hy.symm.trans hz) (by simp)
  | some z =>
      simp only [hz, Option.getD_some] at hy ⊢
      cases z with
      | list c =>
          simp only [Named.find?_insert_self, Option.some.injEq] at hy
          subst hy
          have hs : st.Sound ∅ ({.seq c} + (x.cells + h.rootsBesides (some ↑t))) := by
            refine g.sound.forget ?_
            rw [add_left_comm]
            exact add_le_add le_rfl (cells_add_rootsBesides_le hz)
          have w := hs.rewrite (hf (st.elements c))
          have hl := old hz
          rw [g.sound.view_list (visible hz)] at hl
          rw [w.sound.view_list .root, w.elements, w.view]
          refine ht.lawful.list.mpr fun d hd => ?_
          obtain ⟨y, hy, rfl⟩ := List.mem_map.mp hd
          rcases hmem _ y hy with rfl | hy
          · exact hx
          · exact ht.lawful.list.mp hl _ (List.mem_map_of_mem hy)
      | int _ | bool _ | symbol _ | quote _ | lambda _ _ _ | builtin _ =>
          exact old hy

/-- New cells hold the tree that they are built for. -/
theorem Carries.built (ht : h.Carries V) {d : Datum} (hd : V d) :
    V ((h.machine.store.build d).1.view (h.machine.store.build d).2) := by
  rw [(ht.sound.store.build d).2]
  exact hd

theorem Carries.work (ht : h.Carries V) (s : WorkStep)
    (ha : ∀ d ∈ (HostStep.work s).trees, V d) : (h.step (.work s)).Carries V := by
  have hv := h.visible_find
  have hs := ht.sound.store
  cases s with
  | build t d => exact ht.bind t (hs.build d).1 (ht.built (ha d (List.mem_singleton_self d)))
  | clone t g => exact ht.share t (hv g) (ht.find g)
  | requote t g =>
      have g₁ := hs.share (hv g)
      have hb : V (((h.machine.store.share (h.find g)).requote (h.find g)).1.view
          ((h.machine.store.share (h.find g)).requote (h.find g)).2) := by
        rw [g₁.sound.view_requote, g₁.view_eq hs (hv g) .root]
        exact ht.lawful.requote (ht.find g)
      exact ht.bind t (g₁.trans g₁.sound.requote) hb
  | unquote t g =>
      have hb : V ((h.machine.store.unquote (h.find g)).1.view
          (h.machine.store.unquote (h.find g)).2) := by
        rw [hs.view_unquote (hv g)]
        exact ht.lawful.unquote (ht.find g)
      exact ht.bind t (hs.unquote (hv g)) hb
  | element t g i =>
      have hg := hv g
      have hb := ht.find g
      simp only [step, Workbench.step, Workbench.find]
      rw [Host.find] at hg hb
      cases hx : (h.handles.find? g).getD default with
      | list c =>
          rw [hx] at hg hb
          dsimp only
          cases hi : (h.machine.store.elements c)[i]? with
          | none => exact ht.idle
          | some x =>
              have hm := List.mem_of_getElem? hi
              rw [Machine.view, hs.view_list hg] at hb
              exact ht.share t (hg.list_element hm)
                (ht.lawful.list.mp hb _ (List.mem_map_of_mem hm))
      | int _ | bool _ | symbol _ | quote _ | lambda _ _ _ | builtin _ => exact ht.idle
  | append t d =>
      exact ht.editList t (hs.build d).1 (ht.built (ha d (List.mem_singleton_self d)))
        (fun xs => cellsOf_concat_le xs _)
        fun xs y hy => (List.mem_append.mp hy).symm.imp_left List.mem_singleton.mp
  | set t i d =>
      exact ht.editList t (hs.build d).1 (ht.built (ha d (List.mem_singleton_self d)))
        (fun xs => cellsOf_set_le xs i _) fun xs y hy => (List.mem_or_eq_of_mem_set hy).symm
  | setHandle t i g =>
      have g₁ := hs.share (hv g)
      refine ht.editList t g₁ ?_ (fun xs => cellsOf_set_le xs i _)
        fun xs y hy => (List.mem_or_eq_of_mem_set hy).symm
      rw [g₁.view_eq hs (hv g) .root]
      exact ht.find g
  | drop t =>
      refine ht.of_does (ht.sound.work (.drop t)) (fun n y hn hy => ?_) fun y hy => .inl hy
      cases hn
      simp only [step, Workbench.step, next_handles, Named.find?_erase, if_true] at hy
      cases hy
  | compare a b => exact ht.idle

theorem Carries.lookup (ht : h.Carries V) (t : String) (name : Name) :
    (h.step (.find t name)).Carries V := by
  simp only [step, Machine.find]
  cases hx : h.machine.scopes.find? name with
  | none => exact ht.idle
  | some x =>
      have hd : (World.of h.machine).find? name = some (h.machine.view x) := by
        rw [World.find?_of, hx]
        rfl
      exact ht.share t (ht.sound.machine.visible_binding hx) (ht.all.find? hd)

theorem Carries.evaluates (ht : h.Carries V) (fuel : Nat) :
    (Regime.fixed ht.lawful.law fuel).Evaluates h.machine.limit h.machine.depth
      (fun _ => V) fun _ _ => V :=
  (Regime.fixed_evaluates ht.lawful.law fuel _ _).mono fun _ _ => Or.inl

/-- An outcome on the machine, of which the target is on the value if there is one. -/
theorem Carries.of_outcome (ht : h.Carries V) {m : Machine} {handles spent : Named Node}
    {H Y N : Multiset Cell} (o : h.machine.Outcome False ∅ (H + h.machine.scopes.cells) m Y N)
    (cells : cellsOf handles.values ≤ Y + H) (sorted : handles.Sorted)
    (found : ∀ g, t ≠ some g → handles.find? g = h.handles.find? g)
    (others : h.rootsBesides t ≤ H + h.machine.scopes.cells)
    (target : ∀ g x, t = some g → handles.find? g = some x → V (m.view x))
    (all : (World.of m).All V) : Carries V ⟨m, handles, spent⟩ :=
  ht.of_does (.of_outcome o cells sorted found others) target
    fun x ⟨f, hf, hx⟩ => .inr (World.all_of.mp all f hf x hx)

theorem Carries.keep (ht : h.Carries V) {a : Evaluator → Act Node} (t : String)
    (hl : (Regime.fixed ht.lawful.law fuel).Leads ∅ h.roots h.machine a fun _ => V) :
    (h.keep t (a (evaluate fuel))).Carries V := by
  obtain ⟨r, hr, ho, he⟩ := hl
  have hr : a (evaluate fuel) h.machine = r := Filter.eventually_pure.mp hr
  rw [Host.keep, hr]
  cases r with
  | ok v m =>
      obtain ⟨N, o, _⟩ := ho (.error .starved (World.of h.machine))
      refine ht.of_outcome (t := some ↑t) o (h.handles.cells_insert_le t v)
        (ht.sound.sorted.insert _ _) (fun n hn => handles_insert v hn) (h.rootsBesides_le _)
        (fun g x hg hx => ?_) he.1
      cases hg
      rw [Named.find?_insert_self] at hx
      cases hx
      exact he.2
  | error e m =>
      obtain ⟨N, o, _⟩ := ho (.error .starved (World.of h.machine))
      exact ht.of_outcome (t := none) o (Multiset.le_add_left _ _) ht.sound.sorted
        (fun _ _ => rfl) le_rfl (fun g x hg => by cases hg) he.1

theorem Carries.consumed (ht : h.Carries V) {g : Name} {x : Node}
    (hx : h.handles.find? g = some x) :
    h.machine.Fit (fun _ => V) (fun _ => True) h.machine.limit h.machine.depth ∅ x.cells
      (h.rootsBesides (some g)) :=
  ⟨ht.sound.consumed False.elim hx, ht.all, rfl, rfl, fun _ _ => trivial⟩

theorem Carries.evalPlace (ht : h.Carries V) (fuel : Nat) (t : String) :
    (h.step (.evalPlace fuel t)).Carries V := by
  simp only [step]
  cases hx : h.handles.find? t with
  | none => exact ht.idle
  | some x =>
      have found : h.find t = x := by rw [Host.find, hx, Option.getD_some]
      have hm := ht.consumed hx
      obtain ⟨r, hr, ho, he⟩ := ht.evaluates fuel hm (ht.handles _ x hx)
      have hr : evaluate fuel x h.machine = r := Filter.eventually_pure.mp hr
      have ho := ho (.error .starved (World.of h.machine))
      -- The handle moves to the value, or to the node that is left.
      have moved {m : Machine} {y : Node} {N : Multiset Cell}
          (o : h.machine.Outcome False ∅ (h.rootsBesides (some ↑t)) m y.cells N)
          (hy : V (m.view y)) (all : (World.of m).All V) :
          (h.next m (h.handles.insert t y)).Carries V := by
        refine ht.of_outcome (t := some ↑t) o (Named.cells_replace_le ht.sound.sorted t y)
          (ht.sound.sorted.insert _ _) (fun n hn => handles_insert y hn) le_rfl
          (fun g z hg hz => ?_) all
        cases hg
        rw [Named.find?_insert_self] at hz
        cases hz
        exact hy
      simp only [Machine.evalPlace, hr, found]
      cases r with
      | ok v m =>
          obtain ⟨N, o, _⟩ := ho
          exact moved o he.2 he.1
      | error e m =>
          dsimp only
          split
          · obtain ⟨N, o, _⟩ := ho
            refine ht.of_outcome (t := some ↑t) o (Multiset.le_add_left _ _)
              (ht.sound.sorted.erase _) (fun n hn => handles_erase hn) le_rfl
              (fun g z hg hz => ?_) he.1
            cases hg
            rw [Named.find?_erase, if_pos rfl] at hz
            cases hz
          · rename_i unspent
            obtain ⟨N, o, hleft⟩ := evaluate_saving ht.lawful fuel _ _ hm (ht.handles _ x hx) hr
              (Bool.eq_false_of_not_eq_true unspent)
            exact moved o hleft he.1

theorem Carries.native (ht : h.Carries V) (fuel : Nat) (t : String) (n : Native)
    (name : Name) (args : List String) : (h.step (.native fuel t n name args)).Carries V := by
  refine ht.keep t (Native.run_leads (R := .fixed ht.lawful.law fuel)
    (ht.evaluates fuel) ht.fit trivial (fun x hx => ?_) (fun x hx => ?_) name)
  · rcases List.mem_cons.mp hx with rfl | hx
    · exact fun k hk => absurd hk (Multiset.notMem_zero k)
    · obtain ⟨g, _, rfl⟩ := List.mem_map.mp hx
      exact h.visible_find g
  · obtain ⟨g, _, rfl⟩ := List.mem_map.mp hx
    exact ht.find g

/-- After a step that gives names only to nodes that were held. -/
theorem Carries.of_bindings (ht : h.Carries V) (d : Does none b h h')
    (hb : ∀ x, h'.Binds x → h.Binds x ∨ ∃ g, x = h.find g) : h'.Carries V := by
  refine ht.of_does d (fun g x hg => by cases hg) fun x hx => ?_
  rcases hb x hx with hx₀ | ⟨g, rfl⟩
  · exact .inl hx₀
  · refine .inr ?_
    have e : h'.machine.view (h.find g) = h.machine.view (h.find g) :=
      ht.sound.store.view_congr d.sound.store (h.visible_find g)
        (.of_le (hx.cells_le.trans (Multiset.le_add_left _ _))) d.keeps.reach
    rw [e]
    exact ht.find g

theorem binds_setGlobal {name : Name} {x y : Node}
    (hs : h'.machine.scopes = h.machine.scopes.setGlobal name y) (hx : h'.Binds x) :
    h.Binds x ∨ x = y := by
  obtain ⟨f, hf, hx⟩ := hx
  rw [hs] at hf
  rcases List.mem_append.mp hf with hf | hf
  · exact .inl ⟨f, List.mem_append.mpr (.inl hf), hx⟩
  · obtain rfl := List.mem_singleton.mp hf
    rcases Named.mem_values_insert hx with rfl | hx
    · exact .inr rfl
    · exact .inl ⟨_, List.mem_append.mpr (.inr (by simp)), hx⟩

theorem mem_frame {label : String} {bindings : List (Name × String)} :
    ∀ x ∈ (h.frame label bindings).bindings.values, ∃ g, x = h.find g := by
  have add : ∀ f : Frame, (∀ x ∈ f.bindings.values, ∃ g, x = h.find g) →
      ∀ x ∈ (bindings.foldl (fun f b => f.set b.1 (h.find b.2)) f).bindings.values,
        ∃ g, x = h.find g := by
    induction bindings with
    | nil => exact fun f hf => hf
    | cons b bs ih =>
        refine fun f hf => ih (f.set b.1 (h.find b.2)) fun x hx => ?_
        rcases Named.mem_values_insert hx with rfl | hx
        · exact ⟨b.2, rfl⟩
        · exact hf x hx
  exact add (.empty label) fun x hx => by cases hx

theorem Carries.load (ht : h.Carries V) {defs : List (Name × Datum)} (hd : ∀ p ∈ defs, V p.2) :
    (h.step (.load defs)).Carries V := by
  have hk : h.machine.Keeps V h.machine.limit h.machine.depth :=
    ⟨h.roots, ht.sound.machine, ht.all, rfl, rfl, fun _ _ => trivial⟩
  obtain ⟨⟨F, hf⟩, _⟩ := hk.defineAll hd
  exact ht.of_does (ht.sound.load defs) (fun g x hg => by cases hg)
    fun x ⟨f, hm, hx⟩ => .inr (World.all_of.mp hf.all f hm x hx)

theorem Carries.step (ht : h.Carries V) {s : HostStep} (ha : ∀ d ∈ s.trees, V d) :
    (h.step s).Carries V := by
  have d := ht.sound.does s
  have hev := ht.evaluates
  cases s with
  | work s => exact ht.work s ha
  | find t name => exact ht.lookup t name
  | eval fuel t g => exact ht.keep t ((hev fuel).copy ht.fit (h.visible_find g) (ht.find g))
  | evalText fuel t text => exact ht.keep t (evalTextBy_leads (hev fuel) ht.fit text)
  | evalPlace fuel t => exact ht.evalPlace fuel t
  | native fuel t n name args => exact ht.native fuel t n name args
  | define name g | bind name g =>
      exact ht.of_bindings d fun x hx => (binds_setGlobal rfl hx).imp_right fun e => ⟨g, e⟩
  | unbind name =>
      refine ht.of_bindings d fun x hx => .inl ?_
      obtain ⟨f, hf, hx⟩ := hx
      rcases List.mem_append.mp hf with hf | hf
      · exact ⟨f, List.mem_append.mpr (.inl hf), hx⟩
      · obtain rfl := List.mem_singleton.mp hf
        obtain ⟨e, he, rfl⟩ := List.mem_map.mp hx
        exact ⟨_, List.mem_append.mpr (.inr (by simp)),
          List.mem_map_of_mem (List.mem_filter.mp he).1⟩
  | load defs =>
      exact ht.load fun p hp => ha p.2 (List.mem_map_of_mem hp)
  | push label bindings =>
      refine ht.of_bindings d fun x hx => ?_
      obtain ⟨f, hf, hx⟩ := hx
      rcases List.mem_cons.mp hf with rfl | hf
      · exact .inr (mem_frame x hx)
      · exact .inl ⟨f, hf, hx⟩
  | truncate size =>
      refine ht.of_bindings d fun x hx => .inl ?_
      obtain ⟨f, hf, hx⟩ := hx
      rcases List.mem_append.mp hf with hf | hf
      · exact ⟨f, List.mem_append.mpr (.inl (List.mem_of_mem_drop hf)), hx⟩
      · exact ⟨f, List.mem_append.mpr (.inr hf), hx⟩

theorem Carries.made (ht : h.Carries V) {r : Recipe} (hr : ∀ d ∈ r.trees, V d)
    (hp : ∀ ps ∈ r.params, Closes V ps) :
    V ((r.make h.find h.machine.store).1.view (r.make h.find h.machine.store).2) := by
  rw [(ht.sound.made r).2]
  exact Recipe.lawful_view ht.lawful ht.find r hr hp

theorem Carries.setTree (ht : h.Carries V) (name : Name) {d : Datum} (hd : V d) :
    (h.next { h.machine with
      store := (h.machine.store.build d).1
      scopes := h.machine.scopes.setGlobal name (h.machine.store.build d).2 }
      h.handles).Carries V := by
  refine ht.of_does (ht.sound.setTree name d) (fun g x hg => by cases hg) fun x hx => ?_
  refine (binds_setGlobal rfl hx).imp_right fun e => ?_
  rw [e]
  exact ht.built hd

theorem Carries.perform (ht : h.Carries V) {op : HostOp} (ho : ∀ d ∈ op.trees, V d)
    (hp : ∀ ps ∈ op.params, Closes V ps) : (h.perform op).Carries V := by
  cases op with
  | step s => exact ht.step ho
  | make t r => exact ht.bind t (ht.sound.made r).1 (ht.made ho hp)
  | append t r =>
      exact ht.editList t (ht.sound.made r).1 (ht.made ho hp) (fun xs => cellsOf_concat_le xs _)
        fun xs y hy => (List.mem_append.mp hy).symm.imp_left List.mem_singleton.mp
  | set t i r =>
      exact ht.editList t (ht.sound.made r).1 (ht.made ho hp) (fun xs => cellsOf_set_le xs i _)
        fun xs y hy => (List.mem_or_eq_of_mem_set hy).symm
  | register name b =>
      have hr := ht.setTree name (ht.lawful.standing name b.arity)
      exact ⟨hr.lawful, ⟨hr.sound.store, hr.sound.sorted⟩, hr.handles, hr.bindings⟩

theorem Carries.performAll (ht : h.Carries V) {ops : List HostOp}
    (ho : ∀ op ∈ ops, ∀ d ∈ op.trees, V d) (hp : ∀ op ∈ ops, ∀ ps ∈ op.params, Closes V ps) :
    (h.performAll ops).Carries V := by
  induction ops generalizing h with
  | nil => exact ht
  | cons op ops ih =>
      obtain ⟨ho₁, ho₂⟩ := List.forall_mem_cons.mp ho
      obtain ⟨hp₁, hp₂⟩ := List.forall_mem_cons.mp hp
      exact ih (ht.perform ho₁ hp₁) ho₂ hp₂

theorem carries_start (hV : Lawful V) (table : Named Builtin) (limit : Int) (tracing : Bool)
    (before after : List String) : (start table limit tracing before after).Carries V := by
  have hf : (start table limit tracing before after).machine.Fit (fun _ => V)
      (fun _ => True) limit 1 ∅ 0 _ :=
    fit_start hV.law (fun _ _ => trivial) limit tracing before after
  refine ⟨hV, sound_start table limit tracing before after, fun g x hx => ?_, fun x hx => ?_⟩
  · cases hx
  · obtain ⟨f, hm, hx⟩ := hx
    exact World.all_of.mp hf.all f hm x hx

/-- The nodes that exist: those that handles and names are on, and all that these lead to. -/
inductive Has (h : Host) : Node → Prop where
  | handle {g : Name} {x : Node} : h.handles.find? g = some x → Has h x
  | binding {x : Node} : h.Binds x → Has h x
  | quoted {c : Nat} : Has h (.quote c) → Has h (h.machine.store.payload c)
  | element {c : Nat} {x : Node} : Has h (.list c) → x ∈ h.machine.store.elements c → Has h x
  | bound {b p k : Nat} {x : Node} :
      Has h (.lambda b p k) → x ∈ h.machine.store.elements b → Has h x
  | body {b p k : Nat} : Has h (.lambda b p k) → Has h (h.machine.store.payload k)

theorem Has.visible {x : Node} (hx : h.Has x) :
    h.machine.store.Visible h.roots x := by
  induction hx with
  | handle hx => exact visible_handle hx
  | binding hx => exact .of_le (hx.cells_le.trans (Multiset.le_add_left _ _))
  | quoted _ ih => exact ih.quote_payload
  | element _ hx ih => exact ih.list_element hx
  | bound _ hx ih => exact ih.lambda_bound hx
  | body _ ih => exact ih.lambda_body

/-- If bodies have the property too, all nodes that exist have trees with it. -/
theorem Carries.has (ht : h.Carries V)
    (body : ∀ {bound params body}, V (.lambda bound params body) → V body) {x : Node}
    (hx : h.Has x) : V (h.machine.view x) := by
  have hs := ht.sound.store
  induction hx with
  | handle hx => exact ht.handles _ _ hx
  | binding hx => exact ht.bindings _ hx
  | quoted hx ih =>
      rw [Machine.view, hs.view_quote hx.visible] at ih
      exact ht.lawful.quote.mp ih
  | element hx hy ih =>
      rw [Machine.view, hs.view_list hx.visible] at ih
      exact ht.lawful.list.mp ih _ (List.mem_map_of_mem hy)
  | bound hx hy ih =>
      rw [Machine.view, hs.view_lambda hx.visible] at ih
      exact ht.lawful.bound ih _ (List.mem_map_of_mem hy)
  | body hx ih =>
      rw [Machine.view, hs.view_lambda hx.visible] at ih
      exact body ih

end Host

end CellScheme
