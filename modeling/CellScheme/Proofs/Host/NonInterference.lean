import CellScheme.Proofs.Evaluation.Blind
import CellScheme.Proofs.Host.Operations

/-!
What a step of a host leaves as it was. The names that a step defines are those on the list of
defined names after the same step on a machine whose list is empty: the list is only written, so
the step does the same there.
-/

namespace CellScheme

open Store (Keeps)

/-- The list with a name added at its end, unless it is there. -/
def addName (ds : List Name) (n : Name) : List Name :=
  if ds.contains n then ds else ds ++ [n]

theorem mem_foldl_addName {n : Name} {ds ns : List Name} :
    n ∈ ns.foldl addName ds ↔ n ∈ ds ∨ n ∈ ns := by
  induction ns generalizing ds with
  | nil => simp
  | cons m ns ih =>
      rw [List.foldl_cons, ih, addName]
      split
      · rename_i hc
        have hm : m ∈ ds := List.contains_iff_mem.mp hc
        grind
      · simp [or_assoc]

/-- The machine as if names had been defined before its own definitions. -/
def Machine.resume (earlier : List Name) (m : Machine) : Machine :=
  { m with defined := m.defined.foldl addName earlier }

theorem Machine.resume_define (earlier : List Name) (m : Machine) (name : Name) (x : Node) :
    (m.define name x).resume earlier = (m.resume earlier).define name x := by
  have listed : (addName m.defined name).foldl addName earlier =
      addName (m.defined.foldl addName earlier) name := by
    by_cases hm : name ∈ m.defined
    · have h1 : m.defined.contains name := List.contains_iff_mem.mpr hm
      have h2 : (m.defined.foldl addName earlier).contains name :=
        List.contains_iff_mem.mpr (mem_foldl_addName.mpr (.inr hm))
      rw [addName, addName, if_pos h1, if_pos h2]
    · have h1 : ¬ m.defined.contains name := fun h => hm (List.contains_iff_mem.mp h)
      rw [addName, if_neg h1, List.foldl_append]
      rfl
  exact congrArg (fun ds => { m with scopes := m.scopes.setGlobal name x, defined := ds }) listed

theorem Machine.resume_foldl_log (earlier : List Name) (e : String → Event) (hooks : List String)
    (m : Machine) : (hooks.foldl (fun m hook => m.log (e hook)) m).resume earlier =
      hooks.foldl (fun m hook => m.log (e hook)) (m.resume earlier) := by
  induction hooks generalizing m with
  | nil => rfl
  | cons hook hooks ih => exact ih (m.log (e hook))

theorem Machine.blind_resume (earlier : List Name) : Machine.Blind (·.resume earlier) where
  store _ := rfl
  scopes _ := rfl
  builtins _ := rfl
  limit _ := rfl
  setStore _ _ := rfl
  setScopes _ _ := rfl
  define m name x := m.resume_define earlier name x
  trace m e _ := by
    change resume earlier _ = if m.tracing then _ else _
    split <;> rfl
  hooksBefore m e _ := m.resume_foldl_log earlier e m.before
  hooksAfter m e _ := m.resume_foldl_log earlier e m.after

theorem Machine.Blind.spends_eq {φ : Machine → Machine} (h : Blind φ) (fuel : Nat) (x : Node)
    (m : Machine) : spends fuel x (φ m) = spends fuel x m := by
  induction fuel generalizing x m with
  | zero => rfl
  | succ fuel ih =>
      have elements : ∀ (c i : Nat) (xs : List Node) (m : Machine),
          elementsSpend (evaluate fuel) (spends fuel) c i xs (φ m) =
            elementsSpend (evaluate fuel) (spends fuel) c i xs m := by
        intro c i xs
        induction xs generalizing i with
        | nil =>
            intro m
            rw [elementsSpend, elementsSpend, h.store]
        | cons x xs ihx =>
            intro m
            rw [elementsSpend, elementsSpend, h.passes_evaluate fuel x m]
            cases evaluate fuel x m with
            | ok v m' =>
                simp only [carry, h.store, ← h.setStore]
                exact ihx (i + 1) _
            | error e m' => exact ih x m
      cases x with
      | list c =>
          simp only [spends, layerSpends, h.store, ← h.setStore, elements]
      | int _ | bool _ | symbol _ | quote _ | lambda _ _ _ | builtin _ => rfl

namespace Host

def resume (earlier : List Name) (h : Host) : Host :=
  { h with machine := h.machine.resume earlier }

/-- The host with no name on the list of defined names. -/
def unlisted (h : Host) : Host :=
  { h with machine := { h.machine with defined := [] } }

theorem resume_unlisted (h : Host) : h.unlisted.resume h.machine.defined = h := rfl

theorem resume_keep {earlier : List Name} {a : Act Node} (ha : Passes (·.resume earlier) a)
    (h : Host) (t : String) : (h.resume earlier).keep t a = (h.keep t a).resume earlier := by
  have hr := ha h.machine
  unfold keep
  cases e : a h.machine with
  | ok v m =>
      rw [e] at hr
      simp only [resume, hr, carry, next]
  | error e' m =>
      rw [e] at hr
      simp only [resume, hr, carry, next]

theorem resume_step (earlier : List Name) (h : Host) (s : HostStep) :
    (h.resume earlier).step s = (h.step s).resume earlier := by
  have blind := Machine.blind_resume earlier
  cases s with
  | work s => rfl
  | find t name =>
      simp only [step, Machine.find, resume, Machine.resume]
      cases h.machine.scopes.find? name <;> rfl
  | eval fuel t g =>
      exact resume_keep (blind.passes_evalCopy (blind.passes_evaluate fuel) _) h t
  | evalText fuel t text => exact resume_keep (blind.passes_evalText fuel text) h t
  | evalPlace fuel t =>
      simp only [step, resume]
      cases hx : h.handles.find? t with
      | none => rfl
      | some x =>
          have hr := blind.passes_evaluate fuel x h.machine
          have spent := blind.spends_eq fuel (h.find t) h.machine
          simp only [Machine.evalPlace]
          cases e : evaluate fuel x h.machine with
          | ok v m =>
              rw [e] at hr
              simp only [hr, carry, next]
          | error e' m =>
              rw [e] at hr
              simp only [hr, carry]
              change (if spends fuel (h.find t) (h.machine.resume earlier) = true then _ else _) = _
              rw [spent]
              cases spends fuel (h.find t) h.machine <;> rfl
  | native fuel t n name args =>
      exact resume_keep (blind.passes_native (blind.passes_evaluate fuel) n name _) h t
  | define name g =>
      have e := Machine.resume_define earlier
        { h.machine with store := h.machine.store.share (h.find g) } name (h.find g)
      exact congrArg (h.next · h.handles) e.symm
  | bind name g => rfl
  | unbind name => rfl
  | load defs =>
      have all : ∀ m : Machine, defs.foldl (fun m d => m.defineDatum d.1 d.2) (m.resume earlier) =
          (defs.foldl (fun m d => m.defineDatum d.1 d.2) m).resume earlier := by
        induction defs with
        | nil => exact fun m => rfl
        | cons d defs ih =>
            intro m
            rw [List.foldl_cons, List.foldl_cons, ← ih]
            congr 1
            exact (Machine.resume_define earlier { m with store := (m.store.build d.2).1 } d.1
              (m.store.build d.2).2).symm
      exact congrArg (h.next · h.handles) (all h.machine)
  | push label bindings => rfl
  | truncate size => rfl

/-- An operation does the same whatever has been defined earlier. -/
theorem resume_perform (earlier : List Name) (h : Host) (op : HostOp) :
    (h.resume earlier).perform op = (h.perform op).resume earlier := by
  cases op with
  | step s => exact resume_step earlier h s
  | make t r | append t r | set t i r | register name b => rfl

/-- The global names that an operation defines, or binds without defining them. -/
def defines (h : Host) (op : HostOp) : List Name :=
  (h.unlisted.perform op).machine.defined ++ op.rebound.toList

theorem Sound.unlisted {h : Host} (hs : h.Sound) : h.unlisted.Sound :=
  ⟨hs.store, hs.sorted⟩

theorem Sound.global_find? {h : Host} (hs : h.Sound) {op : HostOp} {n : Name}
    (hn : n ∉ h.defines op) :
    (h.perform op).machine.scopes.global.find? n = h.machine.scopes.global.find? n := by
  have hop := resume_perform h.machine.defined h.unlisted op
  rw [resume_unlisted] at hop
  rw [hop]
  refine (hs.unlisted.leaves op).others n (fun hm => ?_) fun e => ?_
  · exact hn (List.mem_append.mpr (.inl hm))
  · exact hn (List.mem_append.mpr (.inr (by rw [e]; simp)))

/-- A node that was held besides the target of an operation, and still is, has the same tree. -/
theorem Sound.view_eq {h : Host} (hs : h.Sound) (op : HostOp) {x : Node}
    (hx : x.cells ≤ h.rootsBesides op.target) (hx' : x.cells ≤ (h.perform op).roots) :
    (h.perform op).machine.view x = h.machine.view x := by
  have d := hs.leaves op
  exact (hs.store.forget (h.rootsBesides_le op.target)).view_congr d.sound.store (.of_le hx)
    (.of_le hx') d.keeps.reach

theorem cells_handle_le {h : Host} {g : Name} {x : Node} (hx : h.handles.find? g = some x)
    {t : Option Name} (ht : t ≠ some g) : x.cells ≤ h.rootsBesides t := by
  have of_find {handles : Named Node} (hg : handles.find? g = some x) :
      x.cells ≤ cellsOf handles.values + h.machine.scopes.cells :=
    (cells_le_cellsOf (Named.mem_values_of_lookup hg)).trans (Multiset.le_add_right _ _)
  cases t with
  | none => exact of_find hx
  | some t => exact of_find ((handles_erase ht).trans hx)

theorem scopes_le_rootsBesides (h : Host) (t : Option Name) :
    h.machine.scopes.cells ≤ h.rootsBesides t := by
  cases t <;> exact Multiset.le_add_left _ _

/-- Whatever an operation of a host does, and whether it succeeds or fails: other handles are on the
same nodes with the same trees, and so are all names of frames that are still there, except the
global names that the operation defines. Frames are numbered from the global one. -/
theorem step_keeps_others (table : Named Builtin) (limit : Int) (tracing : Bool)
    (before after : List String) (ops : List HostOp) (op : HostOp) :
    let h := (start table limit tracing before after).performAll ops
    let h' := h.perform op
    (∀ g x, op.target ≠ some g → h.handles.find? g = some x →
      h'.handles.find? g = some x ∧ h'.machine.view x = h.machine.view x) ∧
    ∀ (i : Nat) f f' name x, h.machine.scopes.frames.reverse[i]? = some f →
      h'.machine.scopes.frames.reverse[i]? = some f' → (i = 0 → name ∉ h.defines op) →
      f.find? name = some x → f'.find? name = some x ∧ h'.machine.view x = h.machine.view x := by
  intro h h'
  have hs : h.Sound := (sound_start table limit tracing before after).performAll ops
  have d := hs.leaves op
  refine ⟨fun g x hg hx => ?_, fun i f f' name x hf hf' hn hx => ?_⟩
  · have hx' : h'.handles.find? g = some x := (d.handles g hg).trans hx
    have hle : x.cells ≤ h'.rootsBesides none := cells_handle_le hx' (by simp)
    exact ⟨hx', hs.view_eq op (cells_handle_le hx hg) hle⟩
  · simp only [Scopes.frames, List.reverse_append, List.reverse_cons, List.reverse_nil,
      List.nil_append, List.singleton_append] at hf hf'
    -- Only the global frame is ever changed.
    have hx' : f'.find? name = some x := by
      cases i with
      | zero =>
          obtain rfl : h.machine.scopes.global = f := Option.some.inj hf
          obtain rfl : h'.machine.scopes.global = f' := Option.some.inj hf'
          exact (hs.global_find? (hn rfl)).trans hx
      | succ i =>
          rw [List.getElem?_cons_succ] at hf hf'
          rw [d.frames i f f' hf hf']
          exact hx
    have frame_le {s : Scopes} {f : Frame} (hf : (s.global :: s.inner.reverse)[i]? = some f) :
        f.cells ≤ s.cells := by
      rcases List.mem_cons.mp (List.mem_of_getElem? hf) with rfl | hm
      · exact s.global_cells_le
      · exact Scopes.frame_cells_le (List.mem_reverse.mp hm)
    refine ⟨hx', hs.view_eq op ?_ ?_⟩
    · exact (Frame.cells_of_find? hx).trans ((frame_le hf).trans (h.scopes_le_rootsBesides _))
    · exact (Frame.cells_of_find? hx').trans ((frame_le hf').trans (Multiset.le_add_left _ _))

theorem step_keeps_others_append :
    let h := (start .empty 0 false [] []).performAll
      [.make "a" (.tree (.list [.int 1])), .make "b" (.clone "a")]
    let op := HostOp.append "a" (.list [.clone "a"])
    h.handles.find? "b" = some (.list 0) ∧
      (h.perform op).machine.view (.list 0) = h.machine.view (.list 0) := by
  have found : ((start .empty 0 false [] []).performAll [.make "a" (.tree (.list [.int 1])),
      .make "b" (.clone "a")]).handles.find? "b" = some (.list 0) := by decide
  have kept := (step_keeps_others .empty 0 false [] []
    [.make "a" (.tree (.list [.int 1])), .make "b" (.clone "a")]
    (.append "a" (.list [.clone "a"]))).1
  exact ⟨found, (kept "b" (.list 0) (by decide) found).2⟩

end Host

end CellScheme
