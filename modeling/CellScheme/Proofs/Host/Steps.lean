import CellScheme.Image.File
import CellScheme.Proofs.Lawful.Spent
import CellScheme.Store.Workbench

/-!
A host: a machine and the handles that the program around it keeps. Every operation of a host
leaves the counts right and changes nothing that is seen through another handle. The nodes that
failed calls have spent are kept apart: no operation reads them.
-/

namespace CellScheme

open Store (Grown Keeps Extends)

/-- What a host does with its machine. Handles are named by strings; a result is kept under the
handle that comes first. -/
inductive HostStep where
  /-- Build, clone, quote, edit and give up nodes. -/
  | work (s : WorkStep)
  | find (h : String) (name : Name)
  | eval (fuel : Nat) (h source : String)
  | evalText (fuel : Nat) (h : String) (text : String)
  | evalPlace (fuel : Nat) (h : String)
  /-- Call a native procedure with the nodes of handles. -/
  | native (fuel : Nat) (h : String) (n : Native) (name : Name) (args : List String)
  | define (name : Name) (source : String)
  /-- Bind a global name without defining it. -/
  | bind (name : Name) (source : String)
  | unbind (name : Name)
  /-- Define the names of an image. -/
  | load (defs : List (Name × Datum))
  /-- Push a frame that binds names to clones of handles. -/
  | push (label : String) (bindings : List (Name × String))
  /-- Cut the scopes down to this many frames. -/
  | truncate (size : Nat)

/-- The handle that a step writes or gives up. -/
def WorkStep.target : WorkStep → Option Name
  | .build h _ | .clone h _ | .requote h _ | .unquote h _ | .element h _ _ | .append h _
  | .set h _ _ | .setHandle h _ _ | .drop h => some h
  | .compare _ _ => none

@[inherit_doc WorkStep.target]
def HostStep.target : HostStep → Option Name
  | .work s => s.target
  | .find h _ | .eval _ h _ | .evalText _ h _ | .evalPlace _ h | .native _ h _ _ _ => some h
  | .define _ _ | .bind _ _ | .unbind _ | .load _ | .push _ _ | .truncate _ => none

/-- The global name that a step binds or unbinds without defining it. -/
def HostStep.rebound : HostStep → Option Name
  | .bind name _ | .unbind name => some name
  | _ => none

structure Host where
  machine : Machine
  handles : Named Node
  /-- The spent nodes that failed calls have left under their handles. -/
  spent : Named Node

namespace Host

def find (h : Host) (name : String) : Node :=
  (h.handles.find? name).getD default

/-- The host with these handles. A spent node goes once its handle is on another node. -/
def next (h : Host) (m : Machine) (handles : Named Node) : Host :=
  ⟨m, handles, h.spent.besides handles⟩

@[simp]
theorem next_machine (h : Host) (m : Machine) (handles : Named Node) :
    (h.next m handles).machine = m := rfl

@[simp]
theorem next_handles (h : Host) (m : Machine) (handles : Named Node) :
    (h.next m handles).handles = handles := rfl

/-- Keep what an action returns under a name. -/
def keep (h : Host) (name : String) (a : Act Node) : Host :=
  match a h.machine with
  | .ok v m => h.next m (h.handles.insert name v)
  | .error _ m => h.next m h.handles

def frame (h : Host) (label : String) (bindings : List (Name × String)) : Frame :=
  bindings.foldl (fun f (name, g) => f.set name (h.find g)) (.empty label)

/-- One step. A failed evaluation leaves its node in place, and the handle on it. -/
def step (h : Host) : HostStep → Host
  | .work s =>
    let w := Workbench.step ⟨h.machine.store, h.handles⟩ s
    h.next { h.machine with store := w.store } w.handles
  | .find t name =>
    match h.machine.find name with
    | (m, some x) => h.next m (h.handles.insert t x)
    | (m, none) => h.next m h.handles
  | .eval fuel t g => h.keep t (Machine.eval fuel (h.find g))
  | .evalText fuel t text => h.keep t (Machine.evalText fuel text)
  | .evalPlace fuel t =>
    match h.machine.evalPlace fuel (h.handles.find? t) with
    | ((none, _), m) => h.next m h.handles
    | ((some v, none), m) => h.next m (h.handles.insert t v)
    | ((some left, some _), m) =>
      if spends fuel (h.find t) h.machine then
        ⟨m, h.handles.erase t, h.spent.insert t left⟩
      else h.next m (h.handles.insert t left)
  | .native fuel t n name args =>
    h.keep t (n.run (evaluate fuel) name (.builtin name :: args.map h.find))
  | .define name g =>
    h.next ({ h.machine with store := h.machine.store.share (h.find g) }.define name (h.find g))
      h.handles
  | .bind name g =>
    h.next ({ h.machine with store := h.machine.store.share (h.find g) }.setGlobal name (h.find g))
      h.handles
  | .unbind name => h.next (h.machine.deleteGlobal name) h.handles
  | .load defs => h.next (defs.foldl (fun m (name, d) => m.defineDatum name d) h.machine) h.handles
  | .push label bindings =>
    let nodes := bindings.map fun b => h.find b.2
    h.next
      ({ h.machine with store := h.machine.store.shareAll nodes }.push (h.frame label bindings)).1
      h.handles
  | .truncate size => h.next (h.machine.truncate size) h.handles

def run (h : Host) (steps : List HostStep) : Host :=
  steps.foldl step h

/-- A host with a new machine and no handles. -/
def start (table : Named Builtin) (limit : Int) (tracing : Bool) (before after : List String) :
    Host :=
  ⟨{ Machine.withBuiltins table with limit, tracing, before, after }, .empty, .empty⟩

/-- The cells that handles and bindings hold. -/
def roots (h : Host) : Multiset Cell :=
  cellsOf h.handles.values + h.machine.scopes.cells

/-- The cells that the other handles and the bindings hold. -/
def rootsBesides (h : Host) : Option Name → Multiset Cell
  | none => h.roots
  | some t => cellsOf (h.handles.erase t).values + h.machine.scopes.cells

structure Sound (h : Host) : Prop where
  store : h.machine.store.Sound ∅ h.roots
  sorted : h.handles.Sorted

/-- What stays: the counts are right, other handles stay and see the same cells, frames come and go
at the inner end only, and of the global names only those defined or rebound change. -/
structure Leaves (t b : Option Name) (h h' : Host) : Prop where
  sound : h'.Sound
  handles : ∀ g, t ≠ some g → h'.handles.find? g = h.handles.find? g
  keeps : Keeps h.machine.store h'.machine.store ∅ (h.rootsBesides t)
  frames : ∀ (i : Nat) f f', h.machine.scopes.inner.reverse[i]? = some f →
    h'.machine.scopes.inner.reverse[i]? = some f' → f' = f
  others : ∀ n, n ∉ h'.machine.defined → b ≠ some n →
    h'.machine.scopes.global.find? n = h.machine.scopes.global.find? n

/-- What a step does. -/
structure Does (t b : Option Name) (h h' : Host) : Prop extends Leaves t b h h' where
  builtins : h'.machine.builtins = h.machine.builtins

end Host

theorem cellsOf_filter_le (p : Name × Node → Bool) (es : List (Name × Node)) :
    cellsOf ((es.filter p).map Prod.snd) ≤ cellsOf (es.map Prod.snd) := by
  induction es with
  | nil => exact le_rfl
  | cons e es ih =>
      rw [List.filter_cons]
      split
      · simp only [List.map_cons, cellsOf_cons]
        exact add_le_add le_rfl ih
      · simp only [List.map_cons, cellsOf_cons]
        exact ih.trans (Multiset.le_add_left _ _)

theorem Named.cells_erase_le (t : Named Node) (name : Name) :
    cellsOf (t.erase name).values ≤ cellsOf t.values :=
  cellsOf_filter_le _ t.entries

theorem Named.cells_add_erase_le {t : Named Node} {name : Name} {x : Node}
    (h : t.find? name = some x) : x.cells + cellsOf (t.erase name).values ≤ cellsOf t.values := by
  obtain ⟨es⟩ := t
  simp only [find?, values, erase] at h ⊢
  induction es with
  | nil => cases h
  | cons e es ih =>
      rw [lookup] at h
      rw [List.filter_cons, List.map_cons, cellsOf_cons]
      split at h
      · rename_i heq
        obtain rfl := Option.some.inj h
        rw [if_neg (by simp [heq])]
        exact add_le_add le_rfl (cellsOf_filter_le _ es)
      · rename_i hne
        rw [if_pos (by simpa using Ne.symm hne), List.map_cons, cellsOf_cons, add_left_comm]
        exact add_le_add le_rfl (ih h)

theorem Named.cells_insert_le (t : Named Node) (name : Name) (x : Node) :
    cellsOf (t.insert name x).values ≤ x.cells + cellsOf t.values :=
  cellsOf_insertSorted_le name x t.entries

theorem Named.cells_replace_le {t : Named Node} (ht : t.Sorted) (name : Name) (x : Node) :
    cellsOf (t.insert name x).values ≤ x.cells + cellsOf (t.erase name).values := by
  obtain ⟨es⟩ := t
  simp only [Sorted, insert, values, erase] at ht ⊢
  induction es with
  | nil => simp [insertSorted]
  | cons e es ih =>
      obtain ⟨he, hes⟩ := List.pairwise_cons.mp ht
      have all (hlt : ∀ d ∈ es, name < d.1) :
          es.filter (fun d => d.1 ≠ name) = es := by
        refine List.filter_eq_self.mpr fun d hd => ?_
        have := hlt d hd
        exact decide_eq_true fun e => Name.lt_irrefl name (e ▸ this)
      rw [insertSorted]
      split
      · rename_i heq
        rw [List.filter_cons, if_neg (by simp [heq]), all fun d hd => heq ▸ he d hd]
        simp
      · rename_i hne
        have keep : (e :: es).filter (fun d => d.1 ≠ name) = e :: es.filter fun d => d.1 ≠ name :=
          List.filter_cons_of_pos (by simpa using Ne.symm hne)
        rw [keep]
        split
        · rename_i hlt
          rw [all fun d hd => Name.lt_trans hlt (he d hd)]
          simp
        · simp only [List.map_cons, cellsOf_cons]
          rw [add_left_comm]
          exact add_le_add le_rfl (ih hes)

namespace Host

variable {h : Host} {t : Option Name}

theorem rootsBesides_le (h : Host) (t : Option Name) : h.rootsBesides t ≤ h.roots := by
  cases t with
  | none => exact le_rfl
  | some t => exact add_le_add (h.handles.cells_erase_le t) le_rfl

theorem cells_add_rootsBesides_le {n : Name} {x : Node} (hx : h.handles.find? n = some x) :
    x.cells + h.rootsBesides (some n) ≤ h.roots := by
  rw [rootsBesides, roots, ← add_assoc]
  exact add_le_add (Named.cells_add_erase_le hx) le_rfl

theorem Sound.machine (hs : h.Sound) : h.machine.Sound False ∅ 0 h.roots :=
  ⟨hs.store.reorder (zero_add _).symm, Multiset.le_add_left _ _, False.elim⟩

theorem visible_handle {n : Name} {x : Node} (hx : h.handles.find? n = some x) :
    h.machine.store.Visible h.roots x :=
  .of_le ((cells_le_cellsOf (Named.mem_values_of_lookup hx)).trans (Multiset.le_add_right _ _))

theorem visible_find (h : Host) (name : String) :
    h.machine.store.Visible h.roots (h.find name) := by
  rw [find]
  cases hx : h.handles.find? name with
  | none => exact fun k hk => absurd hk (Multiset.notMem_zero k)
  | some x => exact visible_handle hx

theorem handles_insert {handles : Named Node} {n g : Name} (v : Node) (hg : some n ≠ some g) :
    (handles.insert n v).find? g = handles.find? g := by
  rw [Named.find?_insert, if_neg fun e => hg (congrArg some e.symm)]

theorem handles_erase {handles : Named Node} {n g : Name} (hg : some n ≠ some g) :
    (handles.erase n).find? g = handles.find? g := by
  rw [Named.find?_erase, if_neg fun e => hg (congrArg some e.symm)]

theorem Does.of_store {st : Store} {handles spent : Named Node}
    (sound : st.Sound ∅ (cellsOf handles.values + h.machine.scopes.cells))
    (sorted : handles.Sorted) (found : ∀ g, t ≠ some g → handles.find? g = h.handles.find? g)
    (keeps : Keeps h.machine.store st ∅ (h.rootsBesides t)) :
    Does t none h ⟨{ h.machine with store := st }, handles, spent⟩ :=
  ⟨⟨⟨sound, sorted⟩, found, keeps,
    fun _ _ _ hf hf' => Option.some.inj (hf'.symm.trans hf), fun _ _ _ => rfl⟩, rfl⟩

theorem Sound.idle (hs : h.Sound) (t : Option Name) :
    Does t none h (h.next h.machine h.handles) :=
  .of_store hs.store hs.sorted (fun _ _ => rfl) (.refl _ _ _)

theorem Sound.bind (hs : h.Sound) {st : Store} {x : Node} (t : Name)
    (g : Grown h.machine.store st ∅ x.cells h.roots) :
    Does (some t) none h (h.next { h.machine with store := st } (h.handles.insert t x)) := by
  refine .of_store (g.sound.forget ?_) (hs.sorted.insert t x) (fun n hn => handles_insert x hn) ?_
  · rw [roots, ← add_assoc]
    exact add_le_add (h.handles.cells_insert_le t x) le_rfl
  · exact (Keeps.of_extends hs.store g.ext).mono subset_rfl (h.rootsBesides_le _)

theorem Sound.editList (hs : h.Sound) {st : Store} {x : Node} (t : String)
    (g : Grown h.machine.store st ∅ x.cells h.roots) {f : List Node → List Node}
    (hf : ∀ xs, cellsOf (f xs) ≤ x.cells + cellsOf xs) :
    let w := Workbench.editList ⟨h.machine.store, h.handles⟩ st t f
    Does (some ↑t) none h (h.next { h.machine with store := w.store } w.handles) := by
  have k := (Keeps.of_extends hs.store g.ext).mono subset_rfl (h.rootsBesides_le (some ↑t))
  -- Through a handle that is on no list nothing is edited.
  have idle : Does (some ↑t) none h (h.next { h.machine with store := st } h.handles) :=
    .of_store (g.sound.forget (Multiset.le_add_left _ _)) hs.sorted (fun _ _ => rfl) k
  simp only [Workbench.editList, Workbench.find]
  cases hx : h.handles.find? t with
  | none => exact idle
  | some y =>
      cases y with
      | list c =>
          have h1 : st.Sound ∅ ({.seq c} + (x.cells + h.rootsBesides (some ↑t))) := by
            refine g.sound.forget ?_
            rw [add_left_comm]
            exact add_le_add le_rfl (cells_add_rootsBesides_le hx)
          have w := h1.rewrite (hf (st.elements c))
          refine .of_store (w.sound.forget ?_) (hs.sorted.insert _ _)
            (fun n hn => handles_insert _ hn) (k.trans w.keeps)
          rw [rootsBesides, ← add_assoc]
          exact add_le_add (Named.cells_replace_le hs.sorted t (.list _)) le_rfl
      | int _ | bool _ | symbol _ | quote _ | lambda _ _ _ | builtin _ => exact idle

theorem Sound.work (hs : h.Sound) (s : WorkStep) : Does s.target none h (h.step (.work s)) := by
  have hv := h.visible_find
  cases s with
  | build t d => exact hs.bind t (hs.store.build d).1
  | clone t g => exact hs.bind t (hs.store.share (hv g))
  | requote t g =>
      have g1 := hs.store.share (hv g)
      exact hs.bind t (g1.trans g1.sound.requote)
  | unquote t g => exact hs.bind t (hs.store.unquote (hv g))
  | element t g i =>
      have hg := hv g
      simp only [step, Workbench.step, Workbench.find]
      rw [find] at hg
      cases hx : (h.handles.find? g).getD default with
      | list c =>
          rw [hx] at hg
          dsimp only
          cases hi : (h.machine.store.elements c)[i]? with
          | none => exact hs.idle _
          | some x => exact hs.bind t (hs.store.share (hg.list_element (List.mem_of_getElem? hi)))
      | int _ | bool _ | symbol _ | quote _ | lambda _ _ _ | builtin _ => exact hs.idle _
  | append t d => exact hs.editList t (hs.store.build d).1 fun xs => cellsOf_concat_le xs _
  | set t i d => exact hs.editList t (hs.store.build d).1 fun xs => cellsOf_set_le xs i _
  | setHandle t i g =>
      exact hs.editList t (hs.store.share (hv g)) fun xs => cellsOf_set_le xs i _
  | drop t =>
      simp only [step, Workbench.step, Workbench.find]
      cases hx : h.handles.find? t with
      | none =>
          exact .of_store (hs.store.forget (h.rootsBesides_le (some ↑t))) (hs.sorted.erase t)
            (fun n hn => handles_erase hn) (.refl _ _ _)
      | some x =>
          have g := (hs.store.forget (cells_add_rootsBesides_le hx)).drop
          exact .of_store (g.sound.reorder (zero_add _)) (hs.sorted.erase t)
            (fun n hn => handles_erase hn)
            ((Keeps.of_extends hs.store g.ext).mono subset_rfl (h.rootsBesides_le _))
  | compare a b => exact hs.idle _

theorem Does.of_kept {m : Machine} {handles spent : Named Node}
    (sound : m.store.Sound ∅ (cellsOf handles.values + m.scopes.cells)) (sorted : handles.Sorted)
    (found : ∀ g, t ≠ some g → handles.find? g = h.handles.find? g)
    (k : h.machine.Kept ∅ (h.rootsBesides t) m) : Does t none h ⟨m, handles, spent⟩ := by
  refine ⟨⟨⟨sound, sorted⟩, found, k.store, fun i f f' hf hf' => ?_,
    fun n hn _ => k.scopes.others n hn⟩, k.scopes.builtins⟩
  rw [k.scopes.inner] at hf'
  exact Option.some.inj (hf'.symm.trans hf)

/-- An action that leaves a result of cells `V` beside the handles of cells `H`, of which only the
new ones stand for it. -/
theorem Does.of_outcome {m : Machine} {handles spent : Named Node} {H V N : Multiset Cell}
    (o : h.machine.Outcome False ∅ (H + h.machine.scopes.cells) m V N)
    (cells : cellsOf handles.values ≤ V + H) (sorted : handles.Sorted)
    (found : ∀ g, t ≠ some g → handles.find? g = h.handles.find? g)
    (others : h.rootsBesides t ≤ H + h.machine.scopes.cells) :
    Does t none h ⟨m, handles, spent⟩ := by
  refine .of_kept (o.sound.store.forget ?_) sorted found (o.kept.mono subset_rfl others)
  calc cellsOf handles.values + m.scopes.cells
      ≤ (V + H) + (N + h.machine.scopes.cells) := add_le_add cells o.scopes
    _ = V + (N + (H + h.machine.scopes.cells)) := by abel

theorem Sound.keep (hs : h.Sound) {a : Act Node} {r : EStateM.Result Halt Tree.World Datum}
    (t : String) (hr : Refines False ∅ h.roots h.machine (a h.machine) r) :
    Does (some ↑t) none h (h.keep t a) := by
  unfold Host.keep
  cases ha : a h.machine with
  | ok v m =>
      rw [ha] at hr
      obtain ⟨N, o, _⟩ := hr
      exact .of_outcome o (h.handles.cells_insert_le t v) (hs.sorted.insert _ _)
        (fun n hn => handles_insert v hn) (h.rootsBesides_le _)
  | error e m =>
      rw [ha] at hr
      obtain ⟨N, o, _⟩ := hr
      exact .of_outcome o (Multiset.le_add_left _ _) hs.sorted (fun _ _ => rfl)
        (h.rootsBesides_le _)

theorem Sound.find (hs : h.Sound) (t : String) (name : Name) :
    Does (some ↑t) none h (h.step (.find t name)) := by
  simp only [step, Machine.find]
  cases hx : h.machine.scopes.find? name with
  | none => exact hs.idle _
  | some x => exact hs.bind t (hs.store.share (hs.machine.visible_binding hx))

theorem Sound.evalPlace (hs : h.Sound) (fuel : Nat) (t : String) :
    Does (some ↑t) none h (h.step (.evalPlace fuel t)) := by
  simp only [step]
  cases hx : h.handles.find? t with
  | none => exact hs.idle _
  | some x =>
      have found : h.find t = x := by rw [Host.find, hx, Option.getD_some]
      have hm : h.machine.Sound False ∅ x.cells (h.rootsBesides (some ↑t)) :=
        ⟨hs.store.forget (cells_add_rootsBesides_le hx), Multiset.le_add_left _ _, False.elim⟩
      have hr := evaluate_faithful fuel hm
      simp only [Machine.evalPlace, found]
      cases he : evaluate fuel x h.machine with
      | ok v m =>
          rw [Act.settle_ok he] at hr
          obtain ⟨N, o, _⟩ := hr
          exact .of_outcome o (Named.cells_replace_le hs.sorted t v) (hs.sorted.insert _ _)
            (fun n hn => handles_insert v hn) le_rfl
      | error e m =>
          dsimp only
          split
          · rw [Act.settle_error he] at hr
            obtain ⟨N, o, _⟩ := hr
            exact .of_outcome o (Multiset.le_add_left _ _) (hs.sorted.erase _)
              (fun n hn => handles_erase hn) le_rfl
          · rename_i unspent
            obtain ⟨N, o, _⟩ := evaluate_saving lawful_any fuel h.machine.limit h.machine.depth
              hm.fit_any trivial he (Bool.eq_false_of_not_eq_true unspent)
            exact .of_outcome o (Named.cells_replace_le hs.sorted t e.1) (hs.sorted.insert _ _)
              (fun n hn => handles_insert e.1 hn) le_rfl

theorem Sound.define (hs : h.Sound) (name : Name) (g : String) :
    Does none none h (h.step (.define name g)) := by
  have hg := hs.store.share (h.visible_find g)
  have k := hs.machine.kept_of_extends hg.ext
  have hd := Machine.Defines.of_define
    { h.machine with store := h.machine.store.share (h.find g) } name (h.find g)
  refine .of_kept (hg.sound.forget ?_) hs.sorted (fun _ _ => rfl)
    (k.trans ⟨.refl _ _ _, hd⟩)
  rw [roots, add_left_comm]
  exact add_le_add le_rfl (h.machine.scopes.cells_setGlobal_le name (h.find g))

theorem Does.of_global {m : Machine} {name : Name} {g : Frame}
    (sound : m.store.Sound ∅ (cellsOf h.handles.values + m.scopes.cells)) (hs : h.Sound)
    (keeps : Keeps h.machine.store m.store ∅ h.roots)
    (hm : m.scopes = { h.machine.scopes with global := g })
    (hg : ∀ n, name ≠ n → g.find? n = h.machine.scopes.global.find? n)
    (hb : m.builtins = h.machine.builtins) : Does none (some name) h (h.next m h.handles) := by
  refine ⟨⟨⟨sound, hs.sorted⟩, fun _ _ => rfl, keeps, fun i f f' hf hf' => ?_,
    fun n _ hn => ?_⟩, hb⟩
  · rw [next, hm] at hf'
    exact Option.some.inj (hf'.symm.trans hf)
  · rw [next, hm]
    exact hg n fun e => hn (congrArg some e)

theorem Sound.rebind (hs : h.Sound) (name : Name) (g : String) :
    Does none (some name) h (h.step (.bind name g)) := by
  have hg := hs.store.share (h.visible_find g)
  refine .of_global (hg.sound.forget ?_) hs (.of_extends hs.store hg.ext) rfl (fun n hn => ?_) rfl
  · rw [roots, add_left_comm]
    exact add_le_add le_rfl (h.machine.scopes.cells_setGlobal_le name (h.find g))
  · exact handles_insert _ fun e => hn (Option.some.inj e)

theorem Sound.unbind (hs : h.Sound) (name : Name) :
    Does none (some name) h (h.step (.unbind name)) := by
  refine .of_global (hs.store.forget ?_) hs (.refl _ _ _) rfl (fun n hn => ?_) rfl
  · exact add_le_add le_rfl
      (add_le_add le_rfl (h.machine.scopes.global.bindings.cells_erase_le name))
  · exact handles_erase fun e => hn (Option.some.inj e)

theorem defineDatum_outcome {m : Machine} {X F : Multiset Cell} (hm : m.Sound False ∅ X F)
    (name : Name) (d : Datum) : ∃ N, m.Outcome False ∅ F (m.defineDatum name d) 0 N := by
  obtain ⟨g, _⟩ := hm.frame.build d
  obtain ⟨N, o, _⟩ := SpecialForm.define_refines (hm.grow g) name
  refine ⟨N + 0, .trans (hm.kept_of_extends g.ext) (Multiset.le_add_left _ 0) ?_⟩
  rw [zero_add]
  exact o

theorem defineAll_outcome {m : Machine} {F : Multiset Cell} (hm : m.Sound False ∅ 0 F)
    (defs : List (Name × Datum)) :
    ∃ N, m.Outcome False ∅ F (defs.foldl (fun m (name, d) => m.defineDatum name d) m) 0 N := by
  induction defs generalizing m F with
  | nil => exact ⟨0, .refl hm⟩
  | cons d defs ih =>
      obtain ⟨M, o⟩ := defineDatum_outcome hm d.1 d.2
      obtain ⟨N, o'⟩ := ih o.sound
      exact ⟨N + M, .trans o.kept o.scopes o'⟩

theorem Sound.load (hs : h.Sound) (defs : List (Name × Datum)) :
    Does none none h (h.step (.load defs)) := by
  obtain ⟨N, o⟩ := defineAll_outcome hs.machine defs
  exact .of_outcome o (Multiset.le_add_left _ _) hs.sorted (fun _ _ => rfl) le_rfl

theorem Sound.native (hs : h.Sound) (fuel : Nat) (t : String) (n : Native) (name : Name)
    (args : List String) : Does (some ↑t) none h (h.step (.native fuel t n name args)) := by
  refine hs.keep t (n.run_refines (evaluate_faithful fuel) False.elim hs.machine ?_ name)
  intro x hx
  rcases List.mem_cons.mp hx with rfl | hx
  · exact fun k hk => absurd hk (Multiset.notMem_zero k)
  · obtain ⟨g, _, rfl⟩ := List.mem_map.mp hx
    exact h.visible_find g

theorem cells_frame_le (h : Host) (label : String) (bindings : List (Name × String)) :
    (h.frame label bindings).cells ≤ cellsOf (bindings.map fun b => h.find b.2) :=
  Frame.cells_foldl_set_le Prod.fst (fun b => h.find b.2) bindings label

theorem Sound.push (hs : h.Sound) (label : String) (bindings : List (Name × String)) :
    Does none none h (h.step (.push label bindings)) := by
  have hv : ∀ x ∈ bindings.map (fun b => h.find b.2), h.machine.store.Visible h.roots x := by
    intro x hx
    obtain ⟨b, _, rfl⟩ := List.mem_map.mp hx
    exact h.visible_find b.2
  have g := hs.store.shareAll hv
  have k := Keeps.of_extends hs.store g.ext
  refine ⟨⟨⟨g.sound.forget ?_, hs.sorted⟩, fun _ _ => rfl, k, fun i f f' hf hf' => ?_,
    fun _ _ _ => rfl⟩, rfl⟩
  · have hc := Scopes.cells_push h.machine.scopes (h.frame label bindings)
    change cellsOf h.handles.values + (h.machine.scopes.push (h.frame label bindings)).1.cells ≤ _
    rw [hc, roots, add_left_comm]
    exact add_le_add (h.cells_frame_le label bindings) le_rfl
  · -- The new frame comes after all others.
    have hi : i < h.machine.scopes.inner.reverse.length := (List.getElem?_eq_some_iff.mp hf).1
    change (h.frame label bindings :: h.machine.scopes.inner).reverse[i]? = some f' at hf'
    rw [List.reverse_cons, List.getElem?_append_left hi] at hf'
    exact Option.some.inj (hf'.symm.trans hf)

theorem dropFrames {st : Store} {aside : Set Cell} {R : Multiset Cell} {fs : List Frame}
    (h : st.Sound aside ((fs.map Frame.cells).sum + R)) :
    Grown st (fs.foldl Store.dropFrame st) aside 0 R := by
  induction fs generalizing st with
  | nil => exact .refl h
  | cons f fs ih =>
      have hf : st.Sound aside (cellsOf f.bindings.values + ((fs.map Frame.cells).sum + R)) :=
        h.reorder (by rw [List.map_cons, List.sum_cons, add_assoc]; rfl)
      have g := hf.dropAll
      exact g.trans (ih (g.sound.reorder (zero_add _)))

theorem Sound.truncate (hs : h.Sound) (size : Nat) :
    Does none none h (h.step (.truncate size)) := by
  have split : h.machine.scopes.cells =
      ((h.machine.scopes.truncate size).2.map Frame.cells).sum +
        (h.machine.scopes.truncate size).1.cells := by
    simp only [Scopes.truncate, Scopes.cells]
    rw [← add_assoc, ← List.sum_append, ← List.map_append, List.take_append_drop]
  have g := dropFrames (R := cellsOf h.handles.values + (h.machine.scopes.truncate size).1.cells)
    (hs.store.reorder (by rw [roots, split]; abel))
  refine ⟨⟨⟨g.sound.reorder (zero_add _), hs.sorted⟩, fun _ _ => rfl, .of_extends hs.store g.ext,
    fun i f f' hf hf' => ?_, fun _ _ _ => rfl⟩, rfl⟩
  change (h.machine.scopes.inner.drop _).reverse[i]? = some f' at hf'
  rw [List.reverse_drop, List.getElem?_take] at hf'
  split at hf'
  · exact Option.some.inj (hf'.symm.trans hf)
  · cases hf'

theorem Sound.does (hs : h.Sound) (s : HostStep) : Does s.target s.rebound h (h.step s) := by
  cases s with
  | work s => exact hs.work s
  | find t name => exact hs.find t name
  | eval fuel t g => exact hs.keep t (eval_refines fuel hs.machine (h.visible_find g))
  | evalText fuel t text => exact hs.keep t (evalText_refines fuel hs.machine text)
  | evalPlace fuel t => exact hs.evalPlace fuel t
  | native fuel t n name args => exact hs.native fuel t n name args
  | define name g => exact hs.define name g
  | bind name g => exact hs.rebind name g
  | unbind name => exact hs.unbind name
  | load defs => exact hs.load defs
  | push label bindings => exact hs.push label bindings
  | truncate size => exact hs.truncate size

theorem Sound.run (hs : h.Sound) (steps : List HostStep) : (h.run steps).Sound := by
  induction steps generalizing h with
  | nil => exact hs
  | cons s steps ih => exact ih (hs.does s).sound

theorem Sound.builtins_run (hs : h.Sound) (steps : List HostStep) :
    (h.run steps).machine.builtins = h.machine.builtins := by
  induction steps generalizing h with
  | nil => rfl
  | cons s steps ih => exact (ih (hs.does s).sound).trans (hs.does s).builtins

theorem sound_start (table : Named Builtin) (limit : Int) (tracing : Bool)
    (before after : List String) : (start table limit tracing before after).Sound := by
  have counted : let m := Machine.withBuiltins table; m.store.Sound ∅ m.scopes.cells :=
    Machine.withBuiltins_ind (P := fun m => m.store.Sound ∅ m.scopes.cells) Store.sound_empty
      fun m hm b _ => (hm.build (Machine.builtinDatum b.1 b.2.arity)).1.sound.forget
        (m.scopes.cells_setGlobal_le b.1 _)
  exact ⟨counted.reorder (zero_add _).symm, Named.sorted_empty⟩

end Host

end CellScheme
