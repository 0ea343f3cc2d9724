import CellScheme.Machine.Eval
import CellScheme.Proofs.Storage.Edit
import CellScheme.Tree.Eval

/-!
What the scopes of a machine hold, and the world of trees that a machine stands for. Each change of
the scopes is matched by the same change of the world.
-/

namespace CellScheme

namespace Named

variable {α : Type}

/-- Of names that are each given a value, one is found exactly if it is among them. -/
theorem isSome_lookup_zip_iff {names : List Name} {vs : List α} (h : names.length ≤ vs.length)
    {name : Name} : (lookup name (names.zip vs).reverse).isSome ↔ name ∈ names := by
  rw [isSome_lookup_iff, List.map_reverse, List.mem_reverse, List.map_fst_zip h]

theorem lookup_zip_of_mem {names : List Name} {vs : List α} (hn : names.Nodup)
    (h : names.length ≤ vs.length) {name : Name} {v : α} (hv : (name, v) ∈ names.zip vs) :
    lookup name (names.zip vs).reverse = some v := by
  apply lookup_of_mem
  · rw [List.map_reverse, List.map_fst_zip h, List.nodup_reverse]
    exact hn
  · exact List.mem_reverse.mpr hv

end Named

/-- The cells that the bindings of a frame hold. -/
def Frame.cells (f : Frame) : Multiset Cell :=
  cellsOf f.bindings.values

/-- The cells that the bindings of all frames hold. -/
def Scopes.cells (s : Scopes) : Multiset Cell :=
  (s.inner.map Frame.cells).sum + s.global.cells

theorem cellsOf_insertSorted_le (name : Name) (x : Node) (es : List (Name × Node)) :
    cellsOf ((Named.insertSorted name x es).map Prod.snd) ≤
      x.cells + cellsOf (es.map Prod.snd) := by
  induction es with
  | nil => simp [Named.insertSorted]
  | cons e es ih =>
      simp only [Named.insertSorted]
      split
      · simp only [List.map_cons, cellsOf_cons]
        exact add_le_add le_rfl (Multiset.le_add_left _ _)
      · split
        · exact le_of_eq (by simp)
        · simp only [List.map_cons, cellsOf_cons]
          calc e.2.cells + cellsOf ((Named.insertSorted name x es).map Prod.snd)
              ≤ e.2.cells + (x.cells + cellsOf (es.map Prod.snd)) := add_le_add le_rfl ih
            _ = x.cells + (e.2.cells + cellsOf (es.map Prod.snd)) := by abel

theorem Frame.cells_set_le (f : Frame) (name : Name) (x : Node) :
    (f.set name x).cells ≤ x.cells + f.cells :=
  cellsOf_insertSorted_le name x f.bindings.entries

/-- A frame that binds a list of names holds no more than the nodes of the list. -/
theorem Frame.cells_foldl_set_le {α : Type} (name : α → Name) (node : α → Node) (bs : List α)
    (label : String) :
    (bs.foldl (fun f b => f.set (name b) (node b)) (Frame.empty label)).cells ≤
      cellsOf (bs.map node) := by
  have add : ∀ f : Frame, (bs.foldl (fun f b => f.set (name b) (node b)) f).cells ≤
      cellsOf (bs.map node) + f.cells := by
    induction bs with
    | nil => intro f; simp
    | cons b bs ih =>
        intro f
        simp only [List.foldl_cons, List.map_cons, cellsOf_cons]
        calc _ ≤ cellsOf (bs.map node) + (f.set (name b) (node b)).cells := ih _
          _ ≤ cellsOf (bs.map node) + ((node b).cells + f.cells) :=
              add_le_add le_rfl (f.cells_set_le (name b) (node b))
          _ = (node b).cells + cellsOf (bs.map node) + f.cells := by abel
  have hempty : (Frame.empty label).cells = 0 := rfl
  have hle := add (.empty label)
  rw [hempty, add_zero] at hle
  exact hle

theorem Frame.cells_of_find? {f : Frame} {name : Name} {x : Node} (h : f.find? name = some x) :
    x.cells ≤ f.cells :=
  cells_le_cellsOf (Named.mem_values_of_lookup h)

namespace Scopes

theorem frame_cells_le {s : Scopes} {f : Frame} (h : f ∈ s.inner) : f.cells ≤ s.cells := by
  have sum : ∀ fs : List Frame, f ∈ fs → f.cells ≤ (fs.map Frame.cells).sum := by
    intro fs hf
    induction fs with
    | nil => cases hf
    | cons g gs ih =>
        rw [List.map_cons, List.sum_cons]
        rcases List.mem_cons.mp hf with rfl | hf
        · exact Multiset.le_add_right _ _
        · exact (ih hf).trans (Multiset.le_add_left _ _)
  exact (sum s.inner h).trans (Multiset.le_add_right _ _)

theorem global_cells_le (s : Scopes) : s.global.cells ≤ s.cells :=
  Multiset.le_add_left _ _

theorem cells_setGlobal_le (s : Scopes) (name : Name) (x : Node) :
    (s.setGlobal name x).cells ≤ x.cells + s.cells := by
  calc (s.setGlobal name x).cells
      = (s.inner.map Frame.cells).sum + (s.global.set name x).cells := rfl
    _ ≤ (s.inner.map Frame.cells).sum + (x.cells + s.global.cells) :=
        add_le_add le_rfl (s.global.cells_set_le name x)
    _ = x.cells + s.cells := by rw [cells]; abel

theorem cells_push (s : Scopes) (f : Frame) : (s.push f).1.cells = f.cells + s.cells := by
  simp only [push, cells, List.map_cons, List.sum_cons, add_assoc]

theorem cells_of_find? {s : Scopes} {name : Name} {x : Node} (h : s.find? name = some x) :
    x.cells ≤ s.cells := by
  unfold find? at h
  cases hi : s.inner.findSome? fun f => f.find? name with
  | none =>
      rw [hi] at h
      exact (Frame.cells_of_find? h).trans s.global_cells_le
  | some y =>
      rw [hi] at h
      obtain ⟨f, hf, hy⟩ := List.exists_of_findSome?_eq_some hi
      obtain rfl : y = x := Option.some.inj h
      exact (Frame.cells_of_find? hy).trans (frame_cells_le hf)

end Scopes

namespace Tree

/-- The trees that a frame binds. -/
def frameOf (st : Store) (f : Frame) : Named Datum :=
  ⟨f.bindings.entries.map fun (n, x) => (n, st.view x)⟩

theorem World.of_eq (m : Machine) :
    World.of m = ⟨frameOf m.store m.scopes.global, m.scopes.inner.map (frameOf m.store),
      m.builtins, m.defined, m.limit⟩ := rfl

theorem frameOf_congr {st st' : Store} {f : Frame}
    (h : ∀ x ∈ f.bindings.values, st'.view x = st.view x) : frameOf st' f = frameOf st f := by
  unfold frameOf
  congr 1
  exact List.map_congr_left fun e he => congrArg (Prod.mk e.1) (h e.2 (List.mem_map_of_mem he))

theorem frameOf_find? (st : Store) (f : Frame) (name : Name) :
    (frameOf st f).find? name = (f.find? name).map st.view :=
  Named.lookup_map st.view name f.bindings.entries

theorem frameOf_set (st : Store) (f : Frame) (name : Name) (x : Node) :
    frameOf st (f.set name x) = (frameOf st f).insert name (st.view x) :=
  congrArg Named.mk (Named.map_insertSorted st.view name x f.bindings.entries)

theorem World.find?_of (m : Machine) (name : Name) :
    (World.of m).find? name = (m.scopes.find? name).map m.view := by
  have inner : ∀ fs : List Frame, (fs.map (frameOf m.store)).findSome? (·.find? name) =
      (fs.findSome? fun f => f.find? name).map m.view := by
    intro fs
    induction fs with
    | nil => rfl
    | cons f fs ih =>
        simp only [List.map_cons, List.findSome?_cons, frameOf_find?, ih]
        cases f.find? name <;> rfl
  rw [World.of_eq, World.find?, Scopes.find?, inner, frameOf_find?]
  cases m.scopes.inner.findSome? fun f => f.find? name <;> rfl

theorem World.depth_of (m : Machine) : (World.of m).depth = m.depth := by
  rw [World.of_eq, World.depth, Machine.depth, Scopes.depth, List.length_map]

theorem World.of_define (m : Machine) (name : Name) (x : Node) :
    World.of (m.define name x) = (World.of m).define name (m.view x) := by
  rw [World.of_eq, World.of_eq, World.define]
  simp only [Machine.define, Scopes.setGlobal, frameOf_set]
  rfl

/-- The parameters of a call are bound alike. -/
theorem frameOf_bindParams (st : Store) (params : List Name) (args : List Node) :
    frameOf st (CellScheme.bindParams params args) = bindParams params (st.viewSeq args) := by
  have step : ∀ (ps : List (Name × Node)) (f : Frame),
      frameOf st (ps.foldl (fun f p => f.set p.1 p.2) f) =
        (ps.map (Prod.map id st.view)).foldl (fun f p => f.insert p.1 p.2) (frameOf st f) := by
    intro ps
    induction ps with
    | nil => intro f; rfl
    | cons p ps ih =>
        intro f
        simp only [List.foldl_cons, List.map_cons, ih, frameOf_set, Prod.map_fst, Prod.map_snd, id]
  have zip : params.zip (st.viewSeq args) = (params.zip args).map (Prod.map id st.view) := by
    rw [Store.viewSeq, List.zip_map_right]
  rw [bindParams, zip]
  exact step _ _

/-- Of the arguments for a parameter the last counts. -/
theorem find?_bindParams (params : List Name) (args : List Datum) (name : Name) :
    (bindParams params args).find? name = Named.lookup name (params.zip args).reverse := by
  have h := Named.find?_foldl_insert (params.zip args) .empty name
  rwa [Named.find?_empty, Option.or_none] at h

end Tree

theorem bindings_bindParams (params : List Name) (args : List Node) :
    (bindParams params args).bindings =
      (params.zip args).foldl (fun t p => t.insert p.1 p.2) .empty :=
  (List.foldl_hom Frame.bindings fun _ _ => rfl).symm

theorem find?_bindParams (params : List Name) (args : List Node) (name : Name) :
    (bindParams params args).find? name = Named.lookup name (params.zip args).reverse := by
  rw [Frame.find?, bindings_bindParams, Named.find?_foldl_insert, Named.find?_empty, Option.or_none]

theorem cells_bindParams_le (params : List Name) (args : List Node) :
    (bindParams params args).cells ≤ cellsOf args := by
  have zip : cellsOf ((params.zip args).map Prod.snd) ≤ cellsOf args := by
    induction args generalizing params with
    | nil => simp
    | cons x xs ih =>
        cases params with
        | nil => exact Multiset.zero_le _
        | cons n ns =>
            simp only [List.zip_cons_cons, List.map_cons, cellsOf_cons]
            exact add_le_add le_rfl (ih ns)
  exact (Frame.cells_foldl_set_le Prod.fst Prod.snd (params.zip args) "").trans zip

end CellScheme
