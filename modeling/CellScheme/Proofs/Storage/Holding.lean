import CellScheme.Store.View
import Mathlib.Algebra.BigOperators.Group.Finset.Basic
import Mathlib.Algebra.Order.Group.Multiset
import Mathlib.Tactic.Abel

/-!
Which cells hold which. A cell of any of the three shelves has a count and a content, and a content
holds cells again. The effect of every operation of the store is stated in these terms, once for all
three shelves.
-/

namespace CellScheme

/-- A cell of a store: its shelf and its position there. -/
inductive Cell where
  | node (i : Nat)
  | seq (i : Nat)
  | names (i : Nat)
deriving DecidableEq, Repr

/-- Cells that nodes stand in. -/
def Cell.hasParts : Cell → Prop
  | .node _ | .seq _ => True
  | .names _ => False

/-- The cells that a node holds itself. -/
def Node.cells : Node → Multiset Cell
  | .quote c => {.node c}
  | .list c => {.seq c}
  | .lambda b p k => {.seq b, .names p, .node k}
  | .int _ | .bool _ | .symbol _ | .builtin _ => 0

/-- The cells that the nodes of a sequence hold, each as often as it is held. -/
def cellsOf (xs : List Node) : Multiset Cell :=
  (xs.map Node.cells).sum

@[simp]
theorem cellsOf_nil : cellsOf [] = 0 := rfl

@[simp]
theorem cellsOf_cons (x : Node) (xs : List Node) : cellsOf (x :: xs) = x.cells + cellsOf xs := by
  simp [cellsOf]

@[simp]
theorem cellsOf_append (xs ys : List Node) : cellsOf (xs ++ ys) = cellsOf xs + cellsOf ys := by
  simp [cellsOf]

theorem cells_le_cellsOf {x : Node} {xs : List Node} (h : x ∈ xs) : x.cells ≤ cellsOf xs := by
  induction xs with
  | nil => cases h
  | cons y ys ih =>
      rw [cellsOf_cons]
      rcases List.mem_cons.mp h with rfl | h
      · exact Multiset.le_add_right _ _
      · exact (ih h).trans (Multiset.le_add_left _ _)

theorem mem_cellsOf {k : Cell} {xs : List Node} : k ∈ cellsOf xs ↔ ∃ x ∈ xs, k ∈ x.cells := by
  induction xs with
  | nil => simp
  | cons y ys ih => simp [ih]

theorem cellsOf_concat_le (xs : List Node) (x : Node) :
    cellsOf (xs ++ [x]) ≤ x.cells + cellsOf xs := by
  rw [cellsOf_append, cellsOf_cons, cellsOf_nil, add_zero, add_comm]

theorem cellsOf_set_le (xs : List Node) (i : Nat) (x : Node) :
    cellsOf (xs.set i x) ≤ x.cells + cellsOf xs := by
  induction xs generalizing i with
  | nil => exact Multiset.zero_le _
  | cons y ys ih =>
      cases i with
      | zero =>
          simp only [List.set_cons_zero, cellsOf_cons]
          exact add_le_add le_rfl (Multiset.le_add_left _ _)
      | succ i =>
          simp only [List.set_cons_succ, cellsOf_cons]
          calc y.cells + cellsOf (ys.set i x) ≤ y.cells + (x.cells + cellsOf ys) :=
                add_le_add le_rfl (ih i)
            _ = x.cells + (y.cells + cellsOf ys) := by abel

namespace Store

def Allocated (st : Store) : Cell → Prop
  | .node i => i < st.nodes.size
  | .seq i => i < st.seqs.size
  | .names i => i < st.names.size

/-- All cells of a store. -/
def cells (st : Store) : Finset Cell :=
  (Finset.range st.nodes.size).image .node ∪
    ((Finset.range st.seqs.size).image .seq ∪ (Finset.range st.names.size).image .names)

theorem mem_cells {st : Store} {k : Cell} : k ∈ st.cells ↔ st.Allocated k := by
  cases k <;> simp [cells, Allocated]

/-- The number of holders that a cell is said to have. -/
def count (st : Store) : Cell → Int
  | .node i => st.nodes.holders i
  | .seq i => st.seqs.holders i
  | .names i => st.names.holders i

/-- The cells held by the content of a cell. -/
def inside (st : Store) : Cell → Multiset Cell
  | .node i => (st.payload i).cells
  | .seq i => cellsOf (st.elements i)
  | .names _ => 0

/-- A cell has the same content in both stores. -/
def Agree (st st' : Store) : Cell → Prop
  | .node i => st'.nodes.value? i = st.nodes.value? i
  | .seq i => st'.seqs.value? i = st.seqs.value? i
  | .names i => st'.names.value? i = st.names.value? i

theorem Agree.refl (st : Store) (k : Cell) : Agree st st k := by
  cases k <;> rfl

theorem Agree.trans {st st' st'' : Store} {k : Cell} (h : Agree st st' k) (h' : Agree st' st'' k) :
    Agree st st'' k := by
  cases k <;> exact Eq.trans h' h

theorem Agree.payload_eq {st st' : Store} {c : Nat} (h : Agree st st' (.node c)) :
    st'.payload c = st.payload c :=
  congrArg (Option.getD · default) h

theorem Agree.elements_eq {st st' : Store} {c : Nat} (h : Agree st st' (.seq c)) :
    st'.elements c = st.elements c :=
  congrArg (Option.getD · []) h

theorem Agree.params_eq {st st' : Store} {c : Nat} (h : Agree st st' (.names c)) :
    st'.params c = st.params c :=
  congrArg (Option.getD · []) h

theorem Agree.inside_eq {st st' : Store} {k : Cell} (h : Agree st st' k) :
    st'.inside k = st.inside k := by
  cases k with
  | node c => exact congrArg Node.cells h.payload_eq
  | seq c => exact congrArg cellsOf h.elements_eq
  | names c => rfl

/-- Every cell of the first store has the same content in the second. -/
structure Extends (st st' : Store) : Prop where
  allocated : ∀ k, st.Allocated k → st'.Allocated k
  agree : ∀ k, st.Allocated k → Agree st st' k

theorem Extends.refl (st : Store) : Extends st st :=
  ⟨fun _ h => h, fun k _ => Agree.refl st k⟩

theorem Extends.trans {st st' st'' : Store} (h : Extends st st') (h' : Extends st' st'') :
    Extends st st'' :=
  ⟨fun k hk => h'.allocated k (h.allocated k hk),
    fun k hk => (h.agree k hk).trans (h'.agree k (h.allocated k hk))⟩

theorem allocated_addHolders (st : Store) (x : Node) (n : Int) (k : Cell) :
    (st.addHolders x n).Allocated k ↔ st.Allocated k := by
  cases x <;> cases k <;> simp [addHolders, Allocated]

theorem agree_addHolders (st : Store) (x : Node) (n : Int) (k : Cell) :
    Agree st (st.addHolders x n) k := by
  cases x <;> cases k <;> simp [addHolders, Agree]

theorem extends_addHolders (st : Store) (x : Node) (n : Int) : Extends st (st.addHolders x n) :=
  ⟨fun k h => (allocated_addHolders st x n k).mpr h, fun k _ => agree_addHolders st x n k⟩

theorem holders_addHolders {α : Type} (s : Shelf α) {i : Nat} (j : Nat) (n : Int)
    (h : i < s.size) :
    (s.addHolders i n).holders j = s.holders j + n * ((if j = i then 1 else 0 : Nat) : Int) := by
  rw [s.holders_addHolders n h j]
  simp [eq_comm]

/-- Counting changes the count of a cell by as often as the node holds it. -/
theorem count_addHolders (st : Store) (x : Node) (n : Int) (k : Cell)
    (h : ∀ j ∈ x.cells, st.Allocated j) :
    (st.addHolders x n).count k = st.count k + n * (x.cells.count k : Int) := by
  cases x with
  | int _ | bool _ | symbol _ | builtin _ => simp [addHolders, Node.cells]
  | quote c =>
      have hc : c < st.nodes.size := h (.node c) (by simp [Node.cells])
      cases k with
      | node j => simp [addHolders, count, Node.cells, Multiset.count_singleton,
          holders_addHolders st.nodes j n hc]
      | seq j | names j => simp [addHolders, count, Node.cells]
  | list c =>
      have hc : c < st.seqs.size := h (.seq c) (by simp [Node.cells])
      cases k with
      | seq j => simp [addHolders, count, Node.cells, Multiset.count_singleton,
          holders_addHolders st.seqs j n hc]
      | node j | names j => simp [addHolders, count, Node.cells]
  | lambda b p c =>
      have hb : b < st.seqs.size := h (.seq b) (by simp [Node.cells])
      have hp : p < st.names.size := h (.names p) (by simp [Node.cells])
      have hc : c < st.nodes.size := h (.node c) (by simp [Node.cells])
      cases k with
      | seq j => simp [addHolders, count, Node.cells, Multiset.count_cons,
          holders_addHolders st.seqs j n hb]
      | names j => simp [addHolders, count, Node.cells, Multiset.count_cons,
          holders_addHolders st.names j n hp]
      | node j => simp [addHolders, count, Node.cells, Multiset.count_singleton,
          holders_addHolders st.nodes j n hc]

/-- The second store is the first with one new cell, which has one holder. -/
structure Adds (st st' : Store) (k : Cell) : Prop where
  fresh : ¬ st.Allocated k
  allocated : ∀ j, st'.Allocated j ↔ st.Allocated j ∨ j = k
  agree : ∀ j, st.Allocated j → Agree st st' j
  count_self : st'.count k = 1
  count_other : ∀ j, j ≠ k → st'.count j = st.count j

theorem Adds.extends {st st' : Store} {k : Cell} (h : Adds st st' k) : Extends st st' :=
  ⟨fun j hj => (h.allocated j).mpr (.inl hj), h.agree⟩

theorem adds_allocNode (st : Store) (x : Node) :
    Adds st (st.allocNode x).1 (.node (st.allocNode x).2) := by
  refine ⟨?_, ?_, ?_, ?_, ?_⟩
  · simp [allocNode, Allocated]
  · rintro (j | j | j) <;> simp only [allocNode, Allocated, Shelf.size_alloc, Shelf.alloc_snd,
      Cell.node.injEq, reduceCtorEq, or_false]
    omega
  · rintro (j | j | j) h
    · exact Shelf.value?_alloc_of_lt st.nodes x h
    all_goals rfl
  · exact Shelf.holders_alloc_self st.nodes x
  · rintro (j | j | j) h
    · exact Shelf.holders_alloc_of_ne st.nodes x (fun e => h (congrArg Cell.node e))
    all_goals rfl

theorem adds_allocSeq (st : Store) (xs : List Node) :
    Adds st (st.allocSeq xs).1 (.seq (st.allocSeq xs).2) := by
  refine ⟨?_, ?_, ?_, ?_, ?_⟩
  · simp [allocSeq, Allocated]
  · rintro (j | j | j) <;> simp only [allocSeq, Allocated, Shelf.size_alloc, Shelf.alloc_snd,
      Cell.seq.injEq, reduceCtorEq, or_false]
    omega
  · rintro (j | j | j) h
    · rfl
    · exact Shelf.value?_alloc_of_lt st.seqs xs h
    · rfl
  · exact Shelf.holders_alloc_self st.seqs xs
  · rintro (j | j | j) h
    · rfl
    · exact Shelf.holders_alloc_of_ne st.seqs xs (fun e => h (congrArg Cell.seq e))
    · rfl

theorem adds_allocNames (st : Store) (ns : List Name) :
    Adds st (st.allocNames ns).1 (.names (st.allocNames ns).2) := by
  refine ⟨?_, ?_, ?_, ?_, ?_⟩
  · simp [allocNames, Allocated]
  · rintro (j | j | j) <;> simp only [allocNames, Allocated, Shelf.size_alloc, Shelf.alloc_snd,
      Cell.names.injEq, reduceCtorEq, or_false]
    omega
  · rintro (j | j | j) h
    · rfl
    · rfl
    · exact Shelf.value?_alloc_of_lt st.names ns h
  · exact Shelf.holders_alloc_self st.names ns
  · rintro (j | j | j) h
    · rfl
    · rfl
    · exact Shelf.holders_alloc_of_ne st.names ns (fun e => h (congrArg Cell.names e))

@[simp]
theorem payload_allocNode (st : Store) (x : Node) :
    (st.allocNode x).1.payload (st.allocNode x).2 = x := by
  simp [payload, allocNode, -Shelf.alloc_snd]

@[simp]
theorem elements_allocSeq (st : Store) (xs : List Node) :
    (st.allocSeq xs).1.elements (st.allocSeq xs).2 = xs := by
  simp [elements, allocSeq, -Shelf.alloc_snd]

@[simp]
theorem params_allocNames (st : Store) (ns : List Name) :
    (st.allocNames ns).1.params (st.allocNames ns).2 = ns := by
  simp [params, allocNames, -Shelf.alloc_snd]

theorem count_of_not_allocated (st : Store) {k : Cell} (h : ¬ st.Allocated k) : st.count k = 0 := by
  cases k with
  | node i => exact st.nodes.holders_eq_zero (Nat.le_of_not_lt h)
  | seq i => exact st.seqs.holders_eq_zero (Nat.le_of_not_lt h)
  | names i => exact st.names.holders_eq_zero (Nat.le_of_not_lt h)

theorem inside_of_not_allocated (st : Store) {k : Cell} (h : ¬ st.Allocated k) :
    st.inside k = 0 := by
  cases k with
  | node i =>
      have hn : st.nodes.value? i = none := st.nodes.value?_eq_none (Nat.le_of_not_lt h)
      simp only [inside, payload, hn]
      rfl
  | seq i =>
      have hn : st.seqs.value? i = none := st.seqs.value?_eq_none (Nat.le_of_not_lt h)
      simp only [inside, elements, hn]
      rfl
  | names i => rfl

/-- The second store is the first with another content in one cell. -/
structure Edits (st st' : Store) (k : Cell) : Prop where
  allocated : ∀ j, st'.Allocated j ↔ st.Allocated j
  agree : ∀ j, j ≠ k → Agree st st' j
  count : ∀ j, st'.count j = st.count j

theorem edits_editSeq (st : Store) (c : Nat) (f : List Node → List Node) :
    Edits st (st.editSeq c f) (.seq c) := by
  refine ⟨?_, ?_, ?_⟩
  · rintro (j | j | j) <;> simp [editSeq, Allocated]
  · rintro (j | j | j) h
    · rfl
    · exact Shelf.value?_edit_of_ne st.seqs f (fun e => h (congrArg Cell.seq e.symm))
    · rfl
  · rintro (j | j | j) <;> simp [editSeq, Store.count]

theorem elements_editSeq_self (st : Store) {c : Nat} (f : List Node → List Node)
    (h : c < st.seqs.size) : (st.editSeq c f).elements c = f (st.elements c) := by
  obtain ⟨xs, hxs⟩ := st.seqs.exists_value?_of_lt h
  simp [elements, editSeq, hxs]

/-- A cell that is among the roots, or held by the content of a cell that is reached. -/
inductive Reach (st : Store) (R : Multiset Cell) : Cell → Prop where
  | root {k : Cell} (h : k ∈ R) : Reach st R k
  | inside {j k : Cell} (hj : Reach st R j) (h : k ∈ st.inside j) : Reach st R k

theorem Reach.mono {st : Store} {R S : Multiset Cell} (h : R ⊆ S) {k : Cell}
    (hk : Reach st R k) : Reach st S k := by
  induction hk with
  | root hk => exact .root (h hk)
  | inside _ hk ih => exact .inside ih hk

/-- Cells of one reach as much as what is reached. -/
theorem Reach.trans {st : Store} {R S : Multiset Cell} (h : ∀ k ∈ S, Reach st R k) {k : Cell}
    (hk : Reach st S k) : Reach st R k := by
  induction hk with
  | root hk => exact h _ hk
  | inside _ hk ih => exact .inside ih hk

theorem Reach.of_add {st : Store} {R S : Multiset Cell} {k : Cell} (h : Reach st (R + S) k) :
    Reach st R k ∨ Reach st S k := by
  induction h with
  | root h => exact (Multiset.mem_add.mp h).imp .root .root
  | inside _ h ih => exact ih.imp (·.inside h) (·.inside h)

theorem Reach.of_agree {st st' : Store} {R : Multiset Cell}
    (h : ∀ k, Reach st R k → Agree st st' k) {k : Cell} (hk : Reach st R k) : Reach st' R k := by
  induction hk with
  | root hk => exact .root hk
  | inside hj hk ih => exact .inside ih ((h _ hj).inside_eq ▸ hk)

/-- A node whose cells are all reached. -/
def Visible (st : Store) (R : Multiset Cell) (x : Node) : Prop :=
  ∀ k ∈ x.cells, Reach st R k

theorem Visible.of_le {st : Store} {R : Multiset Cell} {x : Node} (h : x.cells ≤ R) :
    st.Visible R x :=
  fun _ hk => .root (Multiset.mem_of_le h hk)

theorem Visible.mono {st : Store} {R S : Multiset Cell} {x : Node} (h : st.Visible R x)
    (hs : R ≤ S) : st.Visible S x :=
  fun k hk => (h k hk).mono (Multiset.subset_of_le hs)

theorem Visible.of_agree {st st' : Store} {R : Multiset Cell} {x : Node} (h : st.Visible R x)
    (ha : ∀ k, Reach st R k → Agree st st' k) : st'.Visible R x :=
  fun k hk => (h k hk).of_agree ha

theorem Visible.element {st : Store} {R : Multiset Cell} {c : Nat} (h : Reach st R (.seq c))
    {x : Node} (hx : x ∈ st.elements c) : st.Visible R x :=
  fun _ hk => .inside h (Multiset.mem_of_le (cells_le_cellsOf hx) hk)

theorem Visible.payload {st : Store} {R : Multiset Cell} {c : Nat} (h : Reach st R (.node c)) :
    st.Visible R (st.payload c) :=
  fun _ hk => .inside h hk

end Store

end CellScheme
