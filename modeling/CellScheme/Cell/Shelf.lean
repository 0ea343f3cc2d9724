/-!
Counted cells: values kept once and held by many. A cell is named by its position on its shelf and
is never removed. A cell with one holder is edited in place; one with several is copied first.
-/

namespace CellScheme

/-- A value with the number of its holders. -/
structure Counted (α : Type) where
  value : α
  holders : Int
deriving Repr, Inhabited

structure Shelf (α : Type) where
  cells : Array (Counted α)
deriving Repr, Inhabited

namespace Shelf

variable {α : Type}

def empty : Shelf α := ⟨#[]⟩

def size (s : Shelf α) : Nat :=
  s.cells.size

def value? (s : Shelf α) (i : Nat) : Option α :=
  s.cells[i]?.map Counted.value

/-- The number of holders of a cell; a cell that does not exist has none. -/
def holders (s : Shelf α) (i : Nat) : Int :=
  s.cells[i]?.elim 0 Counted.holders

/-- A new cell with one holder. -/
def alloc (s : Shelf α) (v : α) : Shelf α × Nat :=
  let i := s.cells.size
  (⟨s.cells.push ⟨v, 1⟩⟩, i)

def addHolders (s : Shelf α) (i : Nat) (n : Int) : Shelf α :=
  ⟨s.cells.modify i fun c => ⟨c.value, c.holders + n⟩⟩

def share (s : Shelf α) (i : Nat) : Shelf α :=
  s.addHolders i 1

def release (s : Shelf α) (i : Nat) : Shelf α :=
  s.addHolders i (-1)

/-- Edit a cell in place, for all its holders. -/
def edit (s : Shelf α) (i : Nat) (f : α → α) : Shelf α :=
  ⟨s.cells.modify i fun c => ⟨f c.value, c.holders⟩⟩

/-- A cell that may be edited for one of the holders of `i`: the cell itself if it has no other
holder, and otherwise a copy, for which the holder gives up the old one. -/
def own (s : Shelf α) (i : Nat) : Shelf α × Nat :=
  match s.cells[i]? with
  | none => (s, i)
  | some c => if c.holders = 1 then (s, i) else (s.release i).alloc c.value

@[simp]
theorem value?_alloc_self (s : Shelf α) (v : α) : (s.alloc v).1.value? (s.alloc v).2 = some v := by
  simp [alloc, value?]

theorem value?_alloc_of_lt (s : Shelf α) (v : α) {i : Nat} (h : i < s.size) :
    (s.alloc v).1.value? i = s.value? i := by
  simp only [size] at h
  simp [alloc, value?, Array.getElem?_push, Nat.ne_of_lt h]

@[simp]
theorem holders_alloc_self (s : Shelf α) (v : α) : (s.alloc v).1.holders (s.alloc v).2 = 1 := by
  simp [alloc, holders]

@[simp]
theorem value?_addHolders (s : Shelf α) (i j : Nat) (n : Int) :
    (s.addHolders i n).value? j = s.value? j := by
  simp only [addHolders, value?, Array.getElem?_modify]
  split
  · cases s.cells[j]? <;> rfl
  · rfl

theorem holders_addHolders_of_lt (s : Shelf α) (i : Nat) (n : Int) (h : i < s.size) :
    (s.addHolders i n).holders i = s.holders i + n := by
  simp only [size] at h
  simp [addHolders, holders, Array.getElem?_modify, Array.getElem?_eq_getElem h]

theorem holders_addHolders_of_ne (s : Shelf α) {i j : Nat} (n : Int) (h : i ≠ j) :
    (s.addHolders i n).holders j = s.holders j := by
  simp [addHolders, holders, Array.getElem?_modify, h]

theorem holders_addHolders (s : Shelf α) {i : Nat} (n : Int) (h : i < s.size) (j : Nat) :
    (s.addHolders i n).holders j = s.holders j + if i = j then n else 0 := by
  split
  · rename_i heq
    rw [← heq, s.holders_addHolders_of_lt i n h]
  · rename_i hne
    rw [s.holders_addHolders_of_ne n hne, Int.add_zero]

theorem value?_edit_of_ne (s : Shelf α) {i j : Nat} (f : α → α) (h : i ≠ j) :
    (s.edit i f).value? j = s.value? j := by
  simp [edit, value?, Array.getElem?_modify, h]

@[simp]
theorem size_alloc (s : Shelf α) (v : α) : (s.alloc v).1.size = s.size + 1 := by
  simp [alloc, size]

@[simp]
theorem alloc_snd (s : Shelf α) (v : α) : (s.alloc v).2 = s.size := rfl

@[simp]
theorem size_addHolders (s : Shelf α) (i : Nat) (n : Int) : (s.addHolders i n).size = s.size := by
  simp [addHolders, size]

@[simp]
theorem size_edit (s : Shelf α) (i : Nat) (f : α → α) : (s.edit i f).size = s.size := by
  simp [edit, size]

theorem holders_eq_zero (s : Shelf α) {i : Nat} (h : s.size ≤ i) : s.holders i = 0 := by
  simp only [size] at h
  simp [holders, h]

theorem value?_eq_none (s : Shelf α) {i : Nat} (h : s.size ≤ i) : s.value? i = none := by
  simp only [size] at h
  simp [value?, h]

theorem exists_value?_of_lt (s : Shelf α) {i : Nat} (h : i < s.size) :
    ∃ v, s.value? i = some v := by
  simp only [size] at h
  exact ⟨s.cells[i].value, by simp [value?, h]⟩

theorem holders_alloc_of_ne (s : Shelf α) (v : α) {i : Nat} (h : i ≠ s.size) :
    (s.alloc v).1.holders i = s.holders i := by
  simp only [size] at h
  simp [alloc, holders, Array.getElem?_push, h]

@[simp]
theorem holders_edit (s : Shelf α) (i j : Nat) (f : α → α) :
    (s.edit i f).holders j = s.holders j := by
  simp only [edit, holders, Array.getElem?_modify]
  split
  · cases s.cells[j]? <;> rfl
  · rfl

@[simp]
theorem value?_edit_self (s : Shelf α) (i : Nat) (f : α → α) :
    (s.edit i f).value? i = (s.value? i).map f := by
  simp only [edit, value?, Array.getElem?_modify, if_true]
  cases s.cells[i]? <;> rfl

/-- A cell with several holders is copied, and has then one holder less. -/
theorem own_of_holders_ne_one (s : Shelf α) {i : Nat} {v : α} (hv : s.value? i = some v)
    (h : s.holders i ≠ 1) : s.own i = (s.release i).alloc v := by
  unfold own
  unfold holders at h
  unfold value? at hv
  cases hc : s.cells[i]? with
  | none => simp [hc] at hv
  | some c =>
      simp only [hc, Option.elim_some] at h
      simp only [hc, Option.map_some, Option.some.injEq] at hv
      simp [h, hv]

end Shelf

end CellScheme
