import CellScheme.Cell.Handle
import Mathlib.Algebra.Ring.Int.Defs
import Mathlib.Data.Set.Function
import Mathlib.Order.Interval.Set.Defs

/-!
Handles as if each owned a copy of what it reads. Beside the copies stands which step of a run has
made the storage that a handle is on. Counted cells behave like that as long as every handle on a
cell is counted: each operation moves one handle, and the counts follow the handles.
-/

namespace CellScheme

variable {α : Type}

/-- A handle with a copy of its own, and the step that made the storage it is on. -/
structure Copy (α : Type) where
  content : List α
  origin : Option Nat
deriving Repr

/-- Named handles with copies of their own, and the number of steps taken so far. -/
structure Copies (α : Type) where
  handles : Named (Copy α)
  clock : Nat
deriving Repr

/-- The handle that a step is about. -/
def HandleStep.target : HandleStep α → String
  | .make h _ | .zero h | .share h _ | .alias h _ | .append h _ | .own h | .release h
  | .same h _ => h

namespace Copies

def empty : Copies α := ⟨.empty, 0⟩

def find (c : Copies α) (name : Name) : Copy α :=
  (c.handles.find? name).getD ⟨[], none⟩

def bind (c : Copies α) (name : Name) (x : Copy α) : Copies α :=
  ⟨c.handles.insert name x, c.clock + 1⟩

/-- The number of handles on the storage that a step has made. -/
def on (c : Copies α) (made : Nat) : Nat :=
  c.handles.values.countP fun x => x.origin = some made

/-- The storage of a handle that is about to be written to: the one it is on, if no other handle is,
and else one that this step makes. -/
def owned (c : Copies α) (name : Name) : Option Nat :=
  match (c.find name).origin with
  | some made => if c.on made = 1 then some made else some c.clock
  | none => some c.clock

def step (c : Copies α) : HandleStep α → Copies α
  | .make h xs => c.bind h ⟨xs, some c.clock⟩
  | .share h g | .alias h g => c.bind h (c.find g)
  | .append h xs => c.bind h ⟨(c.find h).content ++ xs, c.owned h⟩
  | .own h => c.bind h ⟨(c.find h).content, c.owned h⟩
  | .zero h | .release h => c.bind h ⟨[], none⟩
  | .same h _ => c.bind h (c.find h)

/-- No handle is copied uncounted, and none is overwritten while it is on storage. -/
def Admits (c : Copies α) : HandleStep α → Prop
  | .alias _ _ => False
  | .make h _ | .zero h | .share h _ => (c.find h).origin = none
  | .append _ _ | .own _ | .release _ | .same _ _ => True

/-- Every step of the run is admitted where it is taken. -/
def Careful (c : Copies α) : List (HandleStep α) → Prop
  | [] => True
  | step :: steps => c.Admits step ∧ (c.step step).Careful steps

instance (c : Copies α) : (step : HandleStep α) → Decidable (c.Admits step)
  | .alias _ _ => inferInstanceAs (Decidable False)
  | .make h _ | .zero h | .share h _ => inferInstanceAs (Decidable ((c.find h).origin = none))
  | .append _ _ | .own _ | .release _ | .same _ _ => inferInstanceAs (Decidable True)

instance decidableCareful : (c : Copies α) → (steps : List (HandleStep α)) →
    Decidable (c.Careful steps)
  | _, [] => inferInstanceAs (Decidable True)
  | c, step :: steps =>
    have := decidableCareful (c.step step) steps
    inferInstanceAs (Decidable (c.Admits step ∧ (c.step step).Careful steps))

theorem find_bind (c : Copies α) (name other : Name) (x : Copy α) :
    (c.bind name x).find other = if other = name then x else c.find other := by
  simp only [find, bind, Named.find?_insert]
  split <;> rfl

end Copies

namespace Named

variable {H : Named Handle} {name : Name} {i : Nat}

/-- A name that stands for no handle yet is a handle on no cell. -/
def handle (H : Named Handle) (name : Name) : Handle :=
  (H.find? name).getD none

/-- The number of handles on a cell. -/
def on (H : Named Handle) (i : Nat) : Nat :=
  H.values.countP fun x => x = some i

theorem handle_insert (H : Named Handle) (name other : Name) (x : Handle) :
    (H.insert name x).handle other = if other = name then x else H.handle other := by
  simp only [handle, find?_insert]
  split <;> rfl

theorem mem_values_of_handle (h : H.handle name = some i) : some i ∈ H.values := by
  unfold handle at h
  cases hf : H.find? name with
  | none => simp [hf] at h
  | some x =>
      obtain rfl : x = some i := by simpa [hf] using h
      exact mem_values_of_lookup hf

theorem Sorted.exists_handle (h : H.Sorted) (hi : some i ∈ H.values) :
    ∃ name, H.handle name = some i := by
  obtain ⟨⟨name, x⟩, he, rfl⟩ := List.mem_map.mp hi
  refine ⟨name, ?_⟩
  have hf : H.find? name = some (some i) := lookup_of_mem h.nodup_names he
  simp [handle, hf]

theorem on_pos (h : H.handle name = some i) : 0 < H.on i :=
  List.countP_pos_iff.mpr ⟨some i, mem_values_of_handle h, by simp⟩

/-- A handle that moves is counted where it comes to be, and no longer where it was. -/
theorem Sorted.on_insert (h : H.Sorted) (name : Name) (x : Handle) (i : Nat) :
    ((H.insert name x).on i : Int) + (if H.handle name = some i then 1 else 0) =
      H.on i + (if x = some i then 1 else 0) := by
  have counted : (H.insert name x).on i + _ = H.on i + _ :=
    h.countP_insert name x fun y => y = some i
  have found : (H.find? name).elim 0 (fun y => if decide (y = some i) then 1 else 0) =
      if H.handle name = some i then 1 else 0 := by
    unfold handle
    cases H.find? name with
    | none => rfl
    | some y => simp
  rw [found] at counted
  simp only [decide_eq_true_eq] at counted
  exact_mod_cast counted

theorem Sorted.sole (h : H.Sorted) (one : H.on i = 1) (hi : H.handle name = some i) {other : Name}
    (hne : other ≠ name) : H.handle other ≠ some i := by
  intro ho
  have moved := h.on_insert name none i
  have still : (H.insert name none).handle other = some i := by
    rw [handle_insert, if_neg hne, ho]
  have positive := on_pos still
  simp only [hi, one, reduceCtorEq, if_true, if_false] at moved
  omega

end Named

namespace Handle

variable {base : Nat} {s s' : Shelf (List α)} {old new g : Handle} {v : List α}

/-- What is read through a handle that is on a cell from `base` on, or on none. -/
inductive Reads (base : Nat) (s : Shelf (List α)) : Handle → List α → Prop where
  | zero : Reads base s none []
  | cell {i : Nat} {v : List α} (h : base ≤ i) (hv : s.value? i = some v) : Reads base s (some i) v

/-- A handle moves from one place to another, where it then reads `v`. The counts follow it, at most
one cell is made, and cells keep what they contain unless this is the only handle on them. -/
structure Moves (base : Nat) (s s' : Shelf (List α)) (old new : Handle) (v : List α) : Prop where
  grows : s.size ≤ s'.size
  once : s'.size ≤ s.size + 1
  counted : ∀ i, base ≤ i → s'.holders i + (if old = some i then 1 else 0) =
    s.holders i + (if new = some i then 1 else 0)
  spared : ∀ i < s.size, (old = some i → s.holders i ≠ 1) → s'.value? i = s.value? i
  reads : Reads base s' new v

theorem lt_of_value? {s : Shelf (List α)} {i : Nat} (h : s.value? i = some v) : i < s.size := by
  by_contra hi
  rw [s.value?_eq_none (Nat.le_of_not_lt hi)] at h
  cases h

theorem Reads.content (h : Reads base s g v) : g.content s = v := by
  cases h with
  | zero => rfl
  | cell _ hv => simp [Handle.content, hv]

theorem Reads.of_spared (h : Reads base s g v) (hs : ∀ i, g = some i → s'.value? i = s.value? i) :
    Reads base s' g v := by
  cases h with
  | zero => exact .zero
  | cell hb hv => exact .cell hb ((hs _ rfl).trans hv)

theorem moves_stay (h : Reads base s g v) : Moves base s s g g v :=
  ⟨le_rfl, Nat.le_succ _, fun _ _ => rfl, fun _ _ _ => rfl, h⟩

theorem moves_make (hb : base ≤ s.size) (xs : List α) :
    Moves base s (make s xs).1 none (make s xs).2 xs where
  grows := by simp [make]
  once := by simp [make]
  counted i _ := by
    by_cases hi : s.size = i
    · subst hi
      have fresh := s.holders_alloc_self xs
      rw [Shelf.alloc_snd] at fresh
      simp [make, fresh, s.holders_eq_zero le_rfl]
    · simp [make, s.holders_alloc_of_ne xs (Ne.symm hi), hi]
  spared i hi _ := s.value?_alloc_of_lt xs hi
  reads := .cell hb (s.value?_alloc_self xs)

/-- Counting a handle in or out, without touching what it reads. -/
theorem moves_count {i : Nat} {n : Int} (hi : i < s.size) (hr : Reads base s new v)
    (hn : ∀ j, (if i = j then n else 0) + (if old = some j then 1 else 0) =
      if new = some j then 1 else 0) :
    Moves base s (s.addHolders i n) old new v where
  grows := by simp
  once := by simp
  counted j _ := by
    rw [s.holders_addHolders n hi j, add_assoc, hn j]
  spared j _ _ := s.value?_addHolders i j n
  reads := hr.of_spared fun j _ => s.value?_addHolders i j n

theorem moves_share (h : Reads base s g v) :
    Moves base s (share s g).1 none (share s g).2 v := by
  cases h with
  | zero => exact moves_stay .zero
  | cell hb hv => exact moves_count (lt_of_value? hv) (.cell hb hv) fun j => by simp [share]

theorem moves_release (h : Reads base s old v) :
    Moves base s (release s old).1 old (release s old).2 [] := by
  cases h with
  | zero => exact moves_stay .zero
  | cell hb hv =>
      refine moves_count (lt_of_value? hv) .zero fun j => ?_
      simp only [release, Option.some.injEq, reduceCtorEq, if_false]
      split <;> rfl

/-- A handle gives up its place and then takes another. -/
theorem Moves.trans {s1 : Shelf (List α)} {w : List α} (h : Moves base s s1 old none w)
    (h' : Moves base s1 s' none new v) (size : s1.size = s.size) : Moves base s s' old new v where
  grows := h.grows.trans h'.grows
  once := size ▸ h'.once
  counted i hi := by
    have first := h.counted i hi
    have second := h'.counted i hi
    simp only [reduceCtorEq, if_false] at first second
    omega
  spared i hi one :=
    (h'.spared i (hi.trans_le h.grows) fun eq => by cases eq).trans (h.spared i hi one)
  reads := h'.reads

theorem own_of_one {i : Nat} (h : s.holders i = 1) : own s (some i) = (s, some i) := by
  unfold Shelf.holders at h
  cases hc : s.cells[i]? with
  | none => simp [hc] at h
  | some c =>
      simp only [hc, Option.elim_some] at h
      simp [own, Shelf.own, hc, h]

theorem own_of_ne_one {i : Nat} (hv : s.value? i = some v) (h : s.holders i ≠ 1) :
    own s (some i) = make (s.release i) v := by
  simp [own, make, s.own_of_holders_ne_one hv h]

/-- A copy is made for a handle that gives up the cell it was on. -/
theorem moves_own (hb : base ≤ s.size) (h : Reads base s old v) :
    Moves base s (own s old).1 old (own s old).2 v := by
  cases h with
  | zero => exact moves_make hb []
  | @cell i v hi hv =>
      by_cases one : s.holders i = 1
      · rw [own_of_one one]
        exact moves_stay (.cell hi hv)
      · rw [own_of_ne_one hv one]
        have left := moves_release (.cell hi hv)
        have made := moves_make (s := s.release i) (by simpa [Shelf.release] using hb) v
        exact left.trans made (by simp [release, Shelf.release])

/-- The handle is then the only one on its cell, which it was already if the cell is an old one. -/
theorem own_cell (h : Reads base s old v) {i : Nat} (hi : (own s old).2 = some i)
    (hlt : i < s.size) : old = some i ∧ s.holders i = 1 := by
  cases h with
  | zero =>
      simp only [own, make, Shelf.alloc_snd, Option.some.injEq] at hi
      omega
  | @cell j v _ hv =>
      by_cases one : s.holders j = 1
      · rw [own_of_one one] at hi
        obtain rfl := Option.some.inj hi
        exact ⟨rfl, one⟩
      · rw [own_of_ne_one hv one] at hi
        simp only [make, Shelf.release, Shelf.alloc_snd, Shelf.size_addHolders,
          Option.some.injEq] at hi
        omega

theorem exists_own (h : Reads base s old v) : ∃ i, (own s old).2 = some i := by
  cases h with
  | zero => exact ⟨_, rfl⟩
  | cell _ _ => exact ⟨_, rfl⟩

theorem append_eq {i : Nat} (hi : (own s old).2 = some i) (xs : List α) :
    append s old xs = ((own s old).1.edit i (· ++ xs), some i) := by
  unfold append
  generalize own s old = r at *
  obtain ⟨s', g⟩ := r
  obtain rfl : g = some i := hi
  rfl

/-- A cell is edited without others seeing it if it is new, or has been the handle's alone. -/
theorem Moves.edit {i : Nat} (m : Moves base s s' old (some i) v)
    (sole : i < s.size → old = some i ∧ s.holders i = 1) (f : List α → List α) :
    Moves base s (s'.edit i f) old (some i) (f v) where
  grows := by simpa using m.grows
  once := by simpa using m.once
  counted j hj := by simpa using m.counted j hj
  spared j hj one := by
    have hne : i ≠ j := by
      rintro rfl
      exact one (sole hj).1 (sole hj).2
    rw [s'.value?_edit_of_ne f hne, m.spared j hj one]
  reads := by
    cases m.reads with
    | cell hi hv => exact .cell hi (by simp [hv])

theorem moves_append (hb : base ≤ s.size) (h : Reads base s old v) (xs : List α) :
    Moves base s (append s old xs).1 old (append s old xs).2 (v ++ xs) ∧
      (append s old xs).2 = (own s old).2 := by
  obtain ⟨i, hi⟩ := exists_own h
  have owned : Moves base s (own s old).1 old (some i) v := hi ▸ moves_own hb h
  rw [append_eq hi, hi]
  exact ⟨owned.edit (own_cell h hi) (· ++ xs), rfl⟩

end Handle

@[simp]
theorem Handle.same_none (g : Handle) : Handle.same none g = false := rfl

@[simp]
theorem Handle.same_some (i : Nat) (g : Handle) : Handle.same (some i) g = decide (g = some i) := by
  rw [Bool.eq_iff_iff, decide_eq_true_iff]
  constructor
  · intro h
    exact (eq_of_beq h).symm
  · rintro rfl
    exact beq_self_eq_true i

namespace HandleTable

variable {s0 s' : Shelf (List α)} {made : Nat → Nat} {t : HandleTable α} {c : Copies α}

/-- The table does what the copies say. Cells from those of `s0` on have been made by the steps that
`made` gives, each by a step of its own; the cells of `s0` are as they were. -/
structure Resembles (s0 : Shelf (List α)) (made : Nat → Nat) (t : HandleTable α) (c : Copies α) :
    Prop where
  base : s0.size ≤ t.shelf.size
  kept : ∀ i < s0.size, t.shelf.value? i = s0.value? i
  sorted : t.handles.Sorted
  reads : ∀ name, Handle.Reads s0.size t.shelf (t.handles.handle name) (c.find name).content
  counted : ∀ i, s0.size ≤ i → t.shelf.holders i = t.handles.on i
  origins : c.handles.entries.map (fun (name, x) => (name, x.origin)) =
    t.handles.entries.map fun (name, h) => (name, h.map made)
  apart : Set.InjOn made (Set.Ico s0.size t.shelf.size)
  past : ∀ i ∈ Set.Ico s0.size t.shelf.size, made i < c.clock

/-- With a further step, a new cell is made by that step. -/
def dated (t : HandleTable α) (made : Nat → Nat) (clock : Nat) (i : Nat) : Nat :=
  if i < t.shelf.size then made i else clock

theorem dated_eq {x : Handle} (hx : ∀ i, x = some i → i < t.shelf.size) (clock : Nat) :
    x.map (t.dated made clock) = x.map made := by
  cases x with
  | none => rfl
  | some i => simp [dated, hx i rfl]

theorem resembles_start (s0 : Shelf (List α)) : Resembles s0 id ⟨s0, .empty⟩ Copies.empty where
  base := le_rfl
  kept _ _ := rfl
  sorted := Named.sorted_empty
  reads _ := .zero
  counted i hi := by simpa [Named.on, Named.values, Named.empty] using s0.holders_eq_zero hi
  origins := rfl
  apart := by simp
  past := by simp

namespace Resembles

theorem origin (h : Resembles s0 made t c) (name : Name) :
    (c.find name).origin = (t.handles.handle name).map made := by
  have found := congrArg (Named.lookup name) h.origins
  rw [Named.lookup_map, Named.lookup_map] at found
  unfold Copies.find Named.handle Named.find?
  cases hc : Named.lookup name c.handles.entries with
  | none =>
      cases ht : Named.lookup name t.handles.entries with
      | none => rfl
      | some g => simp [hc, ht] at found
  | some x =>
      cases ht : Named.lookup name t.handles.entries with
      | none => simp [hc, ht] at found
      | some g => simpa [hc, ht] using found

theorem mem_cells (h : Resembles s0 made t c) {name : Name} {i : Nat}
    (hi : t.handles.handle name = some i) : i ∈ Set.Ico s0.size t.shelf.size := by
  have reads := h.reads name
  rw [hi] at reads
  cases reads with
  | cell hb hv => exact ⟨hb, Handle.lt_of_value? hv⟩

theorem mem_cells_of_mem (h : Resembles s0 made t c) {i : Nat} (hi : some i ∈ t.handles.values) :
    i ∈ Set.Ico s0.size t.shelf.size := by
  obtain ⟨name, hname⟩ := h.sorted.exists_handle hi
  exact h.mem_cells hname

/-- As many copies are said to be on a storage as there are handles on its cell. -/
theorem on_made (h : Resembles s0 made t c) {i : Nat} (hi : i ∈ Set.Ico s0.size t.shelf.size) :
    c.on (made i) = t.handles.on i := by
  have origins : c.handles.values.map Copy.origin = t.handles.values.map (Option.map made) := by
    simpa [Named.values, Function.comp_def] using congrArg (List.map Prod.snd) h.origins
  calc c.on (made i)
      = (c.handles.values.map Copy.origin).countP (· = some (made i)) := by
        rw [List.countP_map]; rfl
    _ = t.handles.values.countP fun x => x.map made = some (made i) := by
        rw [origins, List.countP_map]; rfl
    _ = t.handles.on i := List.countP_congr fun x hx => by
        cases x with
        | none => simp
        | some j =>
            have := h.apart.eq_iff (h.mem_cells_of_mem hx) hi
            simpa using this

/-- A cell that another handle is on has a second holder, so the move of one handle spares it. -/
theorem reads_other (h : Resembles s0 made t c) {name : String} {new : Handle} {v : List α}
    (m : Handle.Moves s0.size t.shelf s' (t.find name) new v) {other : Name}
    (hne : other ≠ name) :
    Handle.Reads s0.size s' (t.handles.handle other) (c.find other).content := by
  refine (h.reads other).of_spared fun i hi => m.spared i (h.mem_cells hi).2 fun hn one => ?_
  have sole : t.handles.on i = 1 := by
    have := h.counted i (h.mem_cells hi).1
    omega
  exact h.sorted.sole sole hn hne hi

theorem origins_dated (h : Resembles s0 made t c) :
    c.handles.entries.map (fun (name, x) => (name, x.origin)) =
      t.handles.entries.map fun (name, x) => (name, x.map (t.dated made c.clock)) := by
  refine h.origins.trans (List.map_congr_left fun (name, x) hx => ?_)
  refine congrArg (name, ·) (dated_eq ?_ _).symm
  rintro i rfl
  exact (h.mem_cells_of_mem (List.mem_map_of_mem hx)).2

theorem dated_injOn (h : Resembles s0 made t c) {size : Nat} (once : size ≤ t.shelf.size + 1) :
    Set.InjOn (t.dated made c.clock) (Set.Ico s0.size size) := by
  intro i hi j hj heq
  simp only [Set.mem_Ico] at hi hj
  simp only [dated] at heq
  split at heq <;> split at heq
  · exact h.apart ⟨hi.1, ‹_›⟩ ⟨hj.1, ‹_›⟩ heq
  · exact absurd heq (h.past i ⟨hi.1, ‹_›⟩).ne
  · exact absurd heq.symm (h.past j ⟨hj.1, ‹_›⟩).ne
  · omega

theorem dated_lt (h : Resembles s0 made t c) {i : Nat} (hi : s0.size ≤ i) :
    t.dated made c.clock i < c.clock + 1 := by
  unfold dated
  split
  · exact (h.past i ⟨hi, ‹_›⟩).trans (Nat.lt_succ_self _)
  · exact Nat.lt_succ_self _

theorem bind (h : Resembles s0 made t c) {name : String} {r : Shelf (List α) × Handle}
    {v : List α} (m : Handle.Moves s0.size t.shelf r.1 (t.find name) r.2 v) :
    Resembles s0 (t.dated made c.clock) (t.bind name r)
      (c.bind name ⟨v, r.2.map (t.dated made c.clock)⟩) where
  base := h.base.trans m.grows
  kept i hi := by
    refine (m.spared i (hi.trans_le h.base) fun hn => ?_).trans (h.kept i hi)
    exact absurd (h.mem_cells hn).1 (Nat.not_le_of_lt hi)
  sorted := h.sorted.insert name r.2
  reads other := by
    rw [Copies.find_bind]
    show Handle.Reads s0.size r.1 ((t.handles.insert name r.2).handle other) _
    rw [Named.handle_insert]
    split
    · exact m.reads
    · exact h.reads_other m ‹_›
  counted i hi := by
    have moved := h.sorted.on_insert name r.2 i
    have followed : r.1.holders i + (if t.handles.handle name = some i then 1 else 0) =
      t.shelf.holders i + (if r.2 = some i then 1 else 0) := m.counted i hi
    have before := h.counted i hi
    show r.1.holders i = (t.handles.insert name r.2).on i
    omega
  origins := by
    calc (c.handles.insert name ⟨v, r.2.map (t.dated made c.clock)⟩).entries.map
          (fun (n, x) => (n, x.origin))
        = Named.insertSorted name (r.2.map (t.dated made c.clock))
            (c.handles.entries.map fun (n, x) => (n, x.origin)) :=
          Named.map_insertSorted Copy.origin _ _ _
      _ = Named.insertSorted name (r.2.map (t.dated made c.clock))
            (t.handles.entries.map fun (n, x) => (n, x.map (t.dated made c.clock))) := by
          rw [h.origins_dated]
      _ = _ := (Named.map_insertSorted (Option.map (t.dated made c.clock)) _ _ _).symm
  apart := h.dated_injOn m.once
  past _ hi := h.dated_lt hi.1

theorem reads_find (h : Resembles s0 made t c) (name : String) :
    Handle.Reads s0.size t.shelf (t.find name) (c.find name).content :=
  h.reads name

/-- What a handle is on was made by the step that its copy says. -/
theorem find_eq (h : Resembles s0 made t c) (name : String) :
    c.find name = ⟨(c.find name).content, (t.find name).map (t.dated made c.clock)⟩ := by
  have same : (t.find name).map (t.dated made c.clock) = (t.find name).map made :=
    dated_eq (fun i hi => (h.mem_cells hi).2) _
  rw [same]
  exact congrArg (Copy.mk (c.find name).content) (h.origin name)

theorem find_eq_none (h : Resembles s0 made t c) {name : String}
    (hn : (c.find name).origin = none) : t.find name = none := by
  rw [h.origin] at hn
  exact Option.map_eq_none_iff.mp hn

theorem owned_eq (h : Resembles s0 made t c) (name : String) :
    c.owned name = (Handle.own t.shelf (t.find name)).2.map (t.dated made c.clock) := by
  have origin : (c.find name).origin = (t.find name).map made := h.origin name
  rw [Copies.owned, origin]
  cases hn : t.find name with
  | none => simp [Handle.own, Handle.make, dated]
  | some i =>
      have cell := h.mem_cells hn
      have counted := h.counted i cell.1
      obtain ⟨v, hv⟩ := t.shelf.exists_value?_of_lt cell.2
      show (if c.on (made i) = 1 then _ else _) = _
      rw [h.on_made cell]
      by_cases one : t.handles.on i = 1
      · rw [if_pos one, Handle.own_of_one (by omega)]
        simp [dated, cell.2]
      · rw [if_neg one, Handle.own_of_ne_one hv (by omega)]
        simp [Handle.make, Shelf.release, dated]

theorem step_moves (h : Resembles s0 made t c) {step : HandleStep α} (admitted : c.Admits step) :
    ∃ r v, t.step step = t.bind step.target r ∧
      c.step step = c.bind step.target ⟨v, r.2.map (t.dated made c.clock)⟩ ∧
      Handle.Moves s0.size t.shelf r.1 (t.find step.target) r.2 v := by
  cases step with
  | make name xs =>
      refine ⟨Handle.make t.shelf xs, xs, rfl, ?_, ?_⟩
      · simp [Copies.step, Handle.make, dated, HandleStep.target]
      · have free : t.find name = none := h.find_eq_none admitted
        rw [HandleStep.target, free]
        exact Handle.moves_make h.base xs
  | zero name =>
      refine ⟨(t.shelf, none), [], rfl, rfl, ?_⟩
      have free : t.find name = none := h.find_eq_none admitted
      rw [HandleStep.target, free]
      exact Handle.moves_stay .zero
  | share name g =>
      refine ⟨Handle.share t.shelf (t.find g), (c.find g).content, rfl, ?_, ?_⟩
      · have kept : (Handle.share t.shelf (t.find g)).2 = t.find g := by
          cases t.find g <;> rfl
        rw [kept, ← h.find_eq g]
        rfl
      · have free : t.find name = none := h.find_eq_none admitted
        rw [HandleStep.target, free]
        exact Handle.moves_share (h.reads_find g)
  | «alias» name g => exact admitted.elim
  | append name xs =>
      obtain ⟨moves, same⟩ := Handle.moves_append h.base (h.reads_find name) xs
      refine ⟨Handle.append t.shelf (t.find name) xs, (c.find name).content ++ xs, rfl, ?_, moves⟩
      rw [same, ← h.owned_eq name]
      rfl
  | own name =>
      refine ⟨Handle.own t.shelf (t.find name), (c.find name).content, rfl, ?_,
        Handle.moves_own h.base (h.reads_find name)⟩
      rw [← h.owned_eq name]
      rfl
  | release name =>
      refine ⟨Handle.release t.shelf (t.find name), [], rfl, ?_,
        Handle.moves_release (h.reads_find name)⟩
      have gone : (Handle.release t.shelf (t.find name)).2 = none := by
        cases t.find name <;> rfl
      rw [gone]
      rfl
  | same name g =>
      refine ⟨(t.shelf, t.find name), (c.find name).content, rfl, ?_,
        Handle.moves_stay (h.reads_find name)⟩
      rw [← h.find_eq name]
      rfl

theorem step (h : Resembles s0 made t c) {step : HandleStep α} (admitted : c.Admits step) :
    Resembles s0 (t.dated made c.clock) (t.step step) (c.step step) := by
  obtain ⟨r, v, table, copies, moves⟩ := h.step_moves admitted
  rw [table, copies]
  exact h.bind moves

theorem run (h : Resembles s0 made t c) {steps : List (HandleStep α)} (careful : c.Careful steps) :
    ∃ made', Resembles s0 made' (steps.foldl HandleTable.step t) (steps.foldl Copies.step c) := by
  induction steps generalizing made t c with
  | nil => exact ⟨made, h⟩
  | cons step steps ih => exact ih (h.step careful.1) careful.2

end Resembles

/-- What can be seen of a table, and of the tables that a further step makes of it, is what the
copies say: a handle reads its copy, the count is the number of handles on the storage, two handles
are the same if their storage was made by the same step, and the only handle on a cell stays on it
when it is written to. -/
structure Behaves (t : HandleTable α) (next : HandleStep α → HandleTable α) (c : Copies α) :
    Prop where
  content : ∀ h : String, (t.find h).content t.shelf = (c.find h).content
  refs : ∀ h : String,
    (t.find h).refs t.shelf = t.handles.values.countP (Handle.same (t.find h))
  zero : ∀ h : String, (c.find h).origin = none → (t.find h).refs t.shelf = 0
  same : ∀ a b : String, t.verdict? (.same a b) = some true ↔
    ∃ made, (c.find a).origin = some made ∧ (c.find b).origin = some made
  inPlace : ∀ h : String, (t.find h).refs t.shelf = 1 →
    (next (.own h)).find h = t.find h ∧ ∀ xs, (next (.append h xs)).find h = t.find h

theorem Behaves.refs_le {next : HandleStep α → HandleTable α} (b : t.Behaves next c)
    (h : String) : (t.find h).refs t.shelf ≤ t.handles.size := by
  rw [b.refs h]
  calc (t.handles.values.countP (Handle.same (t.find h)) : Int)
      ≤ t.handles.values.length := Int.ofNat_le.mpr List.countP_le_length
    _ = t.handles.size := by simp [Named.values, Named.size]

theorem find_bind (t : HandleTable α) (name : String) (r : Shelf (List α) × Handle) :
    (t.bind name r).find name = r.2 := by
  simp [find, HandleTable.bind]

theorem eq_some_of_refs {h : Handle} {s : Shelf (List α)} (one : h.refs s = 1) :
    ∃ i, h = some i ∧ s.holders i = 1 := by
  cases h with
  | none => cases one
  | some i => exact ⟨i, rfl, one⟩

theorem step_inPlace (t : HandleTable α) {h : String} (one : (t.find h).refs t.shelf = 1) :
    (t.step (.own h)).find h = t.find h ∧ ∀ xs, (t.step (.append h xs)).find h = t.find h := by
  obtain ⟨i, hi, holder⟩ := eq_some_of_refs one
  have owned := Handle.own_of_one holder
  refine ⟨?_, fun xs => ?_⟩
  · rw [step, find_bind, hi, owned]
  · rw [step, find_bind, hi, Handle.append, owned]

namespace Resembles

theorem refs_eq (h : Resembles s0 made t c) (name : String) :
    (t.find name).refs t.shelf = t.handles.values.countP (Handle.same (t.find name)) := by
  cases hn : t.find name with
  | none =>
      have nowhere : t.handles.values.countP (Handle.same none) = 0 :=
        List.countP_eq_zero.mpr fun x _ => by simp
      rw [nowhere]
      rfl
  | some i =>
      have alike : t.handles.on i = t.handles.values.countP (Handle.same (some i)) :=
        List.countP_congr fun x _ => by simp
      rw [Handle.refs, h.counted i (h.mem_cells hn).1, alike]

theorem same_iff (h : Resembles s0 made t c) (a b : String) :
    Handle.same (t.find a) (t.find b) = true ↔
      ∃ made, (c.find a).origin = some made ∧ (c.find b).origin = some made := by
  have origin : ∀ name : String, (c.find name).origin = (t.find name).map made :=
    fun name => h.origin name
  rw [origin, origin]
  cases ha : t.find a with
  | none => simp
  | some i =>
      cases hb : t.find b with
      | none => simp
      | some j =>
          have := h.apart.eq_iff (h.mem_cells hb) (h.mem_cells ha)
          simp [this]

theorem behaves (h : Resembles s0 made t c) {next : HandleStep α → HandleTable α}
    (inPlace : ∀ h : String, (t.find h).refs t.shelf = 1 →
      (next (.own h)).find h = t.find h ∧ ∀ xs, (next (.append h xs)).find h = t.find h) :
    t.Behaves next c where
  content name := (h.reads_find name).content
  refs := h.refs_eq
  zero name free := by rw [h.find_eq_none free]; rfl
  same a b := by simpa [verdict?] using h.same_iff a b
  inPlace := inPlace

end Resembles

end HandleTable

end CellScheme
