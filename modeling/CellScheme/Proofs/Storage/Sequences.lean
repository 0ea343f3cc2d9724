import CellScheme.Proofs.Storage.Copies
import CellScheme.Proofs.Storage.Growth

/-!
Named handles on the sequences of a store. The elements of a sequence are nodes, which hold cells of
the store in their turn; a copy of a sequence shares them. The handles behave as those on a shelf of
plain lists do, as long as no element holds one of the sequences that the handles are on.
-/

namespace CellScheme

/-- A store and named handles on its sequences. -/
structure SequenceTable where
  store : Store
  handles : Named Handle

namespace SequenceTable

def find (u : SequenceTable) (name : String) : Handle :=
  (u.handles.find? name).getD none

def bind (u : SequenceTable) (name : String) (r : Store × Handle) : SequenceTable :=
  ⟨r.1, u.handles.insert name r.2⟩

def make (st : Store) (xs : List Node) : Store × Handle :=
  let (st, c) := st.allocSeq xs
  (st, some c)

def share (st : Store) : Handle → Store × Handle
  | none => (st, none)
  | some c => (st.share (.list c), some c)

def own (st : Store) : Handle → Store × Handle
  | none => make st []
  | some c =>
    let (st, c) := st.ownSeq c
    (st, some c)

def append (st : Store) (h : Handle) (xs : List Node) : Store × Handle :=
  match own st h with
  | (st, none) => (st, none)
  | (st, some c) => (st.appendSeq c xs, some c)

def release (st : Store) : Handle → Store × Handle
  | none => (st, none)
  | some c => (st.drop (.list c), none)

def step (u : SequenceTable) : HandleStep Node → SequenceTable
  | .make h xs => u.bind h (make u.store xs)
  | .zero h => u.bind h (u.store, none)
  | .share h g => u.bind h (share u.store (u.find g))
  | .alias h g => u.bind h (u.store, u.find g)
  | .append h xs => u.bind h (append u.store (u.find h) xs)
  | .own h => u.bind h (own u.store (u.find h))
  | .release h => u.bind h (release u.store (u.find h))
  | .same h _ => u.bind h (u.store, u.find h)

/-- The handles with the shelf that they are on. -/
def table (u : SequenceTable) : HandleTable Node :=
  ⟨u.store.seqs, u.handles⟩

end SequenceTable

namespace Shelf

variable {α : Type} {base : Nat} {s s' s'' : Shelf α}

/-- The cells have the same contents, and from `base` on the same counts. -/
structure Alike (base : Nat) (s s' : Shelf α) : Prop where
  size : s'.size = s.size
  value : ∀ i, s'.value? i = s.value? i
  holders : ∀ i, base ≤ i → s'.holders i = s.holders i

theorem value?_alloc (s : Shelf α) (v : α) (i : Nat) :
    (s.alloc v).1.value? i = if i = s.size then some v else s.value? i := by
  split
  · rename_i h
    subst h
    exact s.value?_alloc_self v
  · rename_i h
    rcases Nat.lt_or_gt_of_ne h with hlt | hgt
    · exact s.value?_alloc_of_lt v hlt
    · rw [value?_eq_none _ (by rw [size_alloc]; omega), value?_eq_none _ (by omega)]

namespace Alike

theorem refl (base : Nat) (s : Shelf α) : Alike base s s :=
  ⟨rfl, fun _ => rfl, fun _ _ => rfl⟩

theorem trans (h : Alike base s s') (h' : Alike base s' s'') : Alike base s s'' :=
  ⟨h'.size.trans h.size, fun i => (h'.value i).trans (h.value i),
    fun i hi => (h'.holders i hi).trans (h.holders i hi)⟩

/-- A count below the bound makes no difference. -/
theorem of_addHolders {i : Nat} (hi : i < base) (n : Int) : Alike base s (s.addHolders i n) :=
  ⟨s.size_addHolders i n, fun j => s.value?_addHolders i j n,
    fun j hj => s.holders_addHolders_of_ne n (by omega)⟩

theorem alloc (h : Alike base s s') (v : α) : Alike base (s.alloc v).1 (s'.alloc v).1 := by
  refine ⟨by simp [h.size], fun i => ?_, fun i hi => ?_⟩
  · rw [value?_alloc, value?_alloc, h.size, h.value]
  · by_cases heq : i = s.size
    · have one := s'.holders_alloc_self v
      rw [alloc_snd, h.size] at one
      rw [heq, one]
      exact (s.holders_alloc_self v).symm
    · rw [s'.holders_alloc_of_ne v (h.size ▸ heq), s.holders_alloc_of_ne v heq, h.holders i hi]

theorem release (h : Alike base s s') {i : Nat} (hi : i < s.size) :
    Alike base (s.release i) (s'.release i) := by
  refine ⟨by simp [Shelf.release, h.size], fun j => by simp [Shelf.release, h.value],
    fun j hj => ?_⟩
  rw [Shelf.release, Shelf.release, s'.holders_addHolders _ (h.size ▸ hi) j,
    s.holders_addHolders _ hi j, h.holders j hj]

theorem edit (h : Alike base s s') (i : Nat) (f : α → α) :
    Alike base (s.edit i f) (s'.edit i f) := by
  refine ⟨by simp [h.size], fun j => ?_, fun j hj => by simp [h.holders j hj]⟩
  by_cases heq : i = j
  · subst heq
    rw [value?_edit_self, value?_edit_self, h.value]
  · rw [s'.value?_edit_of_ne f heq, s.value?_edit_of_ne f heq, h.value]

end Alike

end Shelf

/-- Counts below those that the handles need may differ. -/
theorem HandleTable.Resembles.congr {α : Type} {s0 : Shelf (List α)} {made : Nat → Nat}
    {t t' : HandleTable α} {c : Copies α} (h : Resembles s0 made t c)
    (shelves : Shelf.Alike s0.size t.shelf t'.shelf) (handles : t'.handles = t.handles) :
    Resembles s0 made t' c where
  base := shelves.size ▸ h.base
  kept i hi := (shelves.value i).trans (h.kept i hi)
  sorted := handles ▸ h.sorted
  reads name := by
    rw [handles]
    exact (h.reads name).of_spared fun i _ => shelves.value i
  counted i hi := by rw [shelves.holders i hi, handles, h.counted i hi]
  origins := handles ▸ h.origins
  apart := shelves.size ▸ h.apart
  past := shelves.size ▸ h.past

/-- All elements that the step brings in have the property. -/
def HandleStep.All {α : Type} (P : α → Prop) : HandleStep α → Prop
  | .make _ xs | .append _ xs => ∀ x ∈ xs, P x
  | .zero _ | .share _ _ | .alias _ _ | .own _ | .release _ | .same _ _ => True

/-- All elements of all copies have the property. -/
def Copies.All {α : Type} (P : α → Prop) (c : Copies α) : Prop :=
  ∀ name, ∀ x ∈ (c.find name).content, P x

theorem Copies.All.bind {α : Type} {P : α → Prop} {c : Copies α} (h : c.All P) (name : Name)
    {x : Copy α} (hx : ∀ y ∈ x.content, P y) : (c.bind name x).All P := by
  intro other
  rw [Copies.find_bind]
  split
  · exact hx
  · exact h other

theorem Copies.All.step {α : Type} {P : α → Prop} {c : Copies α} (h : c.All P)
    {step : HandleStep α} (hs : step.All P) : (c.step step).All P := by
  cases step with
  | make name xs => exact h.bind name hs
  | share name g | «alias» name g => exact h.bind name (h g)
  | append name xs =>
      refine h.bind name fun x hx => ?_
      rcases List.mem_append.mp hx with hx | hx
      · exact h name x hx
      · exact hs x hx
  | own name | same name _ => exact h.bind name (h name)
  | zero name | release name =>
      refine h.bind name fun x hx => ?_
      cases hx

namespace Store

/-- A node whose cells all exist. -/
def Covers (st : Store) (x : Node) : Prop :=
  ∀ k ∈ x.cells, st.Allocated k

variable {st0 st : Store} {xs : List Node}

theorem alike_share {x : Node} (h : st0.Covers x) :
    Shelf.Alike st0.seqs.size st.seqs (st.share x).seqs := by
  cases x with
  | list c => exact .of_addHolders (h (.seq c) (by simp [Node.cells])) 1
  | lambda b p k => exact .of_addHolders (h (.seq b) (by simp [Node.cells])) 1
  | int _ | bool _ | symbol _ | quote _ | builtin _ => exact .refl _ _

theorem alike_shareAll (h : ∀ x ∈ xs, st0.Covers x) :
    Shelf.Alike st0.seqs.size st.seqs (st.shareAll xs).seqs := by
  induction xs generalizing st with
  | nil => exact .refl _ _
  | cons x xs ih =>
      have rest : Shelf.Alike _ (st.share x).seqs ((st.share x).shareAll xs).seqs :=
        ih fun y hy => h y (by simp [hy])
      exact (alike_share (h x (by simp))).trans rest

end Store

namespace SequenceTable

variable {st0 st : Store} {xs : List Node}

theorem share_eq (st : Store) (g : Handle) :
    share st g =
      ({ st with seqs := (Handle.share st.seqs g).1 }, (Handle.share st.seqs g).2) := by
  cases g <;> rfl

theorem release_eq (st : Store) (g : Handle) :
    release st g =
      ({ st with seqs := (Handle.release st.seqs g).1 }, (Handle.release st.seqs g).2) := by
  cases g <;> rfl

theorem own_of_one {c : Nat} (h : st.seqs.holders c = 1) : own st (some c) = (st, some c) := by
  simp [own, Store.ownSeq, h]

/-- Sharing the elements is all that owning a sequence does beside owning its cell. -/
theorem own_alike {old : Handle} (h : Handle.Reads st0.seqs.size st.seqs old xs)
    (hx : ∀ x ∈ xs, st0.Covers x) :
    Shelf.Alike st0.seqs.size (Handle.own st.seqs old).1 (own st old).1.seqs ∧
      (own st old).2 = (Handle.own st.seqs old).2 := by
  cases h with
  | zero => exact ⟨.refl _ _, rfl⟩
  | @cell c xs hc hv =>
      by_cases one : st.seqs.holders c = 1
      · rw [own_of_one one, Handle.own_of_one one]
        exact ⟨.refl _ _, rfl⟩
      · have shared : Shelf.Alike st0.seqs.size st.seqs (st.shareAll xs).seqs :=
          Store.alike_shareAll hx
        have copied : (st.shareAll xs).seqs.own c = ((st.shareAll xs).seqs.release c).alloc xs :=
          Shelf.own_of_holders_ne_one _ ((shared.value c).trans hv) (by rwa [shared.holders c hc])
        have elements : st.elements c = xs := by simp [Store.elements, hv]
        rw [Handle.own_of_ne_one hv one]
        simp only [own, Store.ownSeq, one, if_false, elements, copied, Handle.make,
          Shelf.alloc_snd]
        refine ⟨(shared.release (Handle.lt_of_value? hv)).alloc xs, ?_⟩
        simp [Shelf.release, shared.size]

theorem append_alike {old : Handle} (h : Handle.Reads st0.seqs.size st.seqs old xs)
    (hx : ∀ x ∈ xs, st0.Covers x) (ys : List Node) :
    Shelf.Alike st0.seqs.size (Handle.append st.seqs old ys).1 (append st old ys).1.seqs ∧
      (append st old ys).2 = (Handle.append st.seqs old ys).2 := by
  obtain ⟨alike, same⟩ := own_alike h hx
  unfold append Handle.append
  generalize own st old = r at *
  generalize Handle.own st.seqs old = q at *
  obtain ⟨st', g⟩ := r
  obtain ⟨s', g'⟩ := q
  obtain rfl : g = g' := same
  cases g with
  | none => exact ⟨alike, rfl⟩
  | some i => exact ⟨alike.edit i (· ++ ys), rfl⟩

variable {made : Nat → Nat} {u : SequenceTable} {c : Copies Node}

/-- A step on sequences is the step on plain lists, up to the counts of older cells. -/
theorem step_alike (h : u.table.Resembles st0.seqs made c) (old : c.All st0.Covers)
    (step : HandleStep Node) :
    Shelf.Alike st0.seqs.size (u.table.step step).shelf (u.step step).table.shelf ∧
      (u.step step).table.handles = (u.table.step step).handles := by
  have bound : ∀ (name : String) {q : Shelf (List Node) × Handle} {r : Store × Handle},
      Shelf.Alike st0.seqs.size q.1 r.1.seqs ∧ r.2 = q.2 →
        Shelf.Alike st0.seqs.size (u.table.bind name q).shelf (u.bind name r).table.shelf ∧
          (u.bind name r).table.handles = (u.table.bind name q).handles :=
    fun name _ _ ⟨alike, same⟩ => ⟨alike, congrArg (u.handles.insert name) same⟩
  cases step with
  | make name xs | zero name | «alias» name g | same name g => exact ⟨.refl _ _, rfl⟩
  | share name g =>
      refine bound name ?_
      rw [share_eq]
      exact ⟨.refl _ _, rfl⟩
  | release name =>
      refine bound name ?_
      rw [release_eq]
      exact ⟨.refl _ _, rfl⟩
  | own name => exact bound name (own_alike (h.reads_find name) (old name))
  | append name xs => exact bound name (append_alike (h.reads_find name) (old name) xs)

theorem own_others (st : Store) (old : Handle) : ∃ xs,
    (own st old).1.nodes = (st.shareAll xs).nodes ∧
      (own st old).1.names = (st.shareAll xs).names := by
  cases old with
  | none => exact ⟨[], rfl, rfl⟩
  | some c =>
      by_cases one : st.seqs.holders c = 1
      · exact ⟨[], by rw [own_of_one one]; exact ⟨rfl, rfl⟩⟩
      · exact ⟨st.elements c, by simp [own, Store.ownSeq, one]⟩

theorem append_others (st : Store) (old : Handle) (ys : List Node) : ∃ xs,
    (append st old ys).1.nodes = (st.shareAll xs).nodes ∧
      (append st old ys).1.names = (st.shareAll xs).names := by
  obtain ⟨xs, others⟩ := own_others st old
  refine ⟨xs, ?_⟩
  unfold append
  generalize own st old = r at *
  obtain ⟨st', g⟩ := r
  cases g with
  | none => exact others
  | some i => exact others

theorem step_others (u : SequenceTable) (step : HandleStep Node) : ∃ xs,
    (u.step step).store.nodes = (u.store.shareAll xs).nodes ∧
      (u.step step).store.names = (u.store.shareAll xs).names := by
  cases step with
  | make name xs | zero name | «alias» name g | same name g => exact ⟨[], rfl, rfl⟩
  | share name g =>
      rw [step, share_eq]
      exact ⟨[], rfl, rfl⟩
  | release name =>
      rw [step, release_eq]
      exact ⟨[], rfl, rfl⟩
  | own name => exact own_others u.store (u.find name)
  | append name xs => exact append_others u.store (u.find name) xs

/-- The cells that were there before the handles keep their contents. -/
theorem step_extends (e : st0.Extends u.store) (step : HandleStep Node)
    (h : (u.step step).table.Resembles st0.seqs made c) : st0.Extends (u.step step).store := by
  obtain ⟨xs, nodes, names⟩ := u.step_others step
  have shared : st0.Extends (u.store.shareAll xs) := e.trans (Store.extends_shareAll _ _)
  refine ⟨?_, ?_⟩
  · rintro (i | i | i) hi
    · show i < (u.step step).store.nodes.size
      rw [nodes]
      exact shared.allocated (.node i) hi
    · exact hi.trans_le h.base
    · show i < (u.step step).store.names.size
      rw [names]
      exact shared.allocated (.names i) hi
  · rintro (i | i | i) hi
    · show (u.step step).store.nodes.value? i = _
      rw [nodes]
      exact shared.agree (.node i) hi
    · exact h.kept i hi
    · show (u.step step).store.names.value? i = _
      rw [names]
      exact shared.agree (.names i) hi

theorem step_resembles (h : u.table.Resembles st0.seqs made c) (old : c.All st0.Covers)
    {step : HandleStep Node} (admitted : c.Admits step) :
    (u.step step).table.Resembles st0.seqs (u.table.dated made c.clock) (c.step step) := by
  obtain ⟨shelves, handles⟩ := step_alike h old step
  exact (h.step admitted).congr shelves handles

theorem run_resembles (h : u.table.Resembles st0.seqs made c) (e : st0.Extends u.store)
    (old : c.All st0.Covers) {steps : List (HandleStep Node)}
    (covered : ∀ step ∈ steps, step.All st0.Covers) (careful : c.Careful steps) :
    (∃ made', (steps.foldl SequenceTable.step u).table.Resembles st0.seqs made'
      (steps.foldl Copies.step c)) ∧ st0.Extends (steps.foldl SequenceTable.step u).store := by
  induction steps generalizing made u c with
  | nil => exact ⟨⟨made, h⟩, e⟩
  | cons step steps ih =>
      have next := step_resembles h old careful.1
      refine ih next (step_extends e step next) (old.step (covered step (by simp))) ?_ careful.2
      exact fun s hs => covered s (by simp [hs])

theorem step_inPlace (u : SequenceTable) {h : String}
    (one : (u.table.find h).refs u.table.shelf = 1) :
    (u.step (.own h)).table.find h = u.table.find h ∧
      ∀ xs, (u.step (.append h xs)).table.find h = u.table.find h := by
  obtain ⟨i, hi, holder⟩ := HandleTable.eq_some_of_refs one
  have found : u.find h = some i := hi
  have owned : own u.store (some i) = _ := own_of_one holder
  have bound : ∀ r, (u.bind h r).table.find h = r.2 := fun r =>
    HandleTable.find_bind u.table h (r.1.seqs, r.2)
  refine ⟨?_, fun xs => ?_⟩
  · rw [step, bound, found, owned, hi]
  · rw [step, bound, found, append, owned, hi]

end SequenceTable

/-- Handles behave as if each owned a copy of what it reads. This holds after every careful run, and
so after every step of one: for plain lists of any elements, and for the sequences of a store, whose
elements may hold any cells that the store had before. No count exceeds the number of handles, so a
counter of fixed width counts right as long as this number fits it. -/
theorem handles_as_copies :
    (∀ (α : Type) (steps : List (HandleStep α)), Copies.empty.Careful steps →
      let t := steps.foldl HandleTable.step .empty
      t.Behaves t.step (steps.foldl Copies.step .empty) ∧
        ∀ h, (t.find h).refs t.shelf ≤ t.handles.size) ∧
    ∀ (st : Store) (steps : List (HandleStep Node)), (∀ step ∈ steps, step.All st.Covers) →
      Copies.empty.Careful steps →
        let u := steps.foldl SequenceTable.step ⟨st, .empty⟩
        u.table.Behaves (fun step => (u.step step).table) (steps.foldl Copies.step .empty) ∧
          (∀ h, (u.table.find h).refs u.table.shelf ≤ u.table.handles.size) ∧
          st.Extends u.store := by
  refine ⟨fun α steps careful => ?_, fun st steps covered careful => ?_⟩
  · obtain ⟨made, resembles⟩ := (HandleTable.resembles_start Shelf.empty).run careful
    have behaves := resembles.behaves fun h one => HandleTable.step_inPlace _ one
    exact ⟨behaves, behaves.refs_le⟩
  · intro u
    have start : (SequenceTable.table ⟨st, .empty⟩).Resembles st.seqs id Copies.empty :=
      HandleTable.resembles_start st.seqs
    have bare : (Copies.empty : Copies Node).All st.Covers := fun name x hx => by cases hx
    obtain ⟨⟨made, resembles⟩, kept⟩ :=
      SequenceTable.run_resembles start (Store.Extends.refl st) bare covered careful
    have behaves : u.table.Behaves (fun step => (u.step step).table) _ :=
      resembles.behaves fun h one => SequenceTable.step_inPlace u one
    exact ⟨behaves, behaves.refs_le, kept⟩

/-- Names of parameters, and a sequence with a list in it that a copy shares. -/
theorem handles_as_copies_shared :
    let names : List (HandleStep Name) :=
      [.make "p" ["x"], .share "q" "p", .append "q" ["y"], .own "p", .release "q"]
    let t := names.foldl HandleTable.step .empty
    let st := (Store.empty.makeList [.int 1]).1
    let nodes : List (HandleStep Node) :=
      [.make "a" [.list 0], .share "b" "a", .append "b" [.int 2], .release "a", .own "a"]
    let u := nodes.foldl SequenceTable.step ⟨st, .empty⟩
    (Copies.empty.Careful names ∧ (t.find "p").content t.shelf = ["x"] ∧
      (t.find "p").refs t.shelf = 1 ∧ (t.find "q").refs t.shelf = 0) ∧
    (∀ step ∈ nodes, step.All st.Covers) ∧ Copies.empty.Careful nodes ∧
      (u.table.find "a").content u.table.shelf = [] ∧
      (u.table.find "b").content u.table.shelf = [.list 0, .int 2] ∧
      u.table.verdict? (.same "a" "b") ≠ some true := by
  intro names t st nodes u
  have spelled : Copies.empty.Careful names := by decide +kernel
  obtain ⟨plain, -⟩ := handles_as_copies.1 Name names spelled
  have covered : ∀ step ∈ nodes, step.All st.Covers := by
    simp [nodes, HandleStep.All, Store.Covers, Node.cells, st, Store.makeList, Store.allocSeq,
      Store.Allocated, Store.empty, Shelf.empty, Shelf.size, Shelf.alloc]
  have careful : Copies.empty.Careful nodes := by decide +kernel
  obtain ⟨behaves, -⟩ := handles_as_copies.2 st nodes covered careful
  refine ⟨⟨spelled, ?_, ?_, ?_⟩, covered, careful, ?_, ?_, ?_⟩
  · exact (plain.content "p").trans (by decide +kernel)
  · exact (plain.refs "p").trans (by decide +kernel)
  · exact plain.zero "q" (by decide +kernel)
  · exact (behaves.content "a").trans (by decide +kernel)
  · exact (behaves.content "b").trans (by decide +kernel)
  · rw [ne_eq, behaves.same]
    rintro ⟨made, ha, hb⟩
    have differ : ((nodes.foldl Copies.step .empty).find "a").origin ≠
        ((nodes.foldl Copies.step .empty).find "b").origin := by decide +kernel
    exact differ (ha.trans hb.symm)

/-- A handle that is copied uncounted does not own what it reads. -/
example :
    let t := [.make "a" [1], .alias "b" "a", .append "b" [2]].foldl HandleTable.step .empty
    (t.find "a").content t.shelf = [1, 2] := by
  decide +kernel

end CellScheme
