import CellScheme.Proofs.Host.Steps

/-!
All that a host may do. Besides its steps it makes nodes around nodes that it has, stores what it
makes in the lists of its handles, and registers builtins. What is stored may be a clone of any
handle, of the edited list itself or of a list around it too. The program around the host may also
go on with a node that a failed call has spent; as long as it does not, the counts stay right.
-/

namespace CellScheme

open Store (Grown)

/-- How a host makes a node: a tree in new cells, a clone of what a handle is on, or new cells
around nodes that are made. -/
inductive Recipe where
  | tree (d : Datum)
  | clone (source : String)
  | quote (r : Recipe)
  | list (rs : List Recipe)
  | lambda (params : List Name) (body : Recipe)

namespace Recipe

mutual
def make (find : String → Node) (st : Store) : Recipe → Store × Node
  | .tree d => st.build d
  | .clone g => (st.share (find g), find g)
  | .quote r =>
    let (st, x) := make find st r
    st.makeQuote x
  | .list rs =>
    let (st, xs) := makeSeq find st rs
    st.makeList xs
  | .lambda params r =>
    let (st, x) := make find st r
    st.makeLambda [] params x
termination_by structural r => r

def makeSeq (find : String → Node) (st : Store) : List Recipe → Store × List Node
  | [] => (st, [])
  | r :: rs =>
    let (st, x) := make find st r
    let (st, xs) := makeSeq find st rs
    (st, x :: xs)
termination_by structural rs => rs
end

mutual
def view (find : String → Datum) : Recipe → Datum
  | .tree d => d
  | .clone g => find g
  | .quote r => .quote (view find r)
  | .list rs => .list (viewSeq find rs)
  | .lambda params r => .lambda [] params (view find r)
termination_by structural r => r

def viewSeq (find : String → Datum) : List Recipe → List Datum
  | [] => []
  | r :: rs => view find r :: viewSeq find rs
termination_by structural rs => rs
end

mutual
/-- The trees that come from outside. -/
def trees : Recipe → List Datum
  | .tree d => [d]
  | .clone _ => []
  | .quote r => trees r
  | .list rs => treesSeq rs
  | .lambda _ r => trees r
termination_by structural r => r

def treesSeq : List Recipe → List Datum
  | [] => []
  | r :: rs => trees r ++ treesSeq rs
termination_by structural rs => rs
end

mutual
/-- The parameters of the procedures that are made around nodes. -/
def params : Recipe → List (List Name)
  | .tree _ | .clone _ => []
  | .quote r => params r
  | .list rs => paramsSeq rs
  | .lambda ps r => ps :: params r
termination_by structural r => r

def paramsSeq : List Recipe → List (List Name)
  | [] => []
  | r :: rs => params r ++ paramsSeq rs
termination_by structural rs => rs
end

variable {find : String → Node} {aside : Set Cell}

mutual
theorem made {st : Store} {R : Multiset Cell} (h : st.Sound aside R)
    (hf : ∀ g, st.Visible R (find g)) (r : Recipe) :
    Grown st (r.make find st).1 aside (r.make find st).2.cells R ∧
      (r.make find st).1.view (r.make find st).2 = r.view fun g => st.view (find g) := by
  match r with
  | .tree d => exact h.build d
  | .clone g =>
      have g₁ := h.share (hf g)
      exact ⟨g₁, g₁.view_eq h (hf g) .root⟩
  | .quote r =>
      obtain ⟨g₁, hv⟩ := made h hf r
      have hq := g₁.sound.view_makeQuote
      rw [hv] at hq
      exact ⟨g₁.trans g₁.sound.makeQuote, hq⟩
  | .list rs =>
      obtain ⟨g₁, hv⟩ := madeSeq h hf rs
      have hl := g₁.sound.view_makeList
      rw [hv] at hl
      exact ⟨g₁.trans g₁.sound.makeList, hl⟩
  | .lambda params r =>
      obtain ⟨g₁, hv⟩ := made h hf r
      have h₁ : (r.make find st).1.Sound aside (cellsOf [] + ((r.make find st).2.cells + R)) :=
        g₁.sound.reorder (zero_add _).symm
      have hl := h₁.view_makeLambda params
      rw [hv] at hl
      exact ⟨g₁.trans (h₁.makeLambda params), hl⟩
termination_by structural r

theorem madeSeq {st : Store} {R : Multiset Cell} (h : st.Sound aside R)
    (hf : ∀ g, st.Visible R (find g)) (rs : List Recipe) :
    Grown st (makeSeq find st rs).1 aside (cellsOf (makeSeq find st rs).2) R ∧
      (makeSeq find st rs).1.viewSeq (makeSeq find st rs).2 =
        viewSeq (fun g => st.view (find g)) rs := by
  match rs with
  | [] => exact ⟨.refl (h.reorder (zero_add _).symm), rfl⟩
  | r :: rs =>
      obtain ⟨g₁, hv⟩ := made h hf r
      -- The handles are on the same trees for the rest of the nodes.
      have hf₁ : ∀ g, (r.make find st).1.Visible ((r.make find st).2.cells + R) (find g) :=
        fun g => g₁.visible h (Multiset.le_add_left _ _) (hf g)
      have same : (fun g => (r.make find st).1.view (find g)) = fun g => st.view (find g) := by
        funext g
        exact g₁.view_eq h (hf g) (hf₁ g)
      obtain ⟨g₂, hv₂⟩ := madeSeq g₁.sound hf₁ rs
      have hx := g₂.view_eq g₁.sound (.root (x := (r.make find st).2))
        (g₂.visible g₁.sound (Multiset.le_add_left _ _) .root)
      rw [same] at hv₂
      refine ⟨⟨g₂.sound.reorder ?_, g₁.ext.trans g₂.ext⟩, ?_⟩
      · rw [makeSeq, cellsOf_cons]
        abel
      · rw [makeSeq, viewSeq]
        exact congrArg₂ List.cons (hx.trans hv) hv₂
termination_by structural rs
end

end Recipe

/-- What a host does with its machine and its nodes. -/
inductive HostOp where
  | step (s : HostStep)
  | make (h : String) (r : Recipe)
  /-- Store a made node at the end of the list of a handle. -/
  | append (h : String) (r : Recipe)
  /-- Store a made node in the place of an element. -/
  | set (h : String) (i : Nat) (r : Recipe)
  | register (name : Name) (b : Builtin)

/-- The handle that an operation writes or gives up. -/
def HostOp.target : HostOp → Option Name
  | .step s => s.target
  | .make h _ | .append h _ | .set h _ _ => some h
  | .register _ _ => none

/-- The global name that an operation binds or unbinds without defining it. -/
def HostOp.rebound : HostOp → Option Name
  | .step s => s.rebound
  | .register name _ => some name
  | .make _ _ | .append _ _ | .set _ _ _ => none

/-- What a program does with a host: an operation, or it takes the spent node that a failed call has
left under a handle back into use. -/
inductive HostUse where
  | op (o : HostOp)
  | reuse (h : String)

namespace Host

def storeMade (h : Host) (t : String) (r : Recipe) (f : Node → List Node → List Node) : Host :=
  let (st, x) := r.make h.find h.machine.store
  let w := Workbench.editList ⟨h.machine.store, h.handles⟩ st t (f x)
  h.next { h.machine with store := w.store } w.handles

def perform (h : Host) : HostOp → Host
  | .step s => h.step s
  | .make t r =>
    let (st, x) := r.make h.find h.machine.store
    h.next { h.machine with store := st } (h.handles.insert t x)
  | .append t r => h.storeMade t r fun x xs => xs ++ [x]
  | .set t i r => h.storeMade t r fun x xs => xs.set i x
  | .register name b => h.next (h.machine.addBuiltin name b) h.handles

def performAll (h : Host) (ops : List HostOp) : Host :=
  ops.foldl perform h

variable {h : Host}

theorem Sound.made (hs : h.Sound) (r : Recipe) :
    Grown h.machine.store (r.make h.find h.machine.store).1 ∅
        (r.make h.find h.machine.store).2.cells h.roots ∧
      (r.make h.find h.machine.store).1.view (r.make h.find h.machine.store).2 =
        r.view fun g => h.machine.view (h.find g) :=
  Recipe.made hs.store h.visible_find r

theorem Sound.make (hs : h.Sound) (t : String) (r : Recipe) :
    Does (some ↑t) none h (h.perform (.make t r)) :=
  hs.bind t (hs.made r).1

theorem Sound.storeMade (hs : h.Sound) (t : String) (r : Recipe)
    {f : Node → List Node → List Node}
    (hf : ∀ x xs, cellsOf (f x xs) ≤ x.cells + cellsOf xs) :
    Does (some ↑t) none h (h.storeMade t r f) :=
  hs.editList t (hs.made r).1 (hf _)

theorem Sound.setTree (hs : h.Sound) (name : Name) (d : Datum) :
    Does none (some name) h (h.next { h.machine with
      store := (h.machine.store.build d).1
      scopes := h.machine.scopes.setGlobal name (h.machine.store.build d).2 } h.handles) := by
  obtain ⟨g, _⟩ := hs.store.build d
  refine .of_global (g.sound.forget ?_) hs (.of_extends hs.store g.ext) rfl (fun n hn => ?_) rfl
  · rw [roots, add_left_comm]
    exact add_le_add le_rfl (h.machine.scopes.cells_setGlobal_le name _)
  · exact handles_insert _ fun e => hn (Option.some.inj e)

theorem Sound.leaves (hs : h.Sound) (op : HostOp) :
    Leaves op.target op.rebound h (h.perform op) := by
  cases op with
  | step s => exact (hs.does s).toLeaves
  | make t r => exact (hs.make t r).toLeaves
  | append t r => exact (hs.storeMade t r fun x xs => cellsOf_concat_le xs x).toLeaves
  | set t i r => exact (hs.storeMade t r fun x xs => cellsOf_set_le xs i x).toLeaves
  | register name b =>
      have d := hs.setTree name (Machine.builtinDatum name b.arity)
      exact ⟨⟨d.sound.store, d.sound.sorted⟩, d.handles, d.keeps, d.frames, d.others⟩

theorem Sound.perform (hs : h.Sound) (op : HostOp) : (h.perform op).Sound :=
  (hs.leaves op).sound

theorem Sound.performAll (hs : h.Sound) (ops : List HostOp) : (h.performAll ops).Sound := by
  induction ops generalizing h with
  | nil => exact hs
  | cons op ops ih => exact ih (hs.perform op)

/-- The spent node under a handle is an ordinary node of the host again. -/
def reuse (h : Host) (t : String) : Host :=
  match h.spent.find? t with
  | some x => ⟨h.machine, h.handles.insert t x, h.spent.erase t⟩
  | none => h

def use (h : Host) : HostUse → Host
  | .op o => h.perform o
  | .reuse t => h.reuse t

def useAll (h : Host) (uses : List HostUse) : Host :=
  uses.foldl use h

theorem Sound.useAll (hs : h.Sound) {uses : List HostUse} (hu : ∀ t, .reuse t ∉ uses) :
    (h.useAll uses).Sound := by
  induction uses generalizing h with
  | nil => exact hs
  | cons u uses ih =>
      refine ih ?_ fun t ht => hu t (List.mem_cons_of_mem _ ht)
      cases u with
      | op o => exact hs.perform o
      | reuse t => exact absurd (List.mem_cons_self ..) (hu t)

end Host

end CellScheme
