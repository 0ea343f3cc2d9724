import CellScheme.Proofs.Host.Evaluation
import CellScheme.Store.Equality

/-!
No cell reaches itself. Storage is edited in place, and what is put into a list may be a clone of
that list or of one around it; the counts then make the edit go to a copy. So the parts of a node
never lead back to it, and whatever goes down from a node to its parts comes to an end: reading its
tree, from which it is printed, translated and written to an image, and comparing it with another.
-/

namespace CellScheme

namespace Store

variable {st : Store}

/-- Structural equality, with an answer of its own where the gas has run out. -/
def sameDataOr (st : Store) (out : Bool) : Nat → Node → Node → Bool
  | 0, _, _ => out
  | gas + 1, x, y =>
    match x, y with
    | .int a, .int b => a == b
    | .bool a, .bool b => a == b
    | .symbol a, .symbol b => a == b
    | .builtin a, .builtin b => a == b
    | .quote c, .quote d => c == d || st.sameDataOr out gas (st.payload c) (st.payload d)
    | .list c, .list d =>
      c == d || ((st.elements c).length == (st.elements d).length &&
        ((st.elements c).zip (st.elements d)).all fun (x, y) => st.sameDataOr out gas x y)
    | .lambda b p k, .lambda b' p' k' => st.sameProcedure b p k b' p' k'
    | _, _ => false

theorem sameDataOr_false (st : Store) (gas : Nat) (x y : Node) :
    st.sameDataOr false gas x y = st.sameData gas x y := by
  induction gas generalizing x y with
  | zero => rfl
  | succ gas ih =>
      have parts : (fun p : Node × Node => st.sameDataOr false gas p.1 p.2) =
          fun p => st.sameData gas p.1 p.2 := by
        funext p
        exact ih p.1 p.2
      cases x with
      | int _ | bool _ | symbol _ | builtin _ | lambda _ _ _ => cases y <;> rfl
      | quote c =>
          cases y with
          | quote d => simp only [sameDataOr, sameData, ih]
          | _ => rfl
      | list c =>
          cases y with
          | list d => simp only [sameDataOr, sameData, parts]
          | _ => rfl

theorem Grounded.sameDataOr_eq (h : st.Grounded) {x : Node} (hx : ∀ k ∈ x.cells, st.Allocated k)
    (y : Node) (out out' : Bool) {gas gas' : Nat} (hgas : (st.reachSet x).card ≤ gas)
    (hgas' : (st.reachSet x).card ≤ gas') :
    st.sameDataOr out (gas + 1) x y = st.sameDataOr out' (gas' + 1) x y := by
  induction gas generalizing x y gas' with
  | zero =>
      have none : ∀ k ∈ x.cells, ¬ k.hasParts := by
        intro k hk hp
        have hlt := h.card_reachSet_lt (y := .bool true) hk (hx k hk) hp (Multiset.zero_le _)
        omega
      cases x with
      | int _ | bool _ | symbol _ | builtin _ | lambda _ _ _ => cases y <;> rfl
      | quote c => exact (none (.node c) (by simp [Node.cells]) trivial).elim
      | list c => exact (none (.seq c) (by simp [Node.cells]) trivial).elim
  | succ gas ih =>
      have part : ∀ k ∈ x.cells, k.hasParts → ∀ {z : Node}, z.cells ≤ st.inside k → ∀ y,
          st.sameDataOr out (gas + 1) z y = st.sameDataOr out' gas' z y := by
        intro k hk hp z hz y
        have hlt := h.card_reachSet_lt hk (hx k hk) hp hz
        obtain ⟨n, rfl⟩ : ∃ n, gas' = n + 1 := ⟨gas' - 1, by omega⟩
        exact ih (fun j hj => h.inside_allocated (Multiset.mem_of_le hz hj)) y (by omega) (by omega)
      cases x with
      | int _ | bool _ | symbol _ | builtin _ | lambda _ _ _ => cases y <;> rfl
      | quote c =>
          cases y with
          | quote d =>
              have hc := part (.node c) (by simp [Node.cells]) trivial (z := st.payload c) le_rfl
              rw [sameDataOr, sameDataOr, hc]
          | _ => rfl
      | list c =>
          cases y with
          | list d =>
              have hc : ∀ z ∈ st.elements c, ∀ y,
                  st.sameDataOr out (gas + 1) z y = st.sameDataOr out' gas' z y :=
                fun z hz => part (.seq c) (by simp [Node.cells]) trivial (cells_le_cellsOf hz)
              have all : ((st.elements c).zip (st.elements d)).all
                  (fun (x, y) => st.sameDataOr out (gas + 1) x y) =
                  ((st.elements c).zip (st.elements d)).all
                    fun (x, y) => st.sameDataOr out' gas' x y := by
                rw [Bool.eq_iff_iff, List.all_eq_true, List.all_eq_true]
                refine forall₂_congr fun p hp => ?_
                exact Bool.eq_iff_iff.mp (hc p.1 (List.of_mem_zip hp).1 p.2)
              rw [sameDataOr, sameDataOr, all]
          | _ => rfl

structure Unknotted (st : Store) : Prop where
  acyclic : ∀ k, ¬ Reach st (st.inside k) k
  readable : ∀ x : Node, (∀ k ∈ x.cells, st.Allocated k) → ∀ gas ≥ st.gas,
    st.view? gas x = some (st.view x)
  comparable : ∀ x : Node, (∀ k ∈ x.cells, st.Allocated k) → ∀ y out, ∀ gas ≥ st.gas,
    st.sameDataOr out gas x y = st.sameData st.gas x y

theorem Grounded.unknotted (h : st.Grounded) : st.Unknotted := by
  refine ⟨h.not_reach, fun x hx gas hgas => view?_mono hgas (h.view?_eq hx), ?_⟩
  intro x hx y out gas hgas
  have enough := st.card_reachSet_le x
  obtain ⟨n, rfl⟩ : ∃ n, gas = n + 1 := ⟨gas - 1, by rw [Store.gas] at hgas; omega⟩
  rw [← sameDataOr_false]
  refine h.sameDataOr_eq hx y out false ?_ enough
  rw [Store.gas] at hgas
  omega

end Store

namespace Host

/-- Over everything that a host does without going on with a spent node, with clones put into any
list, no cell comes to reach itself, and what handles and names lead to is there. The store that a
failed evaluation stops with has no cycle either, and the node that it leaves, spent or not, can be
read. -/
theorem storage_acyclic (table : Named Builtin) (limit : Int) (tracing : Bool)
    (before after : List String) (uses : List HostUse) (hu : ∀ t, .reuse t ∉ uses) :
    let h := (start table limit tracing before after).useAll uses
    h.machine.store.Unknotted ∧
      (∀ k, Store.Reach h.machine.store h.roots k → h.machine.store.Allocated k) ∧
      ∀ g x, h.handles.find? g = some x → ∀ fuel left e m,
        evaluate fuel x h.machine = .error (left, e) m →
          m.store.Unknotted ∧ ∀ k ∈ left.cells, m.store.Allocated k := by
  intro h
  have hs : h.Sound := (sound_start table limit tracing before after).useAll hu
  refine ⟨hs.store.grounded.unknotted, fun k hk => hs.store.allocated hk, ?_⟩
  intro g x hx fuel left e m hr
  have hm := hs.consumed False.elim hx
  have hf := evaluate_faithful fuel hm
  rw [Act.settle_error hr] at hf
  obtain ⟨N, o, _⟩ := hf
  exact ⟨o.sound.store.grounded.unknotted, fun k hk => (evaluate_leaves fuel hm hr k hk).allocated⟩

theorem storage_acyclic_self :
    let uses : List HostUse := [.op (.make "a" (.tree (.list [.int 1]))),
      .op (.append "a" (.clone "a")), .op (.set "a" 0 (.list [.clone "a"])),
      .op (.make "b" (.tree (.list [.symbol "f"])))]
    let h := (start .empty 0 false [] []).useAll uses
    (∀ t, .reuse t ∉ uses) ∧
    (∀ gas ≥ h.machine.store.gas, h.machine.store.view? gas (h.find "a") =
      some (.list [.list [.list [.int 1, .list [.int 1]]], .list [.int 1]])) ∧
    ∃ left e m, evaluate 2 (h.find "b") h.machine = .error (left, e) m ∧ m.store.Unknotted := by
  intro uses h
  have fresh : ∀ t, .reuse t ∉ uses := fun t => by simp [uses]
  obtain ⟨unknotted, reached, failed⟩ := storage_acyclic .empty 0 false [] [] uses fresh
  have hx : ∀ k ∈ (h.find "a").cells, h.machine.store.Allocated k :=
    fun k hk => reached k (h.visible_find "a" k hk)
  refine ⟨fresh, unknotted.readable (h.find "a") hx, _, _, _, rfl, ?_⟩
  exact (failed "b" _ rfl 2 _ _ _ rfl).1

/-- The procedure `g` has `f` among its bound arguments. Each failed call `(f g)` of the same node
takes from the count of the bound arguments of `f`, until it puts `g` there in place. -/
theorem storage_knotted :
    let h := (start .empty 0 false [] []).useAll
      [.op (.step (.evalText 3 "r" "(define f (lambda (x) y))")),
        .op (.step (.evalText 4 "r" "(define g ((lambda (a b) a) f))")),
        .op (.make "n" (.tree (.list [.symbol "f", .symbol "g"]))),
        .op (.step (.evalPlace 3 "n")), .reuse "n", .op (.step (.evalPlace 3 "n")), .reuse "n",
        .op (.step (.evalPlace 3 "n")), .reuse "n", .op (.step (.evalPlace 3 "n"))]
    ∃ k, Store.Reach h.machine.store (h.machine.store.inside k) k := by
  intro h
  refine ⟨.seq 3, .inside (j := .seq 9) (.root ?_) ?_⟩
  · decide +kernel
  · decide +kernel

end Host

end CellScheme
