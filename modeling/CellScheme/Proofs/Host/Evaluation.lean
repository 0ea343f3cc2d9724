import CellScheme.Proofs.Host.Operations

/-!
Evaluation by a host, in every state that its steps lead to: it does what evaluation of trees does,
and it leaves scopes and definitions in order.
-/

namespace CellScheme

open CellScheme.Tree (World)

/-- An outcome on the machine as an outcome on trees. -/
def Tree.seen : EStateM.Result Halt Machine Node → EStateM.Result Halt World Datum
  | .ok v m => .ok (m.view v) (World.of m)
  | .error e m => .error e (World.of m)

theorem Refines.seen_eq {aside : Set Cell} {F : Multiset Cell} {m : Machine}
    {r : EStateM.Result Halt Machine Node} {t : EStateM.Result Halt World Datum}
    (h : Refines True aside F m r t) : Tree.seen r = t := by
  cases r with
  | ok v m' =>
      obtain ⟨_, _, ht⟩ := h
      exact (ht trivial).symm
  | error e m' =>
      obtain ⟨_, _, ht⟩ := h
      exact (ht trivial).symm

namespace Host

variable {h : Host}

def PlainTable (table : Named Builtin) : Prop :=
  ∀ b ∈ table.entries, b.2.native ≠ .identical ∧ b.2.native ≠ .equal

theorem plain_withBuiltins {table : Named Builtin} (hp : PlainTable table) :
    (Machine.withBuiltins table).Plain := by
  refine Machine.withBuiltins_ind (fun name b hb => by cases hb) fun m hm b hb name c hc => ?_
  have hf : (m.addBuiltin b.1 b.2).builtins = m.builtins.insert b.1 b.2 := rfl
  rw [hf, Named.find?_insert] at hc
  split at hc
  · obtain rfl := Option.some.inj hc
    exact hp b hb
  · exact hm name c hc

theorem plain_run {table : Named Builtin} (hp : PlainTable table) (limit : Int) (tracing : Bool)
    (before after : List String) (steps : List HostStep) :
    ((start table limit tracing before after).run steps).machine.Plain := by
  have hb := (sound_start table limit tracing before after).builtins_run steps
  intro name b hf
  rw [hb] at hf
  exact plain_withBuiltins hp name b hf

theorem Sound.consumed (hs : h.Sound) {P : Prop} (hp : P → h.machine.Plain) {n : Name} {x : Node}
    (hx : h.handles.find? n = some x) :
    h.machine.Sound P ∅ x.cells (h.rootsBesides (some n)) :=
  ⟨hs.store.forget (cells_add_rootsBesides_le hx), Multiset.le_add_left _ _, hp⟩

/-- Without the builtins that look at storage, evaluation on shared cells that are edited in place
has the outcome of evaluation on trees, for every amount of fuel: of the node of a handle, in place
or as a copy, of a tree in new cells, and of a text. -/
theorem evaluate_eq_tree (table : Named Builtin) (hp : PlainTable table) (limit : Int)
    (tracing : Bool) (before after : List String) (steps : List HostStep) (fuel : Nat) :
    let h := (start table limit tracing before after).run steps
    (∀ name x, h.handles.find? name = some x →
      Tree.seen (Act.settle (evaluate fuel x) h.machine) =
          Tree.evaluate fuel (h.machine.view x) (World.of h.machine) ∧
        Tree.seen (Machine.eval fuel x h.machine) =
          Tree.evaluate fuel (h.machine.view x) (World.of h.machine)) ∧
      (∀ d, Tree.seen (Machine.evalDatum fuel d h.machine) =
        Tree.evaluate fuel d (World.of h.machine)) ∧
      ∀ text, Tree.seen (Machine.evalText fuel text h.machine) =
        (Tree.ofExcept (Datum.parse text) >>= Tree.evaluate fuel) (World.of h.machine) := by
  intro h
  have hs : h.Sound := (sound_start table limit tracing before after).run steps
  have plain : True → h.machine.Plain := fun _ => plain_run hp limit tracing before after steps
  have hm : h.machine.Sound True ∅ 0 h.roots := ⟨hs.machine.store, hs.machine.scopes, plain⟩
  refine ⟨fun name x hx => ⟨?_, ?_⟩, fun d => ?_, fun text => ?_⟩
  · exact (evaluate_faithful fuel (hs.consumed plain hx)).seen_eq
  · exact (eval_refines fuel hm (visible_handle hx)).seen_eq
  · exact (evalDatum_refines fuel hm d).seen_eq
  · exact (evalText_refines fuel hm text).seen_eq

theorem evaluate_eq_tree_sum :
    let table := Builtin.table [("+", ⟨2, .arith .add⟩)]
    let h := (start table 0 false [] []).run [.work (.build "two" (.int 2)), .define "x" "two"]
    PlainTable table ∧
      Tree.seen (Machine.evalDatum 4 (.list [.symbol "+", .int 1, .symbol "x"]) h.machine) =
        .ok (.int 3) (World.of h.machine) := by
  have plain : PlainTable (Builtin.table [("+", ⟨2, .arith .add⟩)]) := by
    unfold PlainTable
    decide
  have he := (evaluate_eq_tree _ plain 0 false [] []
    [.work (.build "two" (.int 2)), .define "x" "two"] 4).2.1
      (.list [.symbol "+", .int 1, .symbol "x"])
  exact ⟨plain, he.trans rfl⟩

end Host

/-- What evaluation owes to the scopes and to the list of defined names. -/
structure Machine.InOrder (m m' : Machine) : Prop where
  inner : m'.scopes.inner = m.scopes.inner ∧ (World.of m').inner = (World.of m).inner
  bound : ∀ n, ((World.of m).global.find? n).isSome → ((World.of m').global.find? n).isSome
  listed : m.defined <+: m'.defined
  nodup : m.defined.Nodup → m'.defined.Nodup
  added : ∀ n ∈ m'.defined, n ∈ m.defined ∨ ((World.of m').global.find? n).isSome
  others : ∀ n, n ∉ m'.defined → (World.of m').global.find? n = (World.of m).global.find? n

theorem Machine.Outcome.inOrder {P : Prop} {aside : Set Cell} {F X Y N : Multiset Cell}
    {m m' : Machine} (h : m.Sound P aside X F) (o : m.Outcome P aside F m' Y N) :
    m.InOrder m' := by
  have d := o.kept.scopes
  have find (m : Machine) (n : Name) :
      (World.of m).global.find? n = (m.scopes.global.find? n).map m.view :=
    Tree.frameOf_find? m.store m.scopes.global n
  have view {x : Node} (hx : x.cells ≤ m.scopes.cells) : m'.view x = m.view x :=
    h.view_eq o.sound (Multiset.le_add_left _ _) o.kept (.of_le (hx.trans h.scopes))
  refine ⟨⟨d.inner, ?_⟩, fun n hn => ?_, d.listed, d.nodup, fun n hn => ?_, fun n hn => ?_⟩
  · rw [World.of_eq, World.of_eq, d.inner]
    refine List.map_congr_left fun f hf => Tree.frameOf_congr fun x hx => view ?_
    exact (cells_le_cellsOf hx).trans (Scopes.frame_cells_le hf)
  · rw [find, Option.isSome_map] at hn ⊢
    exact d.bound n hn
  · rw [find, Option.isSome_map]
    exact d.added n hn
  · rw [find, find, d.others n hn]
    cases hx : m.scopes.global.find? n with
    | none => rfl
    | some x =>
        have hc := (Frame.cells_of_find? hx).trans m.scopes.global_cells_le
        rw [Option.map_some, Option.map_some, view hc]

theorem Refines.inOrder {P : Prop} {aside : Set Cell} {F X : Multiset Cell} {m : Machine}
    {a : Act Node} {t : EStateM.Result Halt World Datum} (h : m.Sound P aside X F)
    (hr : Refines P aside F m (a m) t) : m.InOrder (m.run a).2 := by
  obtain ⟨_, _, o⟩ := hr.outcome
  exact o.inOrder h

theorem Refines.view_eq {P : Prop} {aside : Set Cell} {F X : Multiset Cell} {m : Machine}
    {a : Act Node} {t : EStateM.Result Halt World Datum} (hr : Refines P aside F m (a m) t)
    (h : m.Sound P aside X F) {y : Node} (hy : m.store.Visible F y) :
    (m.run a).2.view y = m.view y := by
  obtain ⟨_, _, o⟩ := hr.outcome
  exact h.view_eq o.sound (Multiset.le_add_left _ _) o.kept hy

theorem Machine.evalPlace_snd (fuel : Nat) (m : Machine) (x : Node) :
    (m.evalPlace fuel (some x)).2 = (m.run (Act.settle (evaluate fuel x))).2 := by
  cases he : evaluate fuel x m with
  | ok v m' => simp only [evalPlace, run, he, Act.settle_ok he]
  | error e m' => simp only [evalPlace, run, he, Act.settle_error he]

namespace Host

/-- However an evaluation ends, in whatever state a host has reached without going on with a spent
node: the frames above the global one are as before, no global name loses its value, the list of
defined names grows at its end by names that are bound, and global names outside it keep their
trees. -/
theorem evaluation_inOrder (table : Named Builtin) (limit : Int) (tracing : Bool)
    (before after : List String) (uses : List HostUse) (hu : ∀ t, .reuse t ∉ uses) (fuel : Nat) :
    let h := (start table limit tracing before after).useAll uses
    (∀ name x, h.handles.find? name = some x →
      h.machine.InOrder (h.machine.evalPlace fuel (some x)).2) ∧
      ∀ d, h.machine.InOrder (h.machine.run (Machine.evalDatum fuel d)).2 := by
  intro h
  have hs : h.Sound := (sound_start table limit tracing before after).useAll hu
  refine ⟨fun name x hx => ?_, fun d => ?_⟩
  · have hm := hs.consumed False.elim hx
    rw [Machine.evalPlace_snd]
    exact Refines.inOrder hm (evaluate_faithful fuel hm)
  · exact Refines.inOrder hs.machine (evalDatum_refines fuel hs.machine d)

theorem evaluation_inOrder_define :
    let uses : List HostUse := [.op (.step (.push "local" [])),
      .op (.make "a" (.tree (.list [.symbol "define", .symbol "x", .int 1])))]
    let h := (start .empty 0 false [] []).useAll uses
    (∀ t, .reuse t ∉ uses) ∧ h.handles.find? "a" = some (.list 0) ∧
      h.machine.InOrder (h.machine.evalPlace 3 (some (.list 0))).2 := by
  intro uses h
  have fresh : ∀ t, .reuse t ∉ uses := fun t => by simp [uses]
  have found : h.handles.find? "a" = some (.list 0) := by decide
  exact ⟨fresh, found, (evaluation_inOrder .empty 0 false [] [] uses fresh 3).1 "a" _ found⟩

/-- A second evaluation of the spent node of `(car 1)` binds an argument of the global procedure. -/
theorem evaluation_alters_global :
    let h := (start (Builtin.table [("car", ⟨1, .car⟩)]) 0 false [] []).useAll
      [.op (.make "n" (.tree (.list [.symbol "car", .int 1]))), .op (.step (.evalPlace 4 "n")),
        .reuse "n"]
    ∃ x, h.handles.find? "n" = some x ∧
      ¬ h.machine.InOrder (h.machine.evalPlace 4 (some x)).2 := by
  intro h
  refine ⟨.list 2, by decide +kernel, fun ordered => ?_⟩
  have unlisted : Name.ofString "car" ∉ (h.machine.evalPlace 4 (some (.list 2))).2.defined := by
    decide +kernel
  -- The tree has grown by the argument.
  have grown :
      ((World.of (h.machine.evalPlace 4 (some (.list 2))).2).global.find? "car").map sizeOf ≠
        ((World.of h.machine).global.find? "car").map sizeOf := by
    decide +kernel
  exact grown (congrArg (Option.map sizeOf) (ordered.others _ unlisted))

end Host

end CellScheme
