import CellScheme.Proofs.Evaluation.Standing
import CellScheme.Proofs.Host.Depth
import CellScheme.Proofs.Host.Sparing
import CellScheme.Proofs.Lawful.Hidden
import CellScheme.Session

/-!
Evaluation undoes a quote. The procedure that stands for the builtin evaluates its argument in the
frame of its own call, which binds a name that no program can write. So a quoted expression that is
evaluated there ends as it does where the call stands.
-/

namespace CellScheme

open CellScheme.Tree (World)

namespace Tree

def evalCall (e : Datum) : Datum :=
  .list [.symbol "eval", .quote e]

variable {w : World} {e : Datum}

theorem evaluate_below {hidden : Named Datum}
    (hnames : ∀ n : Name, n.Spelled → hidden.find? n = none) (hall : w.All Datum.Worded)
    (hlimit : w.limit ≤ 0) (he : e.Worded) (fuel : Nat) :
    withFrame hidden (evaluate fuel e) w = evaluate fuel e w := by
  have start : Widened hidden w.inner [] w { w with inner := hidden :: w.inner } :=
    ⟨hall, hlimit, rfl, rfl⟩
  have hr := (evaluate_overlooks w.inner hnames fuel).worded he [] _ _ start
  rw [withFrame]
  generalize evaluate fuel e w = r at hr
  generalize evaluate fuel e { w with inner := hidden :: w.inner } = r' at hr
  have pop {v v' : World} (h : Widened hidden w.inner [] v v') :
      { v' with inner := v'.inner.tail } = v := by
    have inner : v.inner = w.inner := h.inner
    rw [h.wide, List.nil_append, List.tail_cons, ← inner]
  cases hr with
  | ok _ h => exact congrArg (EStateM.Result.ok _) (pop h)
  | error e h => exact congrArg (EStateM.Result.error e) (pop h)

theorem bindParams_hidden (arity : Nat) (args : List Datum) {n : Name} (hn : n.Spelled) :
    (bindParams (Machine.builtinParams arity) args).find? n = none := by
  by_contra h
  exact not_spelled_of_mem_builtinParams (mem_of_bindParams h) hn

theorem evaluate_evalCall_of_lt {fuel : Nat} (h : fuel < 2) :
    evaluate fuel (evalCall e) w = .error .starved w := by
  obtain rfl | rfl : fuel = 0 ∨ fuel = 1 := by omega
  · rfl
  · rfl

/-- A call of the builtin with a quoted expression takes two layers more than the expression. -/
theorem evaluate_evalCall (hall : w.All Datum.Worded) (hlimit : w.limit ≤ 0)
    (hname : w.find? "eval" = some (Machine.builtinDatum "eval" 1))
    (hbuiltin : w.builtins.find? "eval" = some ⟨1, .eval⟩) (he : e.Readable) (fuel : Nat) :
    evaluate (fuel + 2) (evalCall e) w = evaluate fuel e w := by
  obtain ⟨v, hv, hunquote⟩ : ∃ v, evaluate (fuel + 1) (.quote e) w = .ok v w ∧ v.unquote = e := by
    refine ⟨if e.needsQuote then .quote e else e, rfl, ?_⟩
    cases he with
    | int _ | bool _ | symbol _ | quote _ | list _ => rfl
  have stands : w.Stands "eval" ⟨1, .eval⟩ := ⟨hname, hbuiltin⟩
  have below : withFrame (bindParams (Machine.builtinParams 1) [v]) (evaluate fuel v.unquote) w =
      evaluate fuel e w := by
    rw [hunquote]
    exact evaluate_below (fun n hn => bindParams_hidden 1 [v] hn) hall hlimit
      (law_worded.readable [] he) fuel
  rw [evalCall, stands.evaluate_enter (by omega) rfl rfl (.cons hv .nil)]
  cases fuel with
  | zero => exact below
  | succ fuel => exact (stands.evaluate_body rfl fuel).trans below

end Tree

/-- Push a frame that binds names to trees in new cells. -/
def Machine.pushTrees (m : Machine) (label : String) (bindings : List (Name × Datum)) : Machine :=
  let (store, f) := Session.bindTrees m.store (.empty label) bindings
  ({ m with store }.push f).1

theorem Session.bindTrees_sound {st : Store} {f : Frame} {F : Multiset Cell}
    (h : st.Sound ∅ (f.cells + F)) (bindings : List (Name × Datum)) :
    let r := bindTrees st f bindings
    r.1.Sound ∅ (r.2.cells + F) ∧ Store.Keeps st r.1 ∅ F ∧
      ∀ d ∈ (Tree.frameOf r.1 r.2).values,
        d ∈ (Tree.frameOf st f).values ∨ d ∈ bindings.map Prod.snd := by
  induction bindings generalizing st f with
  | nil => exact ⟨h, .refl _ _ _, fun d hd => .inl hd⟩
  | cons b bindings ih =>
      obtain ⟨g, hv⟩ := h.build b.2
      have hset : (f.set b.1 (st.build b.2).2).cells + F ≤
          (st.build b.2).2.cells + (f.cells + F) := by
        rw [← add_assoc]
        exact add_le_add (f.cells_set_le b.1 _) le_rfl
      have kept := Store.Keeps.of_extends h g.ext
      have frame : Tree.frameOf (st.build b.2).1 f = Tree.frameOf st f :=
        Tree.frameOf_congr fun x hx => kept.view_eq h g.sound (Multiset.le_add_left _ _)
          (.of_le ((cells_le_cellsOf hx).trans (Multiset.le_add_right _ _)))
      obtain ⟨sound, keeps, values⟩ := ih (g.sound.forget hset)
      refine ⟨sound, (kept.mono subset_rfl (Multiset.le_add_left _ _)).trans keeps, fun d hd => ?_⟩
      rcases values d hd with hd | hd
      · rw [Tree.frameOf_set, frame, hv] at hd
        rcases Named.mem_values_insert hd with rfl | hd
        · exact .inr (by simp)
        · exact .inl hd
      · exact .inr (List.mem_cons_of_mem _ hd)

theorem Machine.Binds.pushTrees {V : Datum → Prop} {limit : Int} {depth : Nat} {m : Machine}
    (h : m.Binds (fun _ => V) limit depth) (label : String) {bindings : List (Name × Datum)}
    (hb : ∀ b ∈ bindings, V b.2) :
    (m.pushTrees label bindings).Binds (fun _ => V) limit (depth + 1) := by
  obtain ⟨F, hF⟩ := h
  obtain ⟨sound, keeps, values⟩ :=
    Session.bindTrees_sound (f := .empty label) hF.sound.store bindings
  have world : World.of { m with store := (Session.bindTrees m.store (.empty label) bindings).1 } =
      World.of m := by
    have hs : { m with store := (Session.bindTrees m.store (.empty label) bindings).1 }.Sound False
        ∅ (Session.bindTrees m.store (.empty label) bindings).2.cells F :=
      ⟨sound, hF.sound.scopes, False.elim⟩
    exact hF.sound.world_eq hs le_rfl keeps rfl rfl rfl rfl
  refine ⟨_, ⟨⟨sound.reorder (zero_add _).symm, ?_, False.elim⟩, ?_, hF.limit_eq, ?_, hF.natives⟩⟩
  · exact (Scopes.cells_push _ _).trans_le (add_le_add le_rfl hF.sound.scopes)
  · have all : World.All V (World.of { m with
        store := (Session.bindTrees m.store (.empty label) bindings).1 }) := by
      rw [world]
      exact hF.all
    refine all.push fun d hd => ?_
    rcases values d hd with hd | hd
    · cases hd
    · obtain ⟨b, hmem, rfl⟩ := List.mem_map.mp hd
      exact hb b hmem
  · exact congrArg Nat.succ hF.depth_eq

theorem Machine.Binds.foldl_pushTrees {V : Datum → Prop} {limit : Int} {depth : Nat} {m : Machine}
    (h : m.Binds (fun _ => V) limit depth) {frames : List (String × List (Name × Datum))}
    (hframes : ∀ f ∈ frames, ∀ b ∈ f.2, V b.2) :
    (frames.foldl (fun m f => m.pushTrees f.1 f.2) m).Binds (fun _ => V) limit
      (depth + frames.length) := by
  induction frames generalizing m depth with
  | nil => exact h
  | cons f frames ih =>
      rw [List.forall_mem_cons] at hframes
      rw [List.foldl_cons, List.length_cons, Nat.add_comm frames.length, ← Nat.add_assoc]
      exact ih (h.pushTrees f.1 hframes.1) hframes.2

theorem Machine.Sound.find?_builtin {P : Prop} {m : Machine} {aside : Set Cell}
    {X F : Multiset Cell} (h : m.Sound P aside X F) {name n : Name} {arity b p k c : Nat}
    (hname : m.scopes.find? name = some (.lambda b p k)) (hb : m.store.elements b = [])
    (hp : m.store.params p = Machine.builtinParams arity) (hk : m.store.payload k = .list c)
    (hc : m.store.elements c = .builtin n :: (Machine.builtinParams arity).map .symbol) :
    (World.of m).find? name = some (Machine.builtinDatum n arity) := by
  have visible := h.visible_binding hname
  have body : m.store.Visible F (.list c) := hk ▸ visible.lambda_body
  have symbols : m.store.viewSeq ((Machine.builtinParams arity).map .symbol) =
      (Machine.builtinParams arity).map .symbol := by
    simp [Store.viewSeq]
  rw [World.find?_of, hname, Option.map_some, Machine.view, h.frame.view_lambda visible, hb, hp, hk,
    h.frame.view_list body, hc]
  exact congrArg some (congrArg (Datum.lambda [] _ ∘ Datum.list ∘ List.cons (.builtin n)) symbols)

namespace Host

/-- After texts have been evaluated and frames been pushed that bind any names to trees of programs,
where the name of the builtin stands for it and there is no limit: a call of the builtin with a
quoted expression ends as the expression does, with the same tree or the same failure and the same
bindings and definitions, for two layers of fuel more; with less fuel it does not end. The
expression must not call builtins that look at storage. -/
theorem eval_undoes_quote (table : Named Builtin) {limit : Int} (hlimit : limit ≤ 0)
    (tracing : Bool) (before after : List String) (texts : List (Nat × String))
    (frames : List (String × List (Name × Datum)))
    (hframes : ∀ f ∈ frames, ∀ b ∈ f.2, b.2.Worded) {text : String} {e : Datum}
    (he : Datum.parse text = .ok e) :
    let m := frames.foldl (fun m f => m.pushTrees f.1 f.2)
      ((start table limit tracing before after).machine.evalTexts texts)
    (World.of m).find? "eval" = some (Machine.builtinDatum "eval" 1) →
    m.builtins.find? "eval" = some ⟨1, .eval⟩ →
    (∀ fuel, m.Spares (Machine.evalDatum fuel e) →
      Tree.seen (Machine.evalDatum (fuel + 2) (Tree.evalCall e) m) =
        Tree.seen (Machine.evalDatum fuel e m)) ∧
    ∀ fuel < 2, Tree.seen (Machine.evalDatum fuel (Tree.evalCall e) m) =
      .error .starved (World.of m) := by
  intro m hname hbuiltin
  have readable : e.Readable := by
    obtain ⟨_, _, hds⟩ := Datum.parse_eq_ok.mp he
    exact Datum.Readable.of_sexps hds e (by simp)
  have binds : m.Binds (fun _ => Datum.Worded) limit (1 + frames.length) :=
    ((binds_start law_worded table limit tracing before after).evalTexts law_worded
      texts).foldl_pushTrees hframes
  obtain ⟨F, hF⟩ := binds
  have hm := hF.sound.spared
  have twin := Machine.twin_restored m.builtins
  have kept : (World.of m.spared).builtins.find? "eval" = some ⟨1, .eval⟩ := by
    have spared : Builtin.isSpared m.builtins "eval" = true := by
      rw [Builtin.isSpared, hbuiltin]
      rfl
    exact (Builtin.find?_sparing _ _).trans ((if_pos spared).trans hbuiltin)
  refine ⟨fun fuel hspares => ?_, fun fuel hfuel => ?_⟩
  · refine (hspares.seen_eq (twin.inStep_evalDatum _ _) (twin.inStep_evalDatum _ _) ?_).2
    rw [(evalDatum_refines _ hm _).seen_eq, (evalDatum_refines _ hm _).seen_eq]
    exact Tree.evaluate_evalCall (w := World.of m.spared) hF.all (hF.limit_eq.trans_le hlimit)
      hname kept readable fuel
  · have hspares : m.Spares (throw .starved) := fun _ _ e => by cases e
    refine (hspares.seen_eq (.throw id _) (twin.inStep_evalDatum _ _) ?_).2
    rw [(evalDatum_refines _ hm _).seen_eq]
    exact Tree.evaluate_evalCall_of_lt hfuel

/-- A call of a procedure that reads a name of a pushed frame. -/
theorem eval_undoes_quote_call :
    let table := Builtin.table [("eval", ⟨1, .eval⟩), ("+", ⟨2, .arith .add⟩)]
    let frames : List (String × List (Name × Datum)) := [("local", [("x", .int 5)])]
    let m := frames.foldl (fun m f => m.pushTrees f.1 f.2)
      ((start table 0 false [] []).machine.evalTexts [(5, "(define f (lambda (y) (+ x y)))")])
    let e : Datum := .list [.symbol "f", .int 1]
    (m.run (Machine.evalDatum 6 e)).1.toOption = some (.int 6) ∧
    Tree.seen (Machine.evalDatum 8 (Tree.evalCall e) m) = Tree.seen (Machine.evalDatum 6 e m) ∧
    Tree.seen (Machine.evalDatum 1 (Tree.evalCall e) m) = .error .starved (World.of m) := by
  intro table frames m e
  have parsed : Datum.parse "(f 1)" = .ok e := by rfl
  have worded : ∀ f ∈ frames, ∀ b ∈ f.2, b.2.Worded := by
    simpa [frames] using Datum.Worded.int 5
  obtain ⟨F, fit⟩ := ((binds_start law_worded table 0 false [] []).evalTexts law_worded
    [(5, "(define f (lambda (y) (+ x y)))")]).foldl_pushTrees worded
  have named : (World.of m).find? "eval" = some (Machine.builtinDatum "eval" 1) := by
    apply fit.sound.find?_builtin (b := 3) (p := 1) (k := 1) (c := 2) <;> decide +kernel
  obtain ⟨ends, starved⟩ := eval_undoes_quote table le_rfl false [] [] _ frames worded parsed named
    (by decide +kernel)
  exact ⟨by decide +kernel, ends 6 (.of_not_fails (by decide +kernel)), starved 1 (by decide)⟩

end Host

end CellScheme
