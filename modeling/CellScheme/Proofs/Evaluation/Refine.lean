import CellScheme.Proofs.Evaluation.World

/-!
When an action on the machine does what an action on trees does. The roots of the machine are what
the action consumes or returns, and a frame that it must leave as it is; the frame holds all that
the scopes bind, and grows by what the action defines.
-/

namespace CellScheme

open Store (Grown Keeps Extends)
open CellScheme.Tree (World)

variable {P : Prop} {m m' m'' : Machine} {aside aside' : Set Cell} {X Y F F' N : Multiset Cell}

namespace Act

variable {ε σ α β : Type} {a : EStateM ε σ α} {f : α → EStateM ε σ β} {s s' : σ}

theorem bind_ok {v : α} (h : a s = .ok v s') : (a >>= f) s = f v s' := by
  simp only [bind, EStateM.bind, h]

theorem bind_error {e : ε} (h : a s = .error e s') : (a >>= f) s = .error e s' := by
  simp only [bind, EStateM.bind, h]

@[simp]
theorem pure_apply (v : α) (s : σ) : (pure v : EStateM ε σ α) s = .ok v s := rfl

@[simp]
theorem throw_apply (e : ε) (s : σ) : (throw e : EStateM ε σ α) s = .error e s := rfl

@[simp]
theorem get_bind (k : σ → EStateM ε σ β) (s : σ) : (get >>= k) s = k s s := rfl

@[simp]
theorem modify_bind (f : σ → σ) (k : PUnit → EStateM ε σ β) (s : σ) :
    (modify f >>= k) s = k () (f s) := rfl

variable {m : Machine}

@[simp]
theorem fail_apply (e : Failure) : (fail e : Act α) m = .error (.failed e) m := rfl

@[simp]
theorem read_bind (f : Machine → α) (k : α → Act β) : (read f >>= k) m = k (f m) m := rfl

@[simp]
theorem store_bind (f : Store → Store) (k : Unit → Act β) :
    (store f >>= k) m = k () { m with store := f m.store } := rfl

@[simp]
theorem storeGet_apply (f : Store → Store × α) :
    storeGet f m = .ok (f m.store).2 { m with store := (f m.store).1 } := rfl

@[simp]
theorem storeGet_bind (f : Store → Store × α) (k : α → Act β) :
    (storeGet f >>= k) m = k (f m.store).2 { m with store := (f m.store).1 } := rfl

@[simp]
theorem clone_apply (x : Node) : clone x m = .ok x { m with store := m.store.share x } := rfl

@[simp]
theorem clone_bind (x : Node) (k : Node → Act β) :
    (clone x >>= k) m = k x { m with store := m.store.share x } := rfl

/-- What an action on a place leaves there when it stops is forgotten. -/
def settle (a : PlaceAct α) : Act α :=
  a.adaptExcept Prod.snd

@[simp]
theorem settle_leaving (x : Node) (a : Act α) : settle (leaving x a) = a := by
  funext m
  simp only [settle, leaving, EStateM.adaptExcept]
  cases a m <;> rfl

@[simp]
theorem settle_get_bind (k : Machine → PlaceAct α) : settle (get >>= k) m = settle (k m) m := rfl

@[simp]
theorem settle_pure (v : α) : settle (pure v : PlaceAct α) m = .ok v m := rfl

@[simp]
theorem settle_throw (e : Node × Halt) :
    settle (throw e : PlaceAct α) m = .error e.2 m := rfl

theorem settle_bind_ok {a : PlaceAct α} {f : α → PlaceAct β} {v : α} {m' : Machine}
    (h : a m = .ok v m') : settle (a >>= f) m = settle (f v) m' := by
  simp only [settle, EStateM.adaptExcept, bind_ok h]

theorem settle_bind_error {a : PlaceAct α} {f : α → PlaceAct β} {e : Node × Halt} {m' : Machine}
    (h : a m = .error e m') : settle (a >>= f) m = .error e.2 m' := by
  simp only [settle, EStateM.adaptExcept, bind_error h]

theorem settle_bind_congr {a b : PlaceAct α} {f : α → PlaceAct β} {m' : Machine}
    (h : a m = b m') : settle (a >>= f) m = settle (b >>= f) m' := by
  simp only [settle, EStateM.adaptExcept, bind, EStateM.bind, h]

theorem settle_ok {a : PlaceAct α} {v : α} {m' : Machine} (h : a m = .ok v m') :
    settle a m = .ok v m' := by
  simp only [settle, EStateM.adaptExcept, h]

theorem settle_error {a : PlaceAct α} {e : Node × Halt} {m' : Machine} (h : a m = .error e m') :
    settle a m = .error e.2 m' := by
  simp only [settle, EStateM.adaptExcept, h]

end Act

/-- No builtin looks at storage. -/
def Machine.Plain (m : Machine) : Prop :=
  ∀ name b, m.builtins.find? name = some b → b.native ≠ .identical ∧ b.native ≠ .equal

/-- The store is sound for the roots `X` and the frame `F`, which holds what the scopes bind. Where
`P` holds, the machine is to agree with trees. -/
structure Machine.Sound (P : Prop) (m : Machine) (aside : Set Cell) (X F : Multiset Cell) :
    Prop where
  store : m.store.Sound aside (X + F)
  scopes : m.scopes.cells ≤ F
  plain : P → m.Plain

/-- How definitions change the bindings and the list of defined names. -/
structure Machine.Defines (m m' : Machine) : Prop where
  builtins : m'.builtins = m.builtins
  limit : m'.limit = m.limit
  inner : m'.scopes.inner = m.scopes.inner
  bound : ∀ n, (m.scopes.global.find? n).isSome → (m'.scopes.global.find? n).isSome
  listed : m.defined <+: m'.defined
  nodup : m.defined.Nodup → m'.defined.Nodup
  added : ∀ n ∈ m'.defined, n ∈ m.defined ∨ (m'.scopes.global.find? n).isSome
  others : ∀ n, n ∉ m'.defined → m'.scopes.global.find? n = m.scopes.global.find? n

/-- What every action on the machine leaves alone: the cells set aside, all that the frame reaches,
the inner frames, and the bindings that are not defined. -/
structure Machine.Kept (aside : Set Cell) (F : Multiset Cell) (m m' : Machine) : Prop where
  store : Keeps m.store m'.store aside F
  scopes : m.Defines m'

namespace Machine

theorem mem_defined_define {name n : Name} {x : Node} :
    n ∈ (m.define name x).defined ↔ n ∈ m.defined ∨ n = name := by
  simp only [define]
  split
  · rename_i hc
    have : name ∈ m.defined := List.contains_iff_mem.mp hc
    grind
  · simp

namespace Defines

theorem of_same (hs : m'.scopes = m.scopes) (hb : m'.builtins = m.builtins)
    (hd : m'.defined = m.defined) (hl : m'.limit = m.limit) : m.Defines m' where
  builtins := hb
  limit := hl
  inner := by rw [hs]
  bound n hn := by rw [hs]; exact hn
  listed := by rw [hd]
  nodup hn := by rw [hd]; exact hn
  added n hn := .inl (hd ▸ hn)
  others n _ := by rw [hs]

theorem trans (h : m.Defines m') (h' : m'.Defines m'') : m.Defines m'' where
  builtins := h'.builtins.trans h.builtins
  limit := h'.limit.trans h.limit
  inner := h'.inner.trans h.inner
  bound n hn := h'.bound n (h.bound n hn)
  listed := h.listed.trans h'.listed
  nodup hn := h'.nodup (h.nodup hn)
  added n hn := by
    rcases h'.added n hn with hn | hn
    · exact (h.added n hn).imp_right (h'.bound n)
    · exact .inr hn
  others n hn := by
    have hn' : n ∉ m'.defined := fun hm => hn (h'.listed.subset hm)
    exact (h'.others n hn).trans (h.others n hn')

theorem of_define (m : Machine) (name : Name) (x : Node) : m.Defines (m.define name x) := by
  have find (n : Name) : (m.define name x).scopes.global.find? n =
      if n = name then some x else m.scopes.global.find? n :=
    Named.find?_insert m.scopes.global.bindings name n x
  refine ⟨rfl, rfl, rfl, fun n hn => ?_, ?_, fun hn => ?_, fun n hn => ?_, fun n hn => ?_⟩
  · rw [find]
    split
    · rfl
    · exact hn
  · simp only [define]
    split
    · exact List.prefix_rfl
    · exact List.prefix_append _ _
  · simp only [define]
    split
    · exact hn
    · rename_i hc
      have hc' : name ∉ m.defined := fun h => hc (List.contains_iff_mem.mpr h)
      exact List.nodup_append.mpr ⟨hn, List.nodup_singleton _, by grind⟩
  · rw [find]
    rcases mem_defined_define.mp hn with hn | rfl
    · exact .inl hn
    · exact .inr (by simp)
  · rw [find, if_neg]
    exact fun e => hn (mem_defined_define.mpr (.inr e))

end Defines

theorem Plain.of_defines (h : m.Plain) (d : m.Defines m') : m'.Plain := by
  intro name b hb
  rw [d.builtins] at hb
  exact h name b hb

namespace Kept

theorem of_same (hk : Keeps m.store m'.store aside F) (hs : m'.scopes = m.scopes)
    (hb : m'.builtins = m.builtins) (hd : m'.defined = m.defined) (hl : m'.limit = m.limit) :
    m.Kept aside F m' :=
  ⟨hk, .of_same hs hb hd hl⟩

theorem refl (m : Machine) (aside : Set Cell) (F : Multiset Cell) : m.Kept aside F m :=
  .of_same (.refl _ _ _) rfl rfl rfl rfl

theorem trans (h : m.Kept aside F m') (h' : m'.Kept aside F m'') : m.Kept aside F m'' :=
  ⟨h.store.trans h'.store, h.scopes.trans h'.scopes⟩

theorem mono (h : m.Kept aside F m') (ha : aside' ⊆ aside) (hF : F' ≤ F) :
    m.Kept aside' F' m' :=
  ⟨h.store.mono ha hF, h.scopes⟩

end Kept

namespace Sound

theorem frame (h : m.Sound P aside X F) : m.store.Sound aside F :=
  h.store.forget (Multiset.le_add_left _ _)

theorem forget (h : m.Sound P aside X F) : m.Sound P aside 0 F :=
  ⟨h.frame.reorder (zero_add F).symm, h.scopes, h.plain⟩

theorem reorder (h : m.Sound P aside X F) (e : X = Y) : m.Sound P aside Y F :=
  e ▸ h

theorem set_less_aside (h : m.Sound P aside X F) (ha : aside' ⊆ aside) : m.Sound P aside' X F :=
  ⟨h.store.set_less_aside ha, h.scopes, h.plain⟩

/-- Roots may be kept in the frame. -/
theorem keep (h : m.Sound P aside (X + Y) F) : m.Sound P aside X (Y + F) :=
  ⟨h.store.reorder (add_assoc X Y F), h.scopes.trans (Multiset.le_add_left _ _), h.plain⟩

theorem keepAll (h : m.Sound P aside X F) : m.Sound P aside 0 (X + F) :=
  ⟨h.store.reorder (zero_add _).symm, h.scopes.trans (Multiset.le_add_left _ _), h.plain⟩

theorem visible_binding (h : m.Sound P aside X F) {name : Name} {x : Node}
    (hx : m.scopes.find? name = some x) : m.store.Visible F x :=
  .of_le ((Scopes.cells_of_find? hx).trans h.scopes)

/-- The store may grow beside the frame. -/
theorem grow (h : m.Sound P aside X F) {st : Store} (g : Grown m.store st aside Y F) :
    { m with store := st }.Sound P aside Y F :=
  ⟨g.sound, h.scopes, h.plain⟩

theorem kept_of_extends (h : m.Sound P aside X F) {st : Store} (e : Extends m.store st) :
    m.Kept aside F { m with store := st } :=
  .of_same (.of_extends h.frame e) rfl rfl rfl rfl

/-- Trees that the frame reaches are kept. -/
theorem view_eq (h : m.Sound P aside X F) (h' : m'.Sound P aside Y F') (hF : F ≤ F')
    (k : m.Kept aside F m') {x : Node} (hx : m.store.Visible F x) : m'.view x = m.view x :=
  k.store.view_eq h.frame h'.frame hF hx

/-- The world depends on the trees of the bindings only. -/
theorem world_eq (h : m.Sound P aside X F) (h' : m'.Sound P aside Y F') (hF : F ≤ F')
    (hk : Keeps m.store m'.store aside F) (hs : m'.scopes = m.scopes)
    (hb : m'.builtins = m.builtins) (hd : m'.defined = m.defined) (hl : m'.limit = m.limit) :
    World.of m' = World.of m := by
  have frames : ∀ f : Frame, f.cells ≤ m.scopes.cells →
      Tree.frameOf m'.store f = Tree.frameOf m.store f := by
    intro f hf
    refine Tree.frameOf_congr fun x hx => hk.view_eq h.frame h'.frame hF ?_
    exact .of_le ((cells_le_cellsOf hx).trans (hf.trans h.scopes))
  rw [World.of_eq, World.of_eq, hs, hb, hd, hl, frames _ m.scopes.global_cells_le]
  congr 1
  exact List.map_congr_left fun f hf => frames f (Scopes.frame_cells_le hf)

end Sound

end Machine

/-- The machine after an action: sound with the roots `X` beside the frame, which has grown by what
was defined, `N`. -/
structure Machine.Outcome (P : Prop) (aside : Set Cell) (F : Multiset Cell) (m m' : Machine)
    (X N : Multiset Cell) : Prop where
  sound : m'.Sound P aside X (N + F)
  scopes : m'.scopes.cells ≤ N + m.scopes.cells
  kept : m.Kept aside F m'

namespace Machine.Outcome

theorem refl (h : m.Sound P aside X F) : m.Outcome P aside F m X 0 :=
  ⟨by rw [zero_add]; exact h, Multiset.le_add_left _ _, .refl _ _ _⟩

theorem trans {M : Multiset Cell} (k : m.Kept aside F m')
    (hs : m'.scopes.cells ≤ M + m.scopes.cells) (h : m'.Outcome P aside (M + F) m'' X N) :
    m.Outcome P aside F m'' X (N + M) where
  sound := by rw [add_assoc]; exact h.sound
  scopes := by
    rw [add_assoc]
    exact h.scopes.trans (add_le_add le_rfl hs)
  kept := k.trans (h.kept.mono subset_rfl (Multiset.le_add_left _ _))

theorem set_less_aside (h : m.Outcome P aside F m' X N) (ha : aside' ⊆ aside) :
    m.Outcome P aside' F m' X N :=
  ⟨h.sound.set_less_aside ha, h.scopes, h.kept.mono ha le_rfl⟩

end Machine.Outcome

/-- An action on the machine has a sound outcome, and where `P` holds it is the outcome of the
action on trees. -/
def Refines (P : Prop) (aside : Set Cell) (F : Multiset Cell) (m : Machine)
    (r : EStateM.Result Halt Machine Node) (t : EStateM.Result Halt World Datum) : Prop :=
  match r with
  | .ok v m' => ∃ N, m.Outcome P aside F m' v.cells N ∧ (P → t = .ok (m'.view v) (World.of m'))
  | .error e m' => ∃ N, m.Outcome P aside F m' 0 N ∧ (P → t = .error e (World.of m'))

namespace Refines

variable {r : EStateM.Result Halt Machine Node} {t : EStateM.Result Halt World Datum}

theorem pure {v : Node} (h : m.Sound P aside v.cells F) :
    Refines P aside F m (.ok v m) (.ok (m.view v) (World.of m)) :=
  ⟨0, .refl h, fun _ => rfl⟩

theorem throw {e : Halt} (h : m.Sound P aside X F) :
    Refines P aside F m (.error e m) (.error e (World.of m)) :=
  ⟨0, .refl h.forget, fun _ => rfl⟩

/-- What an action does after another one is done from the machine before both. -/
theorem trans (k : m.Kept aside F m') (hs : m'.scopes.cells ≤ N + m.scopes.cells)
    (h : Refines P aside (N + F) m' r t) : Refines P aside F m r t := by
  cases r with
  | ok v m'' =>
      obtain ⟨M, o, ht⟩ := h
      exact ⟨M + N, .trans k hs o, ht⟩
  | error e m'' =>
      obtain ⟨M, o, ht⟩ := h
      exact ⟨M + N, .trans k hs o, ht⟩

/-- What an action does after a change beside the scopes is done from the machine before it. -/
theorem after (k : m.Kept aside F m') (hs : m'.scopes = m.scopes)
    (h : Refines P aside F m' r t) : Refines P aside F m r t := by
  refine trans k (N := 0) ?_ (by rw [zero_add]; exact h)
  rw [hs]
  exact Multiset.le_add_left _ _

/-- Less of the frame may be asked for. -/
theorem mono (h : Refines P aside (N + F) m r t) : Refines P aside F m r t :=
  trans (.refl _ _ _) (Multiset.le_add_left _ _) h

/-- Only where `P` holds does the outcome on trees matter. -/
theorem congr {t' : EStateM.Result Halt World Datum} (h : Refines P aside F m r t)
    (e : P → t' = t) : Refines P aside F m r t' := by
  cases r with
  | ok v m' =>
      obtain ⟨N, o, ht⟩ := h
      exact ⟨N, o, fun hP => (e hP).trans (ht hP)⟩
  | error _ m' =>
      obtain ⟨N, o, ht⟩ := h
      exact ⟨N, o, fun hP => (e hP).trans (ht hP)⟩

/-- Fewer cells may be set aside. -/
theorem set_less_aside (ha : aside' ⊆ aside) (h : Refines P aside F m r t) :
    Refines P aside' F m r t := by
  cases r with
  | ok v m' =>
      obtain ⟨N, o, ht⟩ := h
      exact ⟨N, o.set_less_aside ha, ht⟩
  | error e m' =>
      obtain ⟨N, o, ht⟩ := h
      exact ⟨N, o.set_less_aside ha, ht⟩

/-- Actions in sequence. What the first one defines is in the frame of the second. -/
theorem bind {a : Act Node} {f : Node → Act Node} {ta : Tree.Act Datum}
    {tf : Datum → Tree.Act Datum} {w : World} (h : Refines P aside F m (a m) (ta w))
    (next : ∀ v m' N, m'.Sound P aside v.cells (N + F) → m.Kept aside F m' →
      Refines P aside (N + F) m' (f v m') (tf (m'.view v) (World.of m'))) :
    Refines P aside F m ((a >>= f) m) ((ta >>= tf) w) := by
  cases ha : a m with
  | ok v m' =>
      rw [ha] at h
      obtain ⟨N, o, ht⟩ := h
      rw [Act.bind_ok ha]
      refine trans o.kept o.scopes (next v m' N o.sound o.kept |>.congr fun hP => ?_)
      rw [Act.bind_ok (ht hP)]
  | error e m' =>
      rw [ha] at h
      obtain ⟨N, o, ht⟩ := h
      rw [Act.bind_error ha]
      exact ⟨N, o, fun hP => Act.bind_error (ht hP)⟩

/-- A computation on trees alone is the same on both sides. -/
theorem ofExcept_bind {α : Type} (h : m.Sound P aside X F) {e : Except Failure α}
    {f : α → Act Node} {tf : α → Tree.Act Datum}
    (next : ∀ a, e = .ok a → Refines P aside F m (f a m) (tf a (World.of m))) :
    Refines P aside F m ((Act.ofExcept e >>= f) m) ((Tree.ofExcept e >>= tf) (World.of m)) := by
  cases e with
  | ok a => exact next a rfl
  | error e => exact throw h

/-- An action that only changes the store and returns what it made there. -/
theorem made (h : m.Sound P aside X F) {st : Store} {v : Node} (hs : st.Sound aside (v.cells + F))
    (hk : Keeps m.store st aside F) (ht : P → t = .ok (st.view v) (World.of m)) :
    Refines P aside F m (.ok v { m with store := st }) t := by
  have h' : { m with store := st }.Sound P aside v.cells F := ⟨hs, h.scopes, h.plain⟩
  have k : m.Kept aside F { m with store := st } := .of_same hk rfl rfl rfl rfl
  refine after k rfl ((pure h').congr fun hP => ?_)
  rw [ht hP, h.world_eq h' le_rfl hk rfl rfl rfl rfl]
  rfl

end Refines

/-- An action that only makes something in the store, beside the frame: it returns this tree. -/
def Makes (aside : Set Cell) (F : Multiset Cell) (m : Machine)
    (r : EStateM.Result Halt Machine Node) (d : Datum) : Prop :=
  ∃ st v, r = .ok v { m with store := st } ∧ st.Sound aside (v.cells + F) ∧
    Keeps m.store st aside F ∧ st.view v = d

theorem Makes.grown {st : Store} {v : Node} (h : m.Sound P aside X F)
    (g : Grown m.store st aside v.cells F) :
    Makes aside F m (.ok v { m with store := st }) (st.view v) :=
  ⟨st, v, rfl, g.sound, .of_extends h.frame g.ext, rfl⟩

theorem Makes.refines {r : EStateM.Result Halt Machine Node} {d : Datum} (h : m.Sound P aside X F)
    (hr : Makes aside F m r d) : Refines P aside F m r (.ok d (World.of m)) := by
  obtain ⟨st, v, rfl, hs, hk, rfl⟩ := hr
  exact .made h hs hk fun _ => rfl

/-- A second handle on what the frame reaches. -/
theorem Makes.clone (h : m.Sound P aside X F) {x : Node} (hx : m.store.Visible F x) :
    Makes aside F m (Act.clone x m) (m.view x) := by
  have g := h.frame.share hx
  have hv : (m.store.share x).view x = m.view x := g.view_eq h.frame hx .root
  exact hv ▸ .grown h g

/-- Evaluation in place, which consumes a node, does what evaluation of its tree does. -/
def Faithful (ev : Evaluator) (tev : Tree.Evaluator) : Prop :=
  ∀ {P : Prop} {aside : Set Cell} {F : Multiset Cell} {m : Machine} {x : Node},
    m.Sound P aside x.cells F →
      Refines P aside F m (Act.settle (ev x) m) (tev (m.view x) (World.of m))

theorem Faithful.evalCopy {ev : Evaluator} {tev : Tree.Evaluator} (hev : Faithful ev tev)
    (h : m.Sound P aside X F) {x : Node} (hx : m.store.Visible F x) :
    Refines P aside F m (Act.evalCopy ev x m) (tev (m.view x) (World.of m)) := by
  have g := h.frame.share hx
  have h' := h.grow g
  have hk := h.kept_of_extends g.ext
  have hw := h.world_eq h' le_rfl hk.store rfl rfl rfl rfl
  have hv : { m with store := m.store.share x }.view x = m.view x :=
    hk.store.view_eq h.frame h'.frame le_rfl hx
  have hr := hev h'
  rw [hw, hv] at hr
  exact hr.after hk rfl

end CellScheme
