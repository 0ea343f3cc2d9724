import CellScheme.Proofs.Evaluation.Evaluate
import CellScheme.Proofs.Reading.Grammar
import Mathlib.Order.Filter.Basic

/-!
Properties of trees that evaluation keeps, and what it means that an action leads to a result. The
evaluator below an action is only known through a filter: all of one fuel, or all of enough fuel.
One pass over the constructs then gives what holds after every run and that runs come to an end.

Expressions and values may have different properties, and both may depend on the names that have
been defined so far, which only become more.
-/

namespace CellScheme

open Store (Keeps)
open CellScheme.Tree (World)

/-- The body of a procedure that stands for a builtin: the builtin, called with names. -/
def Datum.NativeCall (d : Datum) : Prop :=
  ∃ (name : Name) (params : List Name), d = .list (.builtin name :: params.map .symbol)

/-- A property of trees that holds on when names are defined. -/
def Growing (P : List Name → Datum → Prop) : Prop :=
  ∀ ⦃ns ns' : List Name⦄ ⦃d : Datum⦄, ns ⊆ ns' → P ns d → P ns' d

/-- What evaluation makes of expressions, by the names defined so far: expressions are what may be
evaluated, quoted or put into a list, and values are what evaluation returns and names are bound to.
Bodies of procedures that stand for builtins need not be expressions. -/
structure Law (E V : List Name → Datum → Prop) : Prop where
  expr_grows : Growing E
  value_grows : Growing V
  expr {ns : List Name} {d : Datum} : V ns d → E ns d
  int (ns : List Name) (v : Int64) : V ns (.int v)
  bool (ns : List Name) (b : Bool) : V ns (.bool b)
  symbol (ns : List Name) {cs : List Char} : Grammar.Spelling cs →
    E ns (.symbol (Name.ofString (String.ofList cs)))
  defined {ns : List Name} {n : Name} : E ns (.symbol n) → n ∈ ns → V ns (.symbol n)
  own {ns : List Name} {d : Datum} : E ns d → d.needsQuote = false → V ns d
  quoted {ns : List Name} {d : Datum} : E ns d → d.needsQuote = true → V ns (.quote d)
  quote {ns : List Name} {d : Datum} : E ns (.quote d) ↔ E ns d
  list {ns : List Name} {ds : List Datum} : E ns (.list ds) ↔ ∀ d ∈ ds, E ns d
  closure {ns : List Name} {params : List Name} {body : Datum} : params.Nodup → E ns body →
    E ns (.lambda [] params body)
  bound {ns : List Name} {bound : List Datum} {params : List Name} {body : Datum} :
    E ns (.lambda bound params body) → ∀ d ∈ bound, V ns d
  body {ns : List Name} {bound : List Datum} {params : List Name} {body : Datum} :
    E ns (.lambda bound params body) → E ns body ∨ body.NativeCall
  supply {ns : List Name} {bound args : List Datum} {params : List Name} {body : Datum} :
    E ns (.lambda bound params body) → (∀ d ∈ args, V ns d) →
      bound.length + args.length ≤ params.length → E ns (.lambda (bound ++ args) params body)
  standing (ns : List Name) (name : Name) (arity : Nat) : E ns (Machine.builtinDatum name arity)

namespace Law

variable {E V : List Name → Datum → Prop} {ns : List Name} {d : Datum} (law : Law E V)

include law

theorem unquote (h : E ns d) : E ns d.unquote := by
  cases d with
  | quote d => exact law.quote.mp h
  | int _ | bool _ | symbol _ | list _ | lambda _ _ _ | builtin _ => exact h

theorem requote (h : E ns d) : V ns d.requote := by
  unfold Datum.requote
  by_cases hq : d.needsQuote = true
  · rw [if_pos hq]
    exact law.quoted h hq
  · rw [if_neg hq]
    exact law.own h (Bool.eq_false_of_not_eq_true hq)

theorem quotedElements (h : E ns d) : ∀ e ∈ Tree.quotedElements d, E ns e := by
  unfold Tree.quotedElements Datum.quotedList?
  split
  · exact law.list.mp (law.quote.mp h)
  · simp

end Law

/-- A property of trees that evaluation hands on from expressions and bindings to values. Bodies of
procedures that stand for builtins need not have it. -/
structure Lawful (V : Datum → Prop) : Prop where
  int (v : Int64) : V (.int v)
  bool (b : Bool) : V (.bool b)
  symbol (n : Name) : V (.symbol n)
  quote {d : Datum} : V (.quote d) ↔ V d
  list {ds : List Datum} : V (.list ds) ↔ ∀ d ∈ ds, V d
  closure {params : List Name} {body : Datum} : params.Nodup → V body →
    V (.lambda [] params body)
  bound {bound : List Datum} {params : List Name} {body : Datum} :
    V (.lambda bound params body) → ∀ d ∈ bound, V d
  body {bound : List Datum} {params : List Name} {body : Datum} :
    V (.lambda bound params body) → V body ∨ body.NativeCall
  supply {bound args : List Datum} {params : List Name} {body : Datum} :
    V (.lambda bound params body) → (∀ d ∈ args, V d) →
      bound.length + args.length ≤ params.length → V (.lambda (bound ++ args) params body)
  standing (name : Name) (arity : Nat) : V (Machine.builtinDatum name arity)

namespace Lawful

variable {V : Datum → Prop} {d : Datum} (hV : Lawful V)

include hV

/-- Expressions and values have the same property, whatever has been defined. -/
theorem law : Law (fun _ => V) fun _ => V where
  expr_grows _ _ _ _ h := h
  value_grows _ _ _ _ h := h
  expr h := h
  int _ := hV.int
  bool _ := hV.bool
  symbol _ _ _ := hV.symbol _
  defined h _ := h
  own h _ := h
  quoted h _ := hV.quote.mpr h
  quote := hV.quote
  list := hV.list
  closure := hV.closure
  bound := hV.bound
  body := hV.body
  supply := hV.supply
  standing _ := hV.standing

theorem unquote (h : V d) : V d.unquote :=
  @Law.unquote _ _ [] d hV.law h

theorem requote (h : V d) : V d.requote :=
  @Law.requote _ _ [] d hV.law h

end Lawful

theorem Tree.mem_bindParams {params : List Name} {args : List Datum} {d : Datum}
    (h : d ∈ (Tree.bindParams params args).values) : d ∈ args := by
  have add : ∀ (ps : List (Name × Datum)) (f : Named Datum),
      d ∈ (ps.foldl (fun f p => f.insert p.1 p.2) f).values →
        d ∈ ps.map Prod.snd ∨ d ∈ f.values := by
    intro ps
    induction ps with
    | nil => exact fun f hf => .inr hf
    | cons p ps ih =>
        intro f hf
        rcases ih _ hf with hp | hp
        · exact .inl (by simp [hp])
        · rcases Named.mem_values_insert hp with rfl | hp
          · exact .inl (by simp)
          · exact .inr hp
  rcases add _ _ h with hd | hd
  · obtain ⟨p, hp, rfl⟩ := List.mem_map.mp hd
    exact (List.of_mem_zip hp).2
  · simp [Named.empty, Named.values] at hd

theorem Scopes.cells_le_of_mem_frames {s : Scopes} {f : Frame} (hf : f ∈ s.frames) {x : Node}
    (hx : x ∈ f.bindings.values) : x.cells ≤ s.cells := by
  have hle : x.cells ≤ f.cells := cells_le_cellsOf hx
  rcases List.mem_append.mp hf with hf | hf
  · exact hle.trans (frame_cells_le hf)
  · rw [List.mem_singleton.mp hf] at hle
    exact hle.trans s.global_cells_le

namespace Tree.World

/-- All trees that the frames bind have the property. -/
def All (V : Datum → Prop) (w : World) : Prop :=
  ∀ f ∈ w.global :: w.inner, ∀ d ∈ f.values, V d

variable {V : Datum → Prop} {w : World}

theorem All.find? (h : w.All V) {name : Name} {d : Datum} (hd : w.find? name = some d) : V d := by
  unfold World.find? at hd
  cases hi : w.inner.findSome? fun f => f.find? name with
  | none =>
      rw [hi] at hd
      exact h w.global (by simp) d (Named.mem_values_of_lookup hd)
  | some e =>
      rw [hi] at hd
      obtain ⟨f, hf, he⟩ := List.exists_of_findSome?_eq_some hi
      obtain rfl : e = d := Option.some.inj hd
      exact h f (by simp [hf]) e (Named.mem_values_of_lookup he)

theorem All.imp {V' : Datum → Prop} (h : w.All V) (hV : ∀ d, V d → V' d) : w.All V' :=
  fun f hf d hd => hV d (h f hf d hd)

theorem All.define (h : w.All V) (name : Name) {d : Datum} (hd : V d) :
    (w.define name d).All V := by
  intro f hf e he
  rcases List.mem_cons.mp hf with rfl | hf
  · rcases Named.mem_values_insert he with rfl | he
    · exact hd
    · exact h w.global (by simp) e he
  · exact h f (List.mem_cons_of_mem _ hf) e he

theorem All.push (h : w.All V) {f : Named Datum} (hf : ∀ d ∈ f.values, V d) :
    { w with inner := f :: w.inner }.All V := by
  intro g hg
  rcases List.mem_cons.mp hg with rfl | hg
  · exact h _ (by simp)
  · rcases List.mem_cons.mp hg with rfl | hg
    · exact hf
    · exact h g (by simp [hg])

theorem All.pop (h : w.All V) : { w with inner := w.inner.tail }.All V := by
  intro f hf
  rcases List.mem_cons.mp hf with rfl | hf
  · exact h _ (by simp)
  · exact h f (List.mem_cons_of_mem _ (List.mem_of_mem_tail hf))

theorem all_of {m : Machine} :
    (World.of m).All V ↔ ∀ f ∈ m.scopes.frames, ∀ x ∈ f.bindings.values, V (m.view x) := by
  have values (f : Frame) :
      (frameOf m.store f).values = f.bindings.values.map m.view := by
    simp only [frameOf, Named.values, List.map_map]
    rfl
  have frame (f : Frame) : (∀ d ∈ (frameOf m.store f).values, V d) ↔
      ∀ x ∈ f.bindings.values, V (m.view x) := by
    rw [values, List.forall_mem_map]
  rw [World.of_eq, World.All, Scopes.frames, List.forall_mem_cons, List.forall_mem_map,
    List.forall_mem_append, List.forall_mem_singleton, frame, and_comm]
  simp only [frame]

end Tree.World

/-- The machine is sound, its bindings and its builtins have these properties, and its limit and
depth are these. -/
structure Machine.Fit (V : List Name → Datum → Prop) (K : Native → Prop) (limit : Int)
    (depth : Nat) (m : Machine) (aside : Set Cell) (X F : Multiset Cell) : Prop where
  sound : m.Sound False aside X F
  all : (World.of m).All (V m.defined)
  limit_eq : m.limit = limit
  depth_eq : m.depth = depth
  natives : ∀ b ∈ m.builtins.values, K b.native

variable {V : List Name → Datum → Prop} {K : Native → Prop} {limit : Int} {depth : Nat}
  {m m' : Machine} {aside aside' : Set Cell} {X Y F N : Multiset Cell}

namespace Machine.Fit

theorem forget (h : m.Fit V K limit depth aside X F) : m.Fit V K limit depth aside 0 F :=
  ⟨h.sound.forget, h.all, h.limit_eq, h.depth_eq, h.natives⟩

theorem keep (h : m.Fit V K limit depth aside (X + Y) F) : m.Fit V K limit depth aside X (Y + F) :=
  ⟨h.sound.keep, h.all, h.limit_eq, h.depth_eq, h.natives⟩

theorem keepAll (h : m.Fit V K limit depth aside X F) : m.Fit V K limit depth aside 0 (X + F) :=
  ⟨h.sound.keepAll, h.all, h.limit_eq, h.depth_eq, h.natives⟩

theorem reorder (h : m.Fit V K limit depth aside X F) (e : X = Y) :
    m.Fit V K limit depth aside Y F :=
  e ▸ h

theorem logged (h : m.Fit V K limit depth aside X F) (es : Array Event) :
    { m with events := es }.Fit V K limit depth aside X F :=
  ⟨h.sound.logged es, h.all, h.limit_eq, h.depth_eq, h.natives⟩

/-- After a change of the store beside the frame. -/
theorem with_store (h : m.Fit V K limit depth aside X F) {st : Store}
    (hs : st.Sound aside (Y + F)) (hk : Keeps m.store st aside F) :
    { m with store := st }.Fit V K limit depth aside Y F := by
  have h' : { m with store := st }.Sound False aside Y F := ⟨hs, h.sound.scopes, False.elim⟩
  refine ⟨h', ?_, h.limit_eq, h.depth_eq, h.natives⟩
  rw [h.sound.world_eq h' le_rfl hk rfl rfl rfl rfl]
  exact h.all

theorem after (h : m.Fit V K limit depth aside X F) (o : m.Outcome False aside F m' Y N)
    (ha : (World.of m').All (V m'.defined)) : m'.Fit V K limit depth aside Y (N + F) := by
  refine ⟨o.sound, ha, o.kept.scopes.limit.trans h.limit_eq, ?_, ?_⟩
  · rw [← h.depth_eq, Machine.depth, Machine.depth, Scopes.depth, Scopes.depth,
      o.kept.scopes.inner]
  · rw [o.kept.scopes.builtins]
    exact h.natives

end Machine.Fit

/-- A failure that an expression can be blamed for. -/
def Failure.Outward : Failure → Prop
  | .internal _ => False
  | .parse _ | .badSyntax _ | .type _ | .runtime _ => True

/-- The native procedures that are offered under some name. -/
def Native.Offered (n : Native) : Prop :=
  ∃ p ∈ Builtin.all, p.2.native = n

/-- What is known of the evaluators below, which trees are expressions and values, which natives
there are, and how actions may halt. Where other natives than those offered may be called, so may
any failure be. The evaluators agree, so one of them is enough to know what a failure leaves. -/
structure Regime where
  evaluators : Filter Evaluator
  leaves : ∃ᶠ ev in evaluators, Leaves ev
  expr : List Name → Datum → Prop
  value : List Name → Datum → Prop
  native : Native → Prop
  halts : Halt → Prop
  law : Law expr value
  fails (f : Failure) : f.Outward → halts (.failed f)
  knows : (∀ n, native n → n.Offered) ∨ ∀ f : Failure, halts (.failed f)

namespace Regime

variable {R : Regime} {Q : List Name → Datum → Prop}

/-- A value of which `Q` holds, or a halt that is allowed; the bindings stay values. -/
def Ends (R : Regime) (Q : List Name → Datum → Prop) : EStateM.Result Halt Machine Node → Prop
  | .ok v m => (World.of m).All (R.value m.defined) ∧ Q m.defined (m.view v)
  | .error e m => (World.of m).All (R.value m.defined) ∧ R.halts e

/-- Under the evaluators of the regime the action ends, always in the same way, with a sound
outcome. -/
def Leads (R : Regime) (aside : Set Cell) (F : Multiset Cell) (m : Machine)
    (a : Evaluator → Act Node) (Q : List Name → Datum → Prop) : Prop :=
  ∃ r, (∀ᶠ ev in R.evaluators, a ev m = r) ∧ (∀ t, Refines False aside F m r t) ∧ R.Ends Q r

namespace Leads

variable {a b : Evaluator → Act Node}

/-- From the machine before a change beside the scopes. -/
theorem after (k : m.Kept aside F m') (hs : m'.scopes = m.scopes) (h : R.Leads aside F m' b Q)
    (e : ∀ ev, a ev m = b ev m') : R.Leads aside F m a Q := by
  obtain ⟨r, hr, ho, he⟩ := h
  exact ⟨r, hr.mono fun ev hev => (e ev).trans hev, fun t => (ho t).after k hs, he⟩

theorem congr (h : R.Leads aside F m b Q) (e : ∀ ev, a ev m = b ev m) :
    R.Leads aside F m a Q :=
  h.after (.refl _ _ _) rfl e

theorem mono (h : R.Leads aside (N + F) m a Q) : R.Leads aside F m a Q := by
  obtain ⟨r, hr, ho, he⟩ := h
  exact ⟨r, hr, fun t => (ho t).mono, he⟩

theorem of_eq {r : EStateM.Result Halt Machine Node} (e : ∀ ev, a ev m = r)
    (ho : ∀ t, Refines False aside F m r t) (he : R.Ends Q r) : R.Leads aside F m a Q :=
  ⟨r, .of_forall e, ho, he⟩

theorem pure {v : Node} (h : m.Fit R.value R.native limit depth aside v.cells F)
    (hv : Q m.defined (m.view v)) :
    R.Leads aside F m (fun _ => Pure.pure v) Q :=
  of_eq (fun _ => rfl) (fun _ => (Refines.pure h.sound).congr False.elim) ⟨h.all, hv⟩

theorem halt (h : m.Fit R.value R.native limit depth aside X F) {f : Failure}
    (hf : R.halts (.failed f)) : R.Leads aside F m (fun _ => Act.fail f) Q :=
  of_eq (fun _ => rfl) (fun _ => (Refines.throw h.sound).congr False.elim) ⟨h.all, hf⟩

theorem fail (h : m.Fit R.value R.native limit depth aside X F) (f : Failure)
    (hf : f.Outward) : R.Leads aside F m (fun _ => Act.fail f) Q :=
  halt h (R.fails f hf)

theorem makes {d : Datum} (h : m.Fit R.value R.native limit depth aside X F)
    {r : EStateM.Result Halt Machine Node} (e : ∀ ev, a ev m = r) (hr : Makes aside F m r d)
    (hd : Q m.defined d) : R.Leads aside F m a Q := by
  refine of_eq e (fun t => (hr.refines h.sound).congr False.elim) ?_
  obtain ⟨st, v, rfl, hs, hk, rfl⟩ := hr
  exact ⟨(h.with_store hs hk).all, hd⟩

/-- Actions in sequence. What the first one defines is in the frame of the second. -/
theorem bind {f : Evaluator → Node → Act Node} {Q' : List Name → Datum → Prop}
    (h : m.Fit R.value R.native limit depth aside X F) (ha : R.Leads aside F m a Q')
    (next : ∀ v m' N, m'.Fit R.value R.native limit depth aside v.cells (N + F) →
      m.Kept aside F m' → Q' m'.defined (m'.view v) →
        R.Leads aside (N + F) m' (fun ev => f ev v) Q) :
    R.Leads aside F m (fun ev => a ev >>= f ev) Q := by
  obtain ⟨r, hr, ho, he⟩ := ha
  cases r with
  | ok v m' =>
      obtain ⟨N, o, _⟩ := ho (.error .starved (World.of m))
      obtain ⟨r', hr', ho', he'⟩ := next v m' N (h.after o he.1) o.kept he.2
      refine ⟨r', ?_, fun t => (ho' t).trans o.kept o.scopes, he'⟩
      filter_upwards [hr, hr'] with ev e e'
      rw [Act.bind_ok e, e']
  | error e m' =>
      refine ⟨.error e m', ?_, fun t => ho t, he⟩
      filter_upwards [hr] with ev e
      rw [Act.bind_error e]

end Leads

/-- An outcome in which what is left in the place is forgotten. -/
def settled : EStateM.Result (Node × Halt) Machine Node → EStateM.Result Halt Machine Node
  | .ok v m => .ok v m
  | .error e m => .error e.2 m

theorem settle_apply (a : PlaceAct Node) (m : Machine) : Act.settle a m = settled (a m) := by
  cases h : a m with
  | ok v m' => exact Act.settle_ok h
  | error e m' => exact Act.settle_error h

/-- The same of an action on a place, which always leaves the same there. -/
def LeadsIn (R : Regime) (aside : Set Cell) (F : Multiset Cell) (m : Machine)
    (a : Evaluator → PlaceAct Node) (Q : List Name → Datum → Prop) : Prop :=
  ∃ r, (∀ᶠ ev in R.evaluators, a ev m = r) ∧ (∀ t, Refines False aside F m (settled r) t) ∧
    R.Ends Q (settled r)

namespace LeadsIn

variable {a b : Evaluator → PlaceAct Node}

theorem settle (h : R.LeadsIn aside F m a Q) :
    R.Leads aside F m (fun ev => Act.settle (a ev)) Q := by
  obtain ⟨r, hr, ho, he⟩ := h
  exact ⟨settled r, hr.mono fun ev hev => (settle_apply _ _).trans (congrArg settled hev), ho, he⟩

theorem leaving {a : Evaluator → Act Node} (h : R.Leads aside F m a Q) (x : Node) :
    R.LeadsIn aside F m (fun ev => Act.leaving x (a ev)) Q := by
  obtain ⟨r, hr, ho, he⟩ := h
  cases r with
  | ok v m' =>
      refine ⟨.ok v m', hr.mono fun ev hev => ?_, ho, he⟩
      simp only [Act.leaving, EStateM.adaptExcept, hev]
  | error e m' =>
      refine ⟨.error (x, e) m', hr.mono fun ev hev => ?_, ho, he⟩
      simp only [Act.leaving, EStateM.adaptExcept, hev]

theorem after (k : m.Kept aside F m') (hs : m'.scopes = m.scopes) (h : R.LeadsIn aside F m' b Q)
    (e : ∀ ev, a ev m = b ev m') : R.LeadsIn aside F m a Q := by
  obtain ⟨r, hr, ho, he⟩ := h
  exact ⟨r, hr.mono fun ev hev => (e ev).trans hev, fun t => (ho t).after k hs, he⟩

theorem congr (h : R.LeadsIn aside F m b Q) (e : ∀ ev, a ev m = b ev m) :
    R.LeadsIn aside F m a Q :=
  h.after (.refl _ _ _) rfl e

theorem weaken {Q' : List Name → Datum → Prop} (h : R.LeadsIn aside F m a Q)
    (hQ : ∀ ns d, Q ns d → Q' ns d) :
    R.LeadsIn aside F m a Q' := by
  obtain ⟨r, hr, ho, he⟩ := h
  refine ⟨r, hr, ho, ?_⟩
  cases r with
  | ok v m' => exact ⟨he.1, hQ _ _ he.2⟩
  | error e m' => exact he

theorem mono (h : R.LeadsIn aside (N + F) m a Q) : R.LeadsIn aside F m a Q := by
  obtain ⟨r, hr, ho, he⟩ := h
  exact ⟨r, hr, fun t => (ho t).mono, he⟩

theorem set_less_aside (ha : aside' ⊆ aside) (h : R.LeadsIn aside F m a Q) :
    R.LeadsIn aside' F m a Q := by
  obtain ⟨r, hr, ho, he⟩ := h
  exact ⟨r, hr, fun t => (ho t).set_less_aside ha, he⟩

end LeadsIn

/-- Below the current expression, every expression of which `D` holds is evaluated to a tree to
which `Q` relates it, at this limit and depth. -/
def Evaluates (R : Regime) (limit : Int) (depth : Nat) (D : List Name → Datum → Prop)
    (Q : Datum → List Name → Datum → Prop) : Prop :=
  ∀ ⦃aside : Set Cell⦄ ⦃F : Multiset Cell⦄ ⦃m : Machine⦄ ⦃x : Node⦄,
    m.Fit R.value R.native limit depth aside x.cells F → D m.defined (m.view x) →
      R.LeadsIn aside F m (fun ev => ev x) (Q (m.view x))

def Below (R : Regime) (size : Nat) (ns : List Name) (d : Datum) : Prop :=
  R.expr ns d ∧ sizeOf d < size

theorem below_grows (R : Regime) (size : Nat) : Growing (R.Below size) :=
  fun _ _ _ hns h => ⟨R.law.expr_grows hns h.1, h.2⟩

theorem Evaluates.mono {D D' : List Name → Datum → Prop} {Q : Datum → List Name → Datum → Prop}
    (h : R.Evaluates limit depth D Q) (hD : ∀ ns d, D' ns d → D ns d) :
    R.Evaluates limit depth D' Q :=
  fun _ _ _ _ hm hx => h hm (hD _ _ hx)

theorem Evaluates.copy {D : List Name → Datum → Prop} {Q : Datum → List Name → Datum → Prop}
    (hev : R.Evaluates limit depth D Q) (h : m.Fit R.value R.native limit depth aside X F)
    {x : Node} (hx : m.store.Visible F x) (hD : D m.defined (m.view x)) :
    R.Leads aside F m (fun ev => Act.evalCopy ev x) (Q (m.view x)) := by
  have g := h.sound.frame.share hx
  have h' := h.with_store g.sound (.of_extends h.sound.frame g.ext)
  have hv : { m with store := m.store.share x }.view x = m.view x :=
    g.view_eq h.sound.frame hx .root
  have hl := hev h' (hv.symm ▸ hD)
  rw [hv] at hl
  exact hl.settle.after (h.sound.kept_of_extends g.ext) rfl fun _ => rfl

end Regime

end CellScheme
