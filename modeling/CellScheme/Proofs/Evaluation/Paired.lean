import CellScheme.Proofs.Evaluation.Calling
import CellScheme.Proofs.Evaluation.Evaluate

/-!
Two runs side by side, on related machines and over evaluators that may differ. One pass over the
constructs shows that the runs stay abreast: they end with the same value or the same failure, on
related machines, unless the first one fails in a way that is excepted. After a failure the machines
may be related in another way than before it.
-/

namespace CellScheme

/-- The chain of frames is too long for another call. -/
def Machine.TooDeep (m : Machine) : Prop :=
  0 < m.limit ∧ m.limit < m.depth

variable {ε δ α β : Type} {R S R' S' : Machine → Machine → Prop}

/-- The outcome is a failure of this kind. -/
def Fails (E : ε → Prop) : EStateM.Result ε Machine α → Prop
  | .ok _ _ => False
  | .error e _ => E e

instance (E : ε → Prop) [DecidablePred E] (r : EStateM.Result ε Machine α) :
    Decidable (Fails E r) :=
  match r with
  | .ok _ _ => .isFalse id
  | .error e _ => inferInstanceAs (Decidable (E e))

/-- The same value on machines that are related in one way, or the same failure on machines that are
related in another. -/
inductive Matched (R S : Machine → Machine → Prop) :
    EStateM.Result ε Machine α → EStateM.Result ε Machine α → Prop where
  | ok (v : α) {m n : Machine} : R m n → Matched R S (.ok v m) (.ok v n)
  | error (e : ε) {m n : Machine} : S m n → Matched R S (.error e m) (.error e n)

/-- The same value or the same failure, on related machines. -/
abbrev Alike (R : Machine → Machine → Prop) (r s : EStateM.Result ε Machine α) : Prop :=
  Matched R R r s

/-- The outcomes match, unless the first is a failure of an excepted kind. -/
def MatchedUnless (E : ε → Prop) (R S : Machine → Machine → Prop)
    (r s : EStateM.Result ε Machine α) : Prop :=
  Fails E r ∨ Matched R S r s

@[inherit_doc MatchedUnless]
abbrev AlikeUnless (E : ε → Prop) (R : Machine → Machine → Prop)
    (r s : EStateM.Result ε Machine α) : Prop :=
  MatchedUnless E R R r s

/-- From machines that are related in one way the actions end with matching outcomes, unless the
first fails in one of these ways. -/
def Abreast (E : ε → Prop) (R S : Machine → Machine → Prop) (a b : EStateM ε Machine α) : Prop :=
  ∀ m n, R m n → MatchedUnless E R S (a m) (b n)

/-- From related machines the actions end alike, unless the first fails in one of these ways. -/
abbrev InStep (E : ε → Prop) (R : Machine → Machine → Prop) (a b : EStateM ε Machine α) : Prop :=
  Abreast E R R a b

theorem fails_false (r : EStateM.Result ε Machine α) : ¬ Fails (fun _ => False) r := by
  cases r <;> exact id

theorem not_fails {r : EStateM.Result ε Machine α} (h : ¬ Fails (fun _ => True) r)
    (E : ε → Prop) : ¬ Fails E r := by
  cases r with
  | ok _ _ => exact id
  | error _ _ => exact absurd trivial h

/-- The three ways in which two runs end. -/
theorem MatchedUnless.ends {E : ε → Prop} {r s : EStateM.Result ε Machine α}
    (h : MatchedUnless E R S r s) :
    (∃ e m, r = .error e m ∧ E e) ∨ (∃ v m n, r = .ok v m ∧ s = .ok v n ∧ R m n) ∨
      ∃ e m n, r = .error e m ∧ s = .error e n ∧ S m n := by
  rcases h with h | h
  · cases r with
    | ok v m => exact h.elim
    | error e m => exact .inl ⟨e, m, rfl, h⟩
  · cases h with
    | ok v h => exact .inr (.inl ⟨v, _, _, rfl, rfl, h⟩)
    | error e h => exact .inr (.inr ⟨e, _, _, rfl, rfl, h⟩)

namespace Abreast

variable {E : ε → Prop}

theorem pure (v : α) : Abreast E R S (pure v : EStateM ε Machine α) (Pure.pure v) :=
  fun _ _ h => .inr (.ok v h)

theorem throw (failed : ∀ {m n}, R m n → S m n) (e : ε) :
    Abreast E R S (throw e : EStateM ε Machine α) (MonadExcept.throw e) :=
  fun _ _ h => .inr (.error e (failed h))

theorem bind {a b : EStateM ε Machine α} {f g : α → EStateM ε Machine β} (hab : Abreast E R S a b)
    (hfg : ∀ v, Abreast E R S (f v) (g v)) : Abreast E R S (a >>= f) (b >>= g) := by
  intro m n h
  rcases (hab m n h).ends with ⟨e, m', ha, he⟩ | ⟨v, m', n', ha, hb, h'⟩ | ⟨e, m', n', ha, hb, h'⟩
  · rw [Act.bind_error ha]
    exact .inl he
  · rw [Act.bind_ok ha, Act.bind_ok hb]
    exact hfg v m' n' h'
  · rw [Act.bind_error ha, Act.bind_error hb]
    exact .inr (.error e h')

theorem get_bind {k l : Machine → EStateM ε Machine β} (same : ∀ m n, R m n → l n = l m)
    (hkl : ∀ m, Abreast E R S (k m) (l m)) : Abreast E R S (get >>= k) (get >>= l) := by
  intro m n h
  rw [Act.get_bind, Act.get_bind, same m n h]
  exact hkl m m n h

theorem modify {f g : Machine → Machine} (hfg : ∀ m n, R m n → R (f m) (g n)) :
    Abreast E R S (modify f : EStateM ε Machine PUnit) (modify g) :=
  fun m n h => .inr (.ok _ (hfg m n h))

theorem adaptExcept {E' : δ → Prop} {a b : EStateM ε Machine α} (hab : Abreast E R S a b)
    {f : ε → δ} (hE : ∀ e, E e → E' (f e)) :
    Abreast E' R S (a.adaptExcept f) (b.adaptExcept f) := by
  intro m n h
  simp only [EStateM.adaptExcept]
  rcases (hab m n h).ends with ⟨e, m', ha, he⟩ | ⟨v, m', n', ha, hb, h'⟩ | ⟨e, m', n', ha, hb, h'⟩
  · rw [ha]
    exact .inl (hE e he)
  · rw [ha, hb]
    exact .inr (.ok v h')
  · rw [ha, hb]
    exact .inr (.error (f e) h')

end Abreast

namespace Abreast

variable {E : Halt → Prop}

theorem read_bind {f : Machine → α} {k l : α → Act β} (same : ∀ m n, R m n → f n = f m)
    (hkl : ∀ v, Abreast E R S (k v) (l v)) :
    Abreast E R S (Act.read f >>= k) (Act.read f >>= l) := by
  intro m n h
  rw [Act.read_bind, Act.read_bind, same m n h]
  exact hkl (f m) m n h

theorem fail (failed : ∀ {m n}, R m n → S m n) (f : Failure) :
    Abreast E R S (Act.fail f : Act α) (Act.fail f) :=
  throw failed _

theorem ofExcept (failed : ∀ {m n}, R m n → S m n) (e : Except Failure α) :
    Abreast E R S (Act.ofExcept e) (Act.ofExcept e) := by
  cases e with
  | ok v => exact pure v
  | error f => exact fail failed f

theorem leaving {a b : Act α} (hab : Abreast E R S a b) (x : Node) :
    Abreast (E ·.2) R S (Act.leaving x a) (Act.leaving x b) :=
  hab.adaptExcept fun _ he => he

end Abreast

/-- Evaluation finds the same on related machines, except for the bindings and the builtins, and its
changes of the store and of definitions keep them related. A failure may relate them in another way,
which what a failure changes keeps. A call may be too deep on the first machine, if that failure is
excepted. -/
structure Machine.Apace (E : Halt → Prop) (R S : Machine → Machine → Prop) : Prop where
  store {m n : Machine} : R m n → n.store = m.store
  setStore {m n : Machine} : R m n → ∀ st, R { m with store := st } { n with store := st }
  define {m n : Machine} : R m n → ∀ name x, R (m.define name x) (n.define name x)
  deep {m n : Machine} : R m n → n.limit = m.limit ∧ n.depth = m.depth ∨
    (n.TooDeep → m.TooDeep) ∧ (m.TooDeep → E (.failed (.runtime (.tooDeep m.limit))))
  failed {m n : Machine} : R m n → S m n
  failedStore {m n : Machine} : S m n → n.store = m.store
  setFailedStore {m n : Machine} : S m n → ∀ st, S { m with store := st } { n with store := st }

/-- The same, also of builtins and hooks, where a failure keeps machines related as evaluation does.
A builtin may be missing on the first machine if that failure is excepted. -/
structure Machine.Parallel (E : Halt → Prop) (R : Machine → Machine → Prop) : Prop extends
    Machine.Apace E R R where
  failed h := h
  failedStore := store
  setFailedStore := setStore
  builtins {m n : Machine} : R m n → ∀ name, n.builtins.find? name = m.builtins.find? name ∨
    m.builtins.find? name = none ∧ E (.failed (.runtime (.unknownBuiltin name)))
  before {m n : Machine} : R m n → ∀ name form,
    R (m.before.foldl (fun m hook => m.log (.before hook name (m.store.viewSeq form) m.depth)) m)
      (n.before.foldl (fun n hook => n.log (.before hook name (n.store.viewSeq form) n.depth)) n)
  after {m n : Machine} : R m n → ∀ name x,
    R (m.after.foldl (fun m hook => m.log (.after hook name (m.view x) m.depth)) m)
      (n.after.foldl (fun n hook => n.log (.after hook name (n.view x) n.depth)) n)

/-- What a call does once it may start: it runs the body in a frame that binds the parameters. -/
def enter (ev : Evaluator) (names : List Name) (values : List Node) (body : Nat) : Act Node := do
  traceEvent fun m => .applied m.depth names (m.store.viewSeq values)
  withFrame (bindParams names values) do
    Act.evalCopy ev ((← Act.read (·.store)).payload body)

/-- Expressions below the current one are abreast, and so are the bodies of calls. -/
structure AbreastBelow (E : Halt → Prop) (R S : Machine → Machine → Prop) (ev ev' : Evaluator) :
    Prop where
  expr (x : Node) : Abreast (E ·.2) R S (ev x) (ev' x)
  body (names : List Name) (values : List Node) (k : Nat) :
    Abreast E R S (enter ev names values k) (enter ev' names values k)

/-- The same on machines that a failure leaves related as they were. -/
abbrev InStepBelow (E : Halt → Prop) (R : Machine → Machine → Prop) (ev ev' : Evaluator) : Prop :=
  AbreastBelow E R R ev ev'

namespace Machine.Apace

variable {E : Halt → Prop} {ev ev' : Evaluator} {m n : Machine}

theorem view (p : Apace E R S) (h : R m n) : n.view = m.view := by
  funext x
  rw [Machine.view, Machine.view, p.store h]

theorem abreast_store (p : Apace E R S) (f : Store → Store) :
    Abreast E R S (Act.store f) (Act.store f) :=
  .modify fun m n h => by
    rw [p.store h]
    exact p.setStore h _

theorem abreast_storeGet (p : Apace E R S) (f : Store → Store × α) :
    Abreast E R S (Act.storeGet f) (Act.storeGet f) := by
  intro m n h
  refine .inr ?_
  rw [Act.storeGet_apply, Act.storeGet_apply, p.store h]
  exact .ok _ (p.setStore h _)

theorem abreast_clone (p : Apace E R S) (x : Node) : Abreast E R S (Act.clone x) (Act.clone x) :=
  .bind (p.abreast_store _) fun _ => .pure x

theorem abreast_evalCopy (p : Apace E R S) (hev : ∀ x, Abreast (E ·.2) R S (ev x) (ev' x))
    (x : Node) : Abreast E R S (Act.evalCopy ev x) (Act.evalCopy ev' x) :=
  .bind (p.abreast_clone x) fun y => (hev y).adaptExcept fun _ he => he

theorem abreast_runQuery (p : Apace E R S) (q : Query) (x : Node) :
    Abreast E R S (Native.runQuery q x) (Native.runQuery q x) := by
  have answer : Abreast E R S
      (do let b ← Act.ofExcept (q.answer (← Act.read (·.view x))); return Node.bool b)
      (do let b ← Act.ofExcept (q.answer (← Act.read (·.view x))); return Node.bool b) :=
    .read_bind (fun m n h => congrFun (p.view h) x) fun d =>
      .bind (.ofExcept p.failed _) fun b => .pure _
  unfold Native.runQuery
  split
  · exact .bind (p.abreast_storeGet _) fun _ => answer
  · exact answer

theorem abreast_runChecked (p : Apace E R S) (hev : ∀ x, Abreast (E ·.2) R S (ev x) (ev' x))
    (n : Native) (form : List Node) :
    Abreast E R S (n.runChecked ev form) (n.runChecked ev' form) := by
  have store {k l : Store → Act Node} (hkl : ∀ st, Abreast E R S (k st) (l st)) :
      Abreast E R S (Act.read (·.store) >>= k) (Act.read (·.store) >>= l) :=
    .read_bind (fun _ _ h => p.store h) hkl
  have view {x : Node} {k : Datum → Act Node} (hk : ∀ d, Abreast E R S (k d) (k d)) :
      Abreast E R S (Act.read (·.view x) >>= k) (Act.read (·.view x) >>= k) :=
    .read_bind (fun m n h => congrFun (p.view h) x) hk
  unfold Native.runChecked
  split
  · refine store fun st => ?_
    split
    · exact .bind (p.abreast_clone _) fun _ => p.abreast_storeGet _
    · exact .fail p.failed _
  · refine store fun st => ?_
    split
    · exact .bind (p.abreast_store _) fun _ => .bind (p.abreast_storeGet _) fun _ =>
        p.abreast_storeGet _
    · exact .fail p.failed _
  · refine .bind (p.abreast_storeGet _) fun y => store fun st => ?_
    split
    · exact .fail p.failed _
    · exact .bind (p.abreast_store _) fun _ => .bind (p.abreast_storeGet _) fun _ =>
        .bind (p.abreast_store _) fun _ => p.abreast_storeGet _
  · exact store fun st => .pure _
  · exact store fun st => .pure _
  · exact view fun d => .pure _
  · exact view fun d => .pure _
  · exact .pure _
  · exact .pure _
  · exact store fun st => .bind (.ofExcept p.failed _) fun v => .pure _
  · exact store fun st => p.abreast_evalCopy hev _
  · exact p.abreast_runQuery _ _
  · exact .fail p.failed _

theorem abreast_native (p : Apace E R S) (hev : ∀ x, Abreast (E ·.2) R S (ev x) (ev' x))
    (n : Native) (name : Name) (form : List Node) :
    Abreast E R S (n.run ev name form) (n.run ev' name form) :=
  .bind (.read_bind (fun _ _ h => p.store h) fun _ => .ofExcept p.failed _) fun _ =>
    p.abreast_runChecked hev n form

theorem abreast_failSyntax (p : Apace E R S) {f : Machine → SyntaxFailure}
    (same : ∀ m n, R m n → f n = f m) :
    Abreast E R S (SpecialForm.failSyntax f : Act α) (SpecialForm.failSyntax f) :=
  .get_bind (fun m n h => by rw [same m n h]) fun _ => .fail p.failed _

theorem paramNames_eq (p : Apace E R S) (h : R m n) (seen : List Name) (xs : List Node) :
    SpecialForm.paramNames n seen xs = SpecialForm.paramNames m seen xs := by
  induction xs generalizing seen with
  | nil => rfl
  | cons x xs ih => cases x <;> simp only [SpecialForm.paramNames, p.view h, ih]

theorem clause?_eq (p : Apace E R S) (h : R m n) (x : Node) :
    SpecialForm.clause? n x = SpecialForm.clause? m x := by
  cases x <;> simp only [SpecialForm.clause?, p.store h]

theorem clauses_eq (p : Apace E R S) (h : R m n) (form xs : List Node) :
    SpecialForm.clauses n form xs = SpecialForm.clauses m form xs := by
  induction xs with
  | nil => simp only [SpecialForm.clauses, p.store h]
  | cons x xs ih => simp only [SpecialForm.clauses, p.clause?_eq h, p.view h, p.store h, ih]

variable (hev : ∀ x, Abreast (E ·.2) R S (ev x) (ev' x))

include hev

theorem abreast_runDefine (p : Apace E R S) (form : List Node) :
    Abreast E R S (SpecialForm.runDefine ev form) (SpecialForm.runDefine ev' form) := by
  unfold SpecialForm.runDefine
  split
  · split
    · exact .bind (p.abreast_evalCopy hev _) fun v =>
        .bind (.modify fun m n h => p.define h _ v) fun _ => .pure _
    · exact p.abreast_failSyntax fun m n h => by rw [p.view h]
  · exact p.abreast_failSyntax fun m n h => by rw [p.store h]

omit hev in
theorem abreast_runLambda (p : Apace E R S) (form : List Node) :
    Abreast E R S (SpecialForm.runLambda form) (SpecialForm.runLambda form) := by
  unfold SpecialForm.runLambda
  split
  · split
    · refine .get_bind (fun m n h => by simp only [p.store h, p.paramNames_eq h]) fun m => ?_
      split
      · exact .fail p.failed _
      · exact .bind (p.abreast_clone _) fun _ => p.abreast_storeGet _
    · exact p.abreast_failSyntax fun m n h => by rw [p.view h]
  · exact p.abreast_failSyntax fun m n h => by rw [p.store h]

theorem abreast_runClauses (p : Apace E R S) (last : Node) (cs : List (Node × Node)) :
    Abreast E R S (SpecialForm.runClauses ev last cs) (SpecialForm.runClauses ev' last cs) := by
  induction cs with
  | nil => exact p.abreast_evalCopy hev last
  | cons c cs ih =>
      refine .bind (p.abreast_evalCopy hev c.1) fun v => ?_
      split
      · exact p.abreast_evalCopy hev _
      · exact ih

theorem abreast_runCond (p : Apace E R S) (form : List Node) :
    Abreast E R S (SpecialForm.runCond ev form) (SpecialForm.runCond ev' form) := by
  unfold SpecialForm.runCond
  split
  · exact p.abreast_failSyntax fun m n h => by rw [p.store h]
  · refine .get_bind (fun m n h => by rw [p.clauses_eq h]) fun m => ?_
    split
    · exact .fail p.failed _
    · exact p.abreast_runClauses hev _ _

theorem abreast_runOperands (p : Apace E R S) (stop : Bool) (first : Node) (xs : List Node) :
    Abreast E R S (SpecialForm.runOperands ev stop first xs)
      (SpecialForm.runOperands ev' stop first xs) := by
  induction xs generalizing first with
  | nil => exact p.abreast_evalCopy hev first
  | cons x xs ih =>
      refine .bind (p.abreast_evalCopy hev first) fun v => ?_
      split
      · split
        · exact .pure _
        · exact ih x
      · exact ih x

theorem abreast_runLogical (p : Apace E R S) (name : String) (stop : Bool) (form : List Node) :
    Abreast E R S (SpecialForm.runLogical ev name stop form)
      (SpecialForm.runLogical ev' name stop form) := by
  unfold SpecialForm.runLogical
  split
  · exact p.abreast_runOperands hev _ _ _
  · exact .fail p.failed _

theorem abreast_form (p : Apace E R S) (f : SpecialForm) (form : List Node) :
    Abreast E R S (f.run ev form) (f.run ev' form) := by
  cases f with
  | define => exact p.abreast_runDefine hev form
  | lambda => exact p.abreast_runLambda form
  | cond => exact p.abreast_runCond hev form
  | and => exact p.abreast_runLogical hev _ _ form
  | or => exact p.abreast_runLogical hev _ _ form

omit hev

/-- What runs in a frame. How the machines are related there may be another way. -/
theorem withFrame_matched {a b : Act Node} {f : Frame}
    (hab : MatchedUnless E R' S' (a (m.push f).1) (b (n.push f).1))
    (pop : ∀ m' n', R' m' n' → R (m'.truncate m.scopes.depth) (n'.truncate n.scopes.depth))
    (popFailed : ∀ m' n', S' m' n' →
      S (m'.truncate m.scopes.depth) (n'.truncate n.scopes.depth)) :
    MatchedUnless E R S (withFrame f a m) (withFrame f b n) := by
  rcases hab.ends with ⟨e, m', ha, he⟩ | ⟨v, m', n', ha, hb, h'⟩ | ⟨e, m', n', ha, hb, h'⟩
  · rw [withFrame_error ha]
    exact .inl he
  · rw [withFrame_ok ha, withFrame_ok hb]
    exact .inr (.ok v (pop m' n' h'))
  · rw [withFrame_error ha, withFrame_error hb]
    exact .inr (.error e (popFailed m' n' h'))

theorem abreast_body (p : Apace E R S) (hev : ∀ x, Abreast (E ·.2) R S (ev x) (ev' x)) (k : Nat) :
    Abreast E R S (do Act.evalCopy ev ((← Act.read (·.store)).payload k))
      (do Act.evalCopy ev' ((← Act.read (·.store)).payload k)) :=
  .read_bind (fun _ _ h => p.store h) fun _ => p.abreast_evalCopy hev _

variable (below : AbreastBelow E R S ev ev')

include below

/-- A call that is too deep on the first machine alone fails in an excepted way. -/
theorem abreast_callBound (p : Apace E R S) (b c k : Nat) :
    Abreast E R S (callBound ev b c k) (callBound ev' b c k) := by
  intro m n h
  simp only [callBound, Act.get_bind, p.store h]
  by_cases har : m.store.arity b c ≠ 0
  · rw [if_pos har, if_pos har]
    exact .inr (.ok _ h)
  rw [if_neg har, if_neg har]
  by_cases hdeep : 0 < m.limit ∧ m.limit < m.depth
  · rw [if_pos hdeep]
    rcases p.deep h with ⟨hl, hd⟩ | ⟨_, hE⟩
    · rw [hl, hd, if_pos hdeep]
      exact .inr (.error _ (p.failed h))
    · exact .inl (hE hdeep)
  have hdeep' : ¬ (0 < n.limit ∧ n.limit < n.depth) := by
    rcases p.deep h with ⟨hl, hd⟩ | ⟨hd, _⟩
    · rw [hl, hd]
      exact hdeep
    · exact fun hn => hdeep (hd hn)
  rw [if_neg hdeep, if_neg hdeep']
  by_cases hlen : (m.store.elements b).length < (m.store.params c).length
  · rw [if_pos hlen, if_pos hlen]
    exact .inr (.error _ (p.failed h))
  rw [if_neg hlen, if_neg hlen]
  exact Abreast.bind (p.abreast_store _) (fun _ => below.body _ _ k) m n h

theorem abreast_applyLambda (p : Apace E R S) (b c k : Nat) (args : List Node) :
    Abreast E R S (applyLambda ev b c k args) (applyLambda ev' b c k args) := by
  refine .read_bind (fun _ _ h => p.store h) fun st => ?_
  dsimp only
  split
  · exact .fail p.failed _
  · split
    · exact p.abreast_callBound below b c k
    · exact .bind (p.abreast_storeGet _) fun b' => .bind (p.abreast_store _) fun _ =>
        p.abreast_callBound below b' c k

omit below in
theorem abreast_evalElements (p : Apace E R S) (hev : ∀ x, Abreast (E ·.2) R S (ev x) (ev' x))
    (c i : Nat) (xs : List Node) :
    Abreast (E ·.2) R S (evalElements ev c i xs) (evalElements ev' c i xs) := by
  induction xs generalizing i with
  | nil => exact .pure ()
  | cons x xs ih =>
      intro m n h
      rcases (hev x m n h).ends with
        ⟨e, m', ha, he⟩ | ⟨v, m', n', ha, hb, h'⟩ | ⟨e, m', n', ha, hb, h'⟩
      · rw [evalElements_error ha]
        exact .inl he
      · rw [evalElements_ok ha, evalElements_ok hb, p.store h']
        exact ih (i + 1) _ _ (p.setStore h' _)
      · rw [evalElements_error ha, evalElements_error hb, p.failedStore h']
        exact .inr (.error _ (p.setFailedStore h' _))

theorem abreast_callHeadBy (p : Apace E R S) {call call' : Caller}
    (hcall : ∀ name form, Abreast E R S (call name form) (call' name form)) (c : Nat) :
    Abreast (E ·.2) R S (callHeadBy call ev c) (callHeadBy call' ev' c) := by
  refine .get_bind (fun m n h => by rw [p.store h]) fun m => ?_
  dsimp only
  split
  · exact (p.abreast_applyLambda below _ _ _ _).leaving _
  · exact (hcall _ _).leaving _
  · exact .get_bind (fun m n h => by rw [p.view h, p.store h]) fun m => .throw p.failed _

/-- A list that is no special form: its elements are evaluated, and then it is a call. -/
theorem abreast_callBy (p : Apace E R S) {call call' : Caller}
    (hcall : ∀ name form, Abreast E R S (call name form) (call' name form)) (c : Nat)
    (form : List Node) :
    Abreast (E ·.2) R S
      (do
        let c ← Act.leaving (.list c) (Act.storeGet (·.ownSeq c))
        evalElements ev c 0 form
        callHeadBy call ev c)
      (do
        let c ← Act.leaving (.list c) (Act.storeGet (·.ownSeq c))
        evalElements ev' c 0 form
        callHeadBy call' ev' c) :=
  .bind ((p.abreast_storeGet _).leaving _) fun c' =>
    .bind (p.abreast_evalElements below.expr c' 0 form) fun _ => p.abreast_callHeadBy below hcall c'

/-- Lists are abreast if the notes on special forms keep the machines related. -/
theorem abreast_evalListBy (p : Apace E R S) {call call' : Caller}
    (hcall : ∀ name form, Abreast E R S (call name form) (call' name form))
    (special : ∀ form, Abreast E R S
      (traceEvent fun m => .special m.depth (m.store.viewSeq form))
      (traceEvent fun m => .special m.depth (m.store.viewSeq form)))
    (c : Nat) : Abreast (E ·.2) R S (evalListBy call ev c) (evalListBy call' ev' c) := by
  refine .get_bind (fun m n h => by rw [p.store h]) fun m => ?_
  dsimp only
  split
  · exact .throw p.failed _
  · split
    · exact .leaving (.bind (special _) fun _ => p.abreast_form below.expr _ _) _
    · exact p.abreast_callBy below hcall c _

omit below in
/-- One layer of evaluation on related machines, where lists are abreast and a name that is
evaluated has the same value. -/
theorem evalLayerBy_matched (p : Apace E R S) {call call' : Caller} (h : R m n) (x : Node)
    (lists : ∀ c, x = .list c →
      MatchedUnless (E ·.2) R S (evalListBy call ev c m) (evalListBy call' ev' c n))
    (found : ∀ name, x = .symbol name → n.scopes.find? name = m.scopes.find? name) :
    MatchedUnless (E ·.2) R S (evalLayerBy call ev x m) (evalLayerBy call' ev' x n) := by
  cases x with
  | int _ | bool _ | lambda _ _ _ | builtin _ => exact .inr (.ok _ h)
  | list c => exact lists c rfl
  | symbol name =>
      have hf := found name rfl
      simp only [evalLayerBy, evalLayer, Act.leaving, EStateM.adaptExcept, Act.get_bind, hf]
      cases m.scopes.find? name with
      | some v => exact (p.abreast_clone v).leaving (.symbol name) m n h
      | none => exact .inr (.error _ (p.failed h))
  | quote c =>
      refine Abreast.leaving (.read_bind (fun _ _ h => p.store h) fun st => ?_) _ m n h
      dsimp only
      split
      · exact .pure _
      · exact p.abreast_clone _

end Machine.Apace

namespace Machine.Parallel

variable {E : Halt → Prop} {ev ev' : Evaluator} {m n : Machine}

/-- What runs in a frame, with machines that are related another way there. -/
theorem withFrame_alike {a b : Act Node} {f : Frame}
    (hab : AlikeUnless E S (a (m.push f).1) (b (n.push f).1))
    (pop : ∀ m' n', S m' n' → R (m'.truncate m.scopes.depth) (n'.truncate n.scopes.depth)) :
    AlikeUnless E R (withFrame f a m) (withFrame f b n) :=
  Apace.withFrame_matched hab pop pop

/-- A builtin that only the second machine has fails on the first one. -/
theorem inStep_callBuiltin (p : Parallel E R) (hev : ∀ x, InStep (E ·.2) R (ev x) (ev' x))
    (name : Name) (form : List Node) :
    InStep E R (callBuiltin ev name form) (callBuiltin ev' name form) := by
  intro m n h
  simp only [callBuiltin, Act.get_bind]
  rcases p.builtins h name with hb | ⟨hb, hE⟩
  · rw [hb]
    cases m.builtins.find? name with
    | none => exact .inr (.error _ h)
    | some b =>
        exact Abreast.bind (.modify fun m n h => p.before h name form)
          (fun _ => .bind (p.abreast_native hev _ name form) fun x =>
            .bind (.modify fun m n h => p.after h name x) fun _ => .pure x) m n h
  · rw [hb]
    exact .inl hE

@[inherit_doc Apace.abreast_callBy]
theorem inStep_call (p : Parallel E R) (below : InStepBelow E R ev ev') (c : Nat)
    (form : List Node) :
    InStep (E ·.2) R
      (do
        let c ← Act.leaving (.list c) (Act.storeGet (·.ownSeq c))
        evalElements ev c 0 form
        callHead ev c)
      (do
        let c ← Act.leaving (.list c) (Act.storeGet (·.ownSeq c))
        evalElements ev' c 0 form
        callHead ev' c) :=
  p.abreast_callBy below (p.inStep_callBuiltin below.expr) c form

theorem inStep_evalList (p : Parallel E R) (below : InStepBelow E R ev ev')
    (special : ∀ form, InStep E R
      (traceEvent fun m => .special m.depth (m.store.viewSeq form))
      (traceEvent fun m => .special m.depth (m.store.viewSeq form)))
    (c : Nat) : InStep (E ·.2) R (evalList ev c) (evalList ev' c) :=
  p.abreast_evalListBy below (p.inStep_callBuiltin below.expr) special c

/-- One layer of evaluation on related machines, where lists are in step and a name that is
evaluated has the same value. -/
theorem evalLayer_alike (p : Parallel E R) (h : R m n) (x : Node)
    (lists : ∀ c, x = .list c → AlikeUnless (E ·.2) R (evalList ev c m) (evalList ev' c n))
    (found : ∀ name, x = .symbol name → n.scopes.find? name = m.scopes.find? name) :
    AlikeUnless (E ·.2) R (evalLayer ev x m) (evalLayer ev' x n) := by
  rw [← evalLayerBy_callBuiltin, ← evalLayerBy_callBuiltin]
  exact p.evalLayerBy_matched h x lists found

end Machine.Parallel

/-- An action against itself, from the same machine. -/
theorem Abreast.refl {E : ε → Prop} (a : EStateM ε Machine α) :
    InStep E (fun m n => n = m) a a := by
  rintro m n rfl
  refine .inr ?_
  cases a n with
  | ok v m' => exact .ok v rfl
  | error e m' => exact .error e rfl

theorem Matched.eq {r s : EStateM.Result ε Machine α} (h : Alike (fun m n => n = m) r s) :
    s = r := by
  cases h with
  | ok v h => rw [h]
  | error e h => rw [h]

/-- A layer is the same with another way to call builtins, unless the first way fails where the
other is not the same. -/
theorem evalLayerBy_congr {E : Halt → Prop} {call call' : Caller}
    (hcall : ∀ name form m, Fails E (call name form m) ∨ call' name form m = call name form m)
    (ev : Evaluator) (x : Node) (m : Machine) : Fails (E ·.2) (evalLayerBy call ev x m) ∨
      evalLayerBy call' ev x m = evalLayerBy call ev x m := by
  have called (name : Name) (form : List Node) :
      InStep E (fun m n => n = m) (call name form) (call' name form) := by
    rintro m n rfl
    refine (hcall name form n).elim .inl fun e => ?_
    rw [e]
    exact Abreast.refl (call name form) n n rfl
  have layer : InStep (E ·.2) (fun m n => n = m) (evalLayerBy call ev x)
      (evalLayerBy call' ev x) := by
    cases x with
    | int _ | bool _ | symbol _ | quote _ | lambda _ _ _ | builtin _ => exact .refl _
    | list c =>
        refine .get_bind (by rintro m n rfl; rfl) fun m => ?_
        dsimp only
        split
        · exact .refl _
        · split
          · exact .refl _
          · refine .bind (.refl _) fun c' => .bind (.refl _) fun _ => ?_
            refine .get_bind (by rintro m n rfl; rfl) fun m => ?_
            dsimp only
            split
            · exact .refl _
            · exact (called _ _).leaving _
            · exact .refl _
  exact (layer m m rfl).imp_right Matched.eq

/-- Related machines have the same scopes, and frames and the trace keep them related. -/
structure Machine.Twin (E : Halt → Prop) (R : Machine → Machine → Prop) : Prop extends
    Machine.Parallel E R where
  scopes {m n : Machine} : R m n → n.scopes = m.scopes
  setScopes {m n : Machine} : R m n → ∀ s, R { m with scopes := s } { n with scopes := s }
  trace {m n : Machine} : R m n → ∀ e : Event, e.trace?.isSome →
    R (if m.tracing then m.log e else m) (if n.tracing then n.log e else n)

namespace Machine.Twin

variable {E : Halt → Prop} {ev ev' : Evaluator} {m n : Machine}

theorem depth (t : Twin E R) (h : R m n) : n.depth = m.depth :=
  congrArg Scopes.depth (t.scopes h)

theorem push (t : Twin E R) (h : R m n) (f : Frame) : R (m.push f).1 (n.push f).1 := by
  have hp := t.setScopes h (m.scopes.push f).1
  rw [Machine.push, Machine.push, t.scopes h]
  exact hp

theorem truncate (t : Twin E R) (h : R m n) (size : Nat) :
    R (m.truncate size) (n.truncate size) := by
  have hs := t.setScopes h (m.scopes.truncate size).1
  have ht := t.setStore hs ((m.scopes.truncate size).2.foldl Store.dropFrame m.store)
  rw [Machine.truncate, Machine.truncate, t.scopes h, t.store h]
  exact ht

theorem inStep_trace (t : Twin E R) {f : Machine → Event} (traced : ∀ m, (f m).trace?.isSome)
    (same : ∀ m n, R m n → f n = f m) : InStep E R (traceEvent f) (traceEvent f) :=
  .modify fun m n h => by
    rw [same m n h]
    exact t.trace h (f m) (traced m)

theorem inStep_enter (t : Twin E R) (hev : ∀ x, InStep (E ·.2) R (ev x) (ev' x))
    (names : List Name) (values : List Node) (k : Nat) :
    InStep E R (enter ev names values k) (enter ev' names values k) := by
  refine .bind (t.inStep_trace (fun _ => rfl) fun m n h => ?_) fun _ m n h => ?_
  · rw [t.depth h, t.store h]
  · refine Parallel.withFrame_alike (t.abreast_body hev k _ _ (t.push h _)) fun m' n' h' => ?_
    rw [t.scopes h]
    exact t.truncate h' _

theorem inStepBelow (t : Twin E R) (hev : ∀ x, InStep (E ·.2) R (ev x) (ev' x)) :
    InStepBelow E R ev ev' :=
  ⟨hev, t.inStep_enter hev⟩

theorem inStep_evalLayer (t : Twin E R) (hev : ∀ x, InStep (E ·.2) R (ev x) (ev' x)) (x : Node) :
    InStep (E ·.2) R (evalLayer ev x) (evalLayer ev' x) := by
  refine fun m n h => t.evalLayer_alike h x (fun c _ => ?_) fun name _ => by rw [t.scopes h]
  refine t.inStep_evalList (t.inStepBelow hev) (fun form => ?_) c m n h
  exact t.inStep_trace (fun _ => rfl) fun m n h => by rw [t.depth h, t.store h]

theorem inStep_evaluate (t : Twin E R) (fuel : Nat) (x : Node) :
    InStep (E ·.2) R (evaluate fuel x) (evaluate fuel x) := by
  induction fuel generalizing x with
  | zero => exact .throw id _
  | succ fuel ih => exact t.inStep_evalLayer ih x

theorem inStep_evalDatum (t : Twin E R) (fuel : Nat) (d : Datum) :
    InStep E R (Machine.evalDatum fuel d) (Machine.evalDatum fuel d) :=
  .bind (t.abreast_storeGet _) fun x => t.abreast_evalCopy (t.inStep_evaluate fuel) x

theorem inStep_apply (t : Twin E R) (fuel : Nat) (f : Node) (args : List Node) :
    InStep E R (Machine.apply fuel f args) (Machine.apply fuel f args) := by
  cases f with
  | lambda b p k =>
      exact t.abreast_applyLambda (t.inStepBelow (t.inStep_evaluate fuel)) b p k args
  | int _ | bool _ | symbol _ | quote _ | list _ | builtin _ =>
      exact .get_bind (fun m n h => by rw [t.view h, t.store h]) fun m => .fail id _

end Machine.Twin

end CellScheme
