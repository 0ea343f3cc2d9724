import CellScheme.Proofs.Evaluation.Paired

/-!
Changes of the machine that evaluation passes on. Such a change may be made before an evaluation or
after it: the outcome is the same, unless the evaluation without the change fails in a way that the
change may prevent. The run after the change is in step with the run before it.
-/

namespace CellScheme

/-- Evaluation reads nothing that the change affects but the limit, and its own changes pass through
it. What is logged is known to have a trace line, or to be a call of a hook, which has none. -/
structure Machine.Unseen (φ : Machine → Machine) : Prop where
  store : ∀ m, (φ m).store = m.store
  scopes : ∀ m, (φ m).scopes = m.scopes
  builtins : ∀ m, (φ m).builtins = m.builtins
  setStore : ∀ m st, φ { m with store := st } = { φ m with store := st }
  setScopes : ∀ m s, φ { m with scopes := s } = { φ m with scopes := s }
  define : ∀ m name x, φ (m.define name x) = (φ m).define name x
  trace : ∀ m (e : Event), e.trace?.isSome → φ (if m.tracing then m.log e else m) =
    if (φ m).tracing then (φ m).log e else φ m
  hooksBefore : ∀ m (e : String → Event), (∀ hook, (e hook).trace? = none) →
    φ (m.before.foldl (fun m hook => m.log (e hook)) m) =
      (φ m).before.foldl (fun m hook => m.log (e hook)) (φ m)
  hooksAfter : ∀ m (e : String → Event), (∀ hook, (e hook).trace? = none) →
    φ (m.after.foldl (fun m hook => m.log (e hook)) m) =
      (φ m).after.foldl (fun m hook => m.log (e hook)) (φ m)

/-- The change keeps the limit, or it makes no call too deep, and the failure of a call that was too
deep is one of those excepted. -/
structure Machine.Relaxed (E : Halt → Prop) (φ : Machine → Machine) : Prop extends
    Machine.Unseen φ where
  deep : ∀ m, (φ m).limit = m.limit ∨
    ((φ m).TooDeep → m.TooDeep) ∧ (m.TooDeep → E (.failed (.runtime (.tooDeep m.limit))))

variable {φ : Machine → Machine} {ε α β : Type}

/-- The outcome with the machine changed. -/
def carry (φ : Machine → Machine) :
    EStateM.Result ε Machine α → EStateM.Result ε Machine α
  | .ok v m => .ok v (φ m)
  | .error e m => .error e (φ m)

/-- The change may be made before the action or after it, unless the action fails in one of these
ways. -/
def PassesUnless (E : ε → Prop) (φ : Machine → Machine) (a : EStateM ε Machine α) : Prop :=
  ∀ m, Fails E (a m) ∨ a (φ m) = carry φ (a m)

theorem alike_iff {r s : EStateM.Result ε Machine α} :
    Alike (fun m n => n = φ m) r s ↔ s = carry φ r := by
  refine ⟨fun h => ?_, fun h => ?_⟩
  · cases h with
    | ok v h => rw [h, carry]
    | error e h => rw [h, carry]
  · subst h
    cases r with
    | ok v m => exact .ok v rfl
    | error e m => exact .error e rfl

/-- A change that makes related machines the same makes outcomes the same that are alike. -/
theorem Matched.carry_eq {R : Machine → Machine → Prop}
    {r s : EStateM.Result ε Machine α} (h : Alike R r s) (hφ : ∀ m n, R m n → φ n = φ m) :
    carry φ s = carry φ r := by
  cases h with
  | ok v h => rw [carry, carry, hφ _ _ h]
  | error e h => rw [carry, carry, hφ _ _ h]

theorem carry_carry (φ ψ : Machine → Machine) (r : EStateM.Result ε Machine α) :
    carry φ (carry ψ r) = carry (φ ∘ ψ) r := by
  cases r <;> rfl

theorem passesUnless_iff {E : ε → Prop} {a : EStateM ε Machine α} :
    PassesUnless E φ a ↔ InStep E (fun m n => n = φ m) a a := by
  refine ⟨fun h m n hn => ?_, fun h m => ?_⟩
  · subst hn
    exact (h m).imp_right alike_iff.mpr
  · exact (h m (φ m) rfl).imp_right alike_iff.mp

namespace PassesUnless

theorem bind {E : ε → Prop} {a : EStateM ε Machine α} {f : α → EStateM ε Machine β}
    (ha : PassesUnless E φ a) (hf : ∀ v, PassesUnless E φ (f v)) : PassesUnless E φ (a >>= f) :=
  passesUnless_iff.mpr (.bind (passesUnless_iff.mp ha) fun v => passesUnless_iff.mp (hf v))

theorem ofExcept {E : Halt → Prop} (e : Except Failure α) : PassesUnless E φ (Act.ofExcept e) :=
  passesUnless_iff.mpr (.ofExcept id e)

end PassesUnless

/-- Every expression below the current one passes the change on. -/
def PassesBelow (E : Halt → Prop) (φ : Machine → Machine) (ev : Evaluator) : Prop :=
  ∀ x, PassesUnless (E ·.2) φ (ev x)

theorem foldl_log_const {e : Machine → String → Event}
    (same : ∀ m hook d, e (m.log d) hook = e m hook) (hooks : List String) (m n : Machine)
    (hn : ∀ hook, e n hook = e m hook) :
    hooks.foldl (fun n hook => n.log (e n hook)) n =
      hooks.foldl (fun n hook => n.log (e m hook)) n := by
  induction hooks generalizing n with
  | nil => rfl
  | cons hook hooks ih =>
      simp only [List.foldl_cons, hn]
      exact ih _ fun other => (same n other _).trans (hn other)

namespace Machine.Relaxed

variable {E : Halt → Prop} {ev : Evaluator}

theorem view (h : Relaxed E φ) (m : Machine) : (φ m).view = m.view := by
  funext x
  rw [Machine.view, Machine.view, h.store]

theorem depth (h : Relaxed E φ) (m : Machine) : (φ m).depth = m.depth := by
  rw [Machine.depth, Machine.depth, h.scopes]

theorem twin (h : Relaxed E φ) : Twin E fun m n => n = φ m where
  store hn := by rw [hn, h.store]
  setStore {m n} hn st := by
    subst hn
    exact (h.setStore m st).symm
  define hn name x := by rw [hn, h.define]
  builtins hn name := .inl (by rw [hn, h.builtins])
  deep {m n} hn := by
    subst hn
    exact (h.deep m).imp_left fun hl => ⟨hl, h.depth m⟩
  before {m n} hn name form := by
    subst hn
    rw [foldl_log_const (fun _ _ _ => rfl) _ m m fun _ => rfl,
      foldl_log_const (fun _ _ _ => rfl) _ (φ m) (φ m) fun _ => rfl, h.store, h.depth]
    exact (h.hooksBefore m _ fun _ => rfl).symm
  after {m n} hn name x := by
    subst hn
    rw [foldl_log_const (fun _ _ _ => rfl) _ m m fun _ => rfl,
      foldl_log_const (fun _ _ _ => rfl) _ (φ m) (φ m) fun _ => rfl, h.view, h.depth]
    exact (h.hooksAfter m _ fun _ => rfl).symm
  scopes hn := by rw [hn, h.scopes]
  setScopes {m n} hn s := by
    subst hn
    exact (h.setScopes m s).symm
  trace hn e he := by rw [hn, h.trace _ e he]

theorem passes_storeGet (h : Relaxed E φ) (f : Store → Store × α) :
    PassesUnless E φ (Act.storeGet f) :=
  passesUnless_iff.mpr (h.twin.abreast_storeGet f)

theorem passes_evalCopy (h : Relaxed E φ) (hev : PassesBelow E φ ev) (x : Node) :
    PassesUnless E φ (Act.evalCopy ev x) :=
  passesUnless_iff.mpr (h.twin.abreast_evalCopy (fun x => passesUnless_iff.mp (hev x)) x)

theorem passes_native (h : Relaxed E φ) (hev : PassesBelow E φ ev) (n : Native) (name : Name)
    (form : List Node) : PassesUnless E φ (n.run ev name form) :=
  passesUnless_iff.mpr
    (h.twin.abreast_native (fun x => passesUnless_iff.mp (hev x)) n name form)

/-- A change that evaluation does not see may be made before it or after it. -/
theorem passes_evaluate (h : Relaxed E φ) (fuel : Nat) (x : Node) :
    PassesUnless (E ·.2) φ (evaluate fuel x) :=
  passesUnless_iff.mpr (h.twin.inStep_evaluate fuel x)

theorem passes_apply (h : Relaxed E φ) (fuel : Nat) (f : Node) (args : List Node) :
    PassesUnless E φ (Machine.apply fuel f args) :=
  passesUnless_iff.mpr (h.twin.inStep_apply fuel f args)

end Machine.Relaxed

end CellScheme
