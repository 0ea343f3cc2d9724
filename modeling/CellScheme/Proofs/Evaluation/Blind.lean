import CellScheme.Proofs.Evaluation.Passing

/-!
Changes of the machine that evaluation does not see. Such a change may be made before or after an
evaluation: the outcome is the same.
-/

namespace CellScheme

/-- Evaluation reads nothing that the change affects, and its own changes pass through it. -/
structure Machine.Blind (φ : Machine → Machine) : Prop extends Machine.Unseen φ where
  limit : ∀ m, (φ m).limit = m.limit

variable {φ : Machine → Machine} {ε α β : Type}

/-- The change may be made before the action or after it. -/
def Passes (φ : Machine → Machine) (a : EStateM ε Machine α) : Prop :=
  ∀ m, a (φ m) = carry φ (a m)

theorem passes_iff {a : EStateM ε Machine α} :
    Passes φ a ↔ PassesUnless (fun _ => False) φ a :=
  ⟨fun h m => .inr (h m), fun h m => (h m).resolve_left (fails_false _)⟩

theorem Passes.ofExcept (e : Except Failure α) : Passes φ (Act.ofExcept e) :=
  passes_iff.mpr (.ofExcept e)

theorem Passes.bind {a : EStateM ε Machine α} {f : α → EStateM ε Machine β} (ha : Passes φ a)
    (hf : ∀ v, Passes φ (f v)) : Passes φ (a >>= f) :=
  passes_iff.mpr (.bind (passes_iff.mp ha) fun v => passes_iff.mp (hf v))

namespace Machine.Blind

/-- No failure is excepted. -/
theorem relaxed (h : Blind φ) : Relaxed (fun _ => False) φ :=
  ⟨h.toUnseen, fun m => .inl (h.limit m)⟩

theorem passes_storeGet (h : Blind φ) (f : Store → Store × α) : Passes φ (Act.storeGet f) :=
  passes_iff.mpr (h.relaxed.passes_storeGet f)

variable {ev : Evaluator}

theorem passes_evalCopy (h : Blind φ) (hev : ∀ x, Passes φ (ev x)) (x : Node) :
    Passes φ (Act.evalCopy ev x) :=
  passes_iff.mpr (h.relaxed.passes_evalCopy (fun y => passes_iff.mp (hev y)) x)

theorem passes_native (h : Blind φ) (hev : ∀ x, Passes φ (ev x)) (n : Native) (name : Name)
    (form : List Node) : Passes φ (n.run ev name form) :=
  passes_iff.mpr (h.relaxed.passes_native (fun y => passes_iff.mp (hev y)) n name form)

/-- A change that evaluation does not see may be made before it or after it. -/
theorem passes_evaluate (h : Blind φ) (fuel : Nat) (x : Node) : Passes φ (evaluate fuel x) :=
  passes_iff.mpr (h.relaxed.passes_evaluate fuel x)

theorem passes_evalDatum (h : Blind φ) (fuel : Nat) (d : Datum) :
    Passes φ (Machine.evalDatum fuel d) :=
  .bind (h.passes_storeGet _) fun x => h.passes_evalCopy (h.passes_evaluate fuel) x

theorem passes_evalText (h : Blind φ) (fuel : Nat) (text : String) :
    Passes φ (Machine.evalText fuel text) :=
  .bind (.ofExcept _) fun d => h.passes_evalDatum fuel d

end Machine.Blind

end CellScheme
