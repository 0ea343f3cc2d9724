import CellScheme.Proofs.Evaluation.Passing

/-!
Raising the limit of the depth. The limit is only read before a call, and a call that fails on its
account ends the whole evaluation, so an evaluation that does not fail so does not depend on it.
-/

namespace CellScheme

/-- Evaluation stopped at a call that was too deep. -/
def Halt.isTooDeep : Halt → Bool
  | .failed (.runtime (.tooDeep _)) => true
  | _ => false

namespace Machine

def withLimit (m : Machine) (limit : Int) : Machine :=
  { m with limit }

/-- Exchange one limit for another. -/
def relimit (old new : Int) (m : Machine) : Machine :=
  if m.limit = old then m.withLimit new else m

variable {old new : Int} {m : Machine}

theorem relimit_of_eq (h : m.limit = old) : m.relimit old new = m.withLimit new :=
  if_pos h

theorem relimit_of_ne (h : m.limit ≠ old) : m.relimit old new = m :=
  if_neg h

/-- What leaves the limit alone and does not look at it may be done before the exchange or after. -/
theorem relimit_comm {f : Machine → Machine} (hl : ∀ m, (f m).limit = m.limit)
    (hf : ∀ (m : Machine) limit, f (m.withLimit limit) = (f m).withLimit limit) (m : Machine) :
    (f m).relimit old new = f (m.relimit old new) := by
  by_cases h : m.limit = old
  · rw [relimit_of_eq h, relimit_of_eq ((hl m).trans h), hf]
  · rw [relimit_of_ne h, relimit_of_ne (fun e => h ((hl m).symm.trans e))]

theorem foldl_log_withLimit (e : String → Event) (hooks : List String) (m : Machine)
    (limit : Int) : hooks.foldl (fun m hook => m.log (e hook)) (m.withLimit limit) =
      (hooks.foldl (fun m hook => m.log (e hook)) m).withLimit limit := by
  induction hooks generalizing m with
  | nil => rfl
  | cons hook hooks ih => exact ih (m.log (e hook))

theorem foldl_log_limit (e : String → Event) (hooks : List String) (m : Machine) :
    (hooks.foldl (fun m hook => m.log (e hook)) m).limit = m.limit := by
  induction hooks generalizing m with
  | nil => rfl
  | cons hook hooks ih => exact ih (m.log (e hook))

theorem relimit_same {α : Type} (f : Machine → α)
    (hf : ∀ (m : Machine) limit, f (m.withLimit limit) = f m) (m : Machine) :
    f (m.relimit old new) = f m := by
  by_cases h : m.limit = old
  · rw [relimit_of_eq h, hf]
  · rw [relimit_of_ne h]

theorem unseen_relimit (old new : Int) : Unseen (relimit old new) where
  store := relimit_same _ fun _ _ => rfl
  scopes := relimit_same _ fun _ _ => rfl
  builtins := relimit_same _ fun _ _ => rfl
  setStore m st := relimit_comm (f := fun m => { m with store := st }) (fun _ => rfl)
    (fun _ _ => rfl) m
  setScopes m s := relimit_comm (f := fun m => { m with scopes := s }) (fun _ => rfl)
    (fun _ _ => rfl) m
  define m name x := relimit_comm (f := (·.define name x)) (fun _ => rfl) (fun _ _ => rfl) m
  trace m e _ := by
    refine relimit_comm (f := fun m => if m.tracing then m.log e else m) (fun m => ?_)
      (fun m limit => ?_) m
    · split <;> rfl
    · by_cases ht : m.tracing = true
      · rw [if_pos ht]
        exact if_pos ht
      · rw [if_neg ht]
        exact if_neg ht
  hooksBefore m e _ :=
    relimit_comm (f := fun m => m.before.foldl (fun m hook => m.log (e hook)) m)
      (fun m => foldl_log_limit e m.before m) (fun m => foldl_log_withLimit e m.before m) m
  hooksAfter m e _ :=
    relimit_comm (f := fun m => m.after.foldl (fun m hook => m.log (e hook)) m)
      (fun m => foldl_log_limit e m.after m) (fun m => foldl_log_withLimit e m.after m) m

theorem relaxed_relimit (h : new ≤ 0 ∨ 0 < old ∧ old ≤ new) :
    Relaxed (·.isTooDeep) (relimit old new) where
  toUnseen := unseen_relimit old new
  deep m := by
    by_cases hm : m.limit = old
    · refine .inr ⟨fun hd => ?_, fun _ => rfl⟩
      rw [relimit_of_eq hm] at hd
      obtain ⟨hpos, hlt⟩ : 0 < new ∧ new < m.depth := hd
      rw [TooDeep, hm]
      omega
    · exact .inl (by rw [relimit_of_ne hm])

end Machine

section

variable {ε α : Type} {E : ε → Prop} {a : EStateM ε Machine α}
  (ha : ∀ {φ : Machine → Machine}, Machine.Relaxed (·.isTooDeep) φ → PassesUnless E φ a)

include ha

/-- The limit is kept. If it became another one, that one could be exchanged: the machine before is
not affected, but the machine after would be. -/
theorem limit_eq_of_passes {m m' : Machine} (hd : ¬ Fails E (a m))
    (hm' : ∀ φ, a m = carry φ (a m) → φ m' = m') : m'.limit = m.limit := by
  by_contra hne
  obtain ⟨n, hn, hn'⟩ : ∃ n : Int, n ≤ 0 ∧ n ≠ m'.limit := by
    by_cases h0 : m'.limit = 0
    · exact ⟨-1, by omega, by omega⟩
    · exact ⟨0, le_rfl, fun e => h0 e.symm⟩
  have relaxed : Machine.Relaxed (·.isTooDeep) (Machine.relimit m'.limit n) :=
    Machine.relaxed_relimit (.inl hn)
  have hp := (ha relaxed m).resolve_left hd
  rw [Machine.relimit_of_ne (fun e => hne e.symm)] at hp
  have hsame := hm' _ hp
  rw [Machine.relimit_of_eq rfl] at hsame
  exact hn' (congrArg Machine.limit hsame)

theorem carry_relimit {m : Machine} (new : Int) (hd : ¬ Fails E (a m)) :
    carry (Machine.relimit m.limit new) (a m) = carry (·.withLimit new) (a m) := by
  cases hr : a m with
  | ok v m' =>
      have hl : m'.limit = m.limit := limit_eq_of_passes ha hd fun φ h => by
        rw [hr] at h
        exact (EStateM.Result.ok.inj h).2.symm
      rw [carry, Machine.relimit_of_eq hl]
      rfl
  | error e m' =>
      have hl : m'.limit = m.limit := limit_eq_of_passes ha hd fun φ h => by
        rw [hr] at h
        exact (EStateM.Result.error.inj h).2.symm
      rw [carry, Machine.relimit_of_eq hl]
      rfl

theorem withLimit_of_passes (m : Machine) {old new : Int} (h : new ≤ 0 ∨ 0 < old ∧ old ≤ new)
    (hd : ¬ Fails E (a (m.withLimit old))) :
    a (m.withLimit new) = carry (·.withLimit new) (a (m.withLimit old)) := by
  have hp := (ha (Machine.relaxed_relimit h) (m.withLimit old)).resolve_left hd
  have hc := carry_relimit ha new hd
  have hm : (m.withLimit old).limit = old := rfl
  rw [Machine.relimit_of_eq hm] at hp
  exact hp.trans hc

end

theorem Machine.Relaxed.passes_evalText {E : Halt → Prop} {φ : Machine → Machine}
    (h : Relaxed E φ) (fuel : Nat) (text : String) :
    PassesUnless E φ (Machine.evalText fuel text) :=
  .bind (.ofExcept _) fun _ => .bind (h.passes_storeGet _) fun x =>
    h.passes_evalCopy (h.passes_evaluate fuel) x

/-- An evaluation under a positive limit that does not fail because a call is too deep is the same
under every greater limit and under none: the same value or the same failure, which leaves the same
in the place, and the same machine but for the limit, that is the same bindings, cells, counts and
defined names, whatever the machine, the expression and the fuel. -/
theorem evaluate_withLimit (m : Machine) {low high : Int} (hlow : 0 < low)
    (hhigh : high = 0 ∨ low ≤ high) (fuel : Nat) :
    (∀ x, ¬ Fails (·.2.isTooDeep) (evaluate fuel x (m.withLimit low)) →
      evaluate fuel x (m.withLimit high) =
        carry (·.withLimit high) (evaluate fuel x (m.withLimit low))) ∧
    (∀ x, ¬ Fails (·.isTooDeep) (Machine.eval fuel x (m.withLimit low)) →
      Machine.eval fuel x (m.withLimit high) =
        carry (·.withLimit high) (Machine.eval fuel x (m.withLimit low))) ∧
    ∀ text, ¬ Fails (·.isTooDeep) (Machine.evalText fuel text (m.withLimit low)) →
      Machine.evalText fuel text (m.withLimit high) =
        carry (·.withLimit high) (Machine.evalText fuel text (m.withLimit low)) := by
  have hraise : high ≤ 0 ∨ 0 < low ∧ low ≤ high := by omega
  refine ⟨fun x hd => ?_, fun x hd => ?_, fun text hd => ?_⟩
  · exact withLimit_of_passes (fun h => h.passes_evaluate fuel x) m hraise hd
  · exact withLimit_of_passes (fun h => h.passes_evalCopy (h.passes_evaluate fuel) x) m hraise hd
  · exact withLimit_of_passes (fun h => h.passes_evalText fuel text) m hraise hd

/-- The smallest limit allows one call. -/
theorem evaluate_withLimit_call :
    ¬ Fails (·.isTooDeep)
        (Machine.evalText 4 "((lambda (x) x) 7)" (Machine.blank.withLimit 1)) ∧
      Machine.evalText 4 "((lambda (x) x) 7)" (Machine.blank.withLimit 0) =
        carry (·.withLimit 0)
          (Machine.evalText 4 "((lambda (x) x) 7)" (Machine.blank.withLimit 1)) := by
  have hd : ¬ Fails (·.isTooDeep)
      (Machine.evalText 4 "((lambda (x) x) 7)" (Machine.blank.withLimit 1)) := by
    decide +kernel
  exact ⟨hd, (evaluate_withLimit .blank (by decide) (.inl rfl) 4).2.2 _ hd⟩

end CellScheme
