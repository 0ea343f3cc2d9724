import CellScheme.Proofs.Evaluation.Call
import CellScheme.Proofs.Text.Utf8

/-!
Calls of builtins by name, on trees. The procedure that stands for a builtin binds its arguments to
its parameters and calls the builtin with them, two layers below the call.
-/

namespace CellScheme

theorem Name.ofString_injective : Function.Injective Name.ofString := by
  intro s t h
  have chars (s : String) : (Name.ofString s).chars = s.toList := by
    rw [Name.chars, Name.ofString, Text.decodeUtf8, Text.glyphs_utf8, List.map_map]
    exact List.map_id _
  rw [← String.toList_inj, ← chars s, ← chars t, h]

theorem Text.natText_injective : Function.Injective natText := by
  intro m n h
  have digits (n : Nat) : Nat.ofDigitChars 10 (natText n).toList 0 = n := by
    rw [natText, String.toList_ofList, natChars, Nat.ofDigitChars_ten_toDigits]
  rw [← digits m, ← digits n, h]

theorem Machine.nodup_builtinParams (arity : Nat) : (builtinParams arity).Nodup := by
  refine List.nodup_range.map fun i j h => ?_
  have hs := Name.ofString_injective h
  have ht := Text.natText_injective (String.append_right_inj _ |>.mp hs)
  omega

namespace Tree

/-- A call gives a tree or fails, and the world stays as it is. -/
def World.result (w : World) : Except Failure Datum → EStateM.Result Halt World Datum
  | .ok d => .ok d w
  | .error f => .error (.failed f) w

/-- With this much fuel, or more, the expression has that result. -/
def World.Yields (w : World) (fuel : Nat) (e : Datum) (r : Except Failure Datum) : Prop :=
  ∀ more, evaluate (fuel + more) e w = w.result r

/-- The name stands for the builtin that is registered under it. -/
structure World.Stands (w : World) (name : Name) (b : Builtin) : Prop where
  bound : w.find? name = some (Machine.builtinDatum name b.arity)
  registered : w.builtins.find? name = some b

variable {w : World} {params : List Name} {args es vs : List Datum}

theorem evalAll_eq_ok {ev : Evaluator} (h : List.Forall₂ (fun e v => ev e w = .ok v w) es vs) :
    evalAll ev es w = .ok vs w := by
  induction h with
  | nil => rfl
  | cons he _ ih =>
      rw [evalAll, Act.bind_ok he, Act.bind_ok ih]
      rfl

theorem evaluate_symbol {n : Name} {v : Datum} (h : w.find? n = some v) (fuel : Nat) :
    evaluate (fuel + 1) (.symbol n) w = .ok v w := by
  simp only [evaluate, evalLayer, Act.get_bind, h]
  rfl

theorem withFrame_congr {f : Named Datum} {a a' : Act Datum}
    (h : a { w with inner := f :: w.inner } = a' { w with inner := f :: w.inner }) :
    withFrame f a w = withFrame f a' w := by
  rw [withFrame, withFrame, h]

theorem evalAll_params (hp : params.Nodup) (hlen : params.length = args.length) (w : World)
    (fuel : Nat) :
    evalAll (evaluate (fuel + 1)) (params.map .symbol)
        { w with inner := bindParams params args :: w.inner } =
      .ok args { w with inner := bindParams params args :: w.inner } := by
  apply evalAll_eq_ok
  rw [List.forall₂_map_left_iff, List.forall₂_iff_zip]
  refine ⟨hlen, fun {n v} hm => evaluate_symbol ?_ fuel⟩
  have found : (bindParams params args).find? n = some v := by
    rw [find?_bindParams]
    exact Named.lookup_zip_of_mem hp hlen.le hm
  simp [World.find?, found]

namespace World.Stands

variable {name : Name} {b : Builtin}

theorem evaluate_body (hs : w.Stands name b) (hlen : vs.length = b.arity) (fuel : Nat) :
    withFrame (bindParams (Machine.builtinParams b.arity) vs)
        (evaluate (fuel + 2)
          (.list (.builtin name :: (Machine.builtinParams b.arity).map .symbol))) w =
      withFrame (bindParams (Machine.builtinParams b.arity) vs)
        (runNative (evaluate (fuel + 1)) b.native name (.builtin name :: vs)) w := by
  have params : (Machine.builtinParams b.arity).length = vs.length := by
    rw [Machine.builtinParams, List.length_map, List.length_range, hlen]
  have all := evalAll_params (Machine.nodup_builtinParams b.arity) params w fuel
  apply withFrame_congr
  obtain ⟨w', hw, registered⟩ : ∃ w' : World,
      { w with inner := bindParams (Machine.builtinParams b.arity) vs :: w.inner } = w' ∧
        w'.builtins.find? name = some b := ⟨_, rfl, hs.registered⟩
  rw [hw] at all ⊢
  have form : evalAll (evaluate (fuel + 1))
      (.builtin name :: (Machine.builtinParams b.arity).map .symbol) w' =
        .ok (.builtin name :: vs) w' := by
    have head : evaluate (fuel + 1) (.builtin name) w' = .ok (.builtin name) w' := rfl
    rw [evalAll, Act.bind_ok head, Act.bind_ok all]
    rfl
  calc evaluate (fuel + 2)
        (.list (.builtin name :: (Machine.builtinParams b.arity).map .symbol)) w'
      = callBuiltin (evaluate (fuel + 1)) name (.builtin name :: vs) w' := Act.bind_ok form
    _ = runNative (evaluate (fuel + 1)) b.native name (.builtin name :: vs) w' := by
        rw [callBuiltin, Act.get_bind]
        simp only [registered]

/-- With arguments for all parameters the body runs in a frame that binds them. -/
theorem evaluate_enter (hs : w.Stands name b) (hdeep : ¬ (0 < w.limit ∧ w.limit < w.depth))
    (hform : SpecialForm.ofName? name = none) (hlen : vs.length = b.arity) {fuel : Nat}
    (hargs : List.Forall₂ (fun e v => evaluate (fuel + 1) e w = .ok v w) es vs) :
    evaluate (fuel + 2) (.list (.symbol name :: es)) w =
      withFrame (bindParams (Machine.builtinParams b.arity) vs)
        (evaluate (fuel + 1)
          (.list (.builtin name :: (Machine.builtinParams b.arity).map .symbol))) w := by
  have form : formOfHead? (.symbol name) = none := hform
  have all : evalAll (evaluate (fuel + 1)) (.symbol name :: es) w =
      .ok (Machine.builtinDatum name b.arity :: vs) w :=
    evalAll_eq_ok (.cons (evaluate_symbol hs.bound _) hargs)
  have missing : Datum.arity [] (Machine.builtinParams b.arity) = vs.length := by
    simp [Datum.arity, Machine.builtinParams, hlen]
  have none_missing : Datum.arity ([] ++ vs) (Machine.builtinParams b.arity) = 0 := by
    simp [Datum.arity, Machine.builtinParams, hlen]
  calc evaluate (fuel + 2) (.list (.symbol name :: es)) w
      = call (evaluate (fuel + 1)) (Machine.builtinDatum name b.arity :: vs) w := by
        rw [evaluate, evalLayer, evalList, form]
        exact Act.bind_ok all
    _ = _ := by
        rw [Machine.builtinDatum, call, apply_eq, if_neg (by omega), callBound, Act.get_bind,
          if_neg (not_not.mpr none_missing), if_neg hdeep]
        rfl

theorem evaluate_call (hs : w.Stands name b) (hdeep : ¬ (0 < w.limit ∧ w.limit < w.depth))
    (hform : SpecialForm.ofName? name = none) (hlen : vs.length = b.arity) {fuel : Nat}
    (hargs : List.Forall₂ (fun e v => evaluate (fuel + 2) e w = .ok v w) es vs) :
    evaluate (fuel + 3) (.list (.symbol name :: es)) w =
      withFrame (bindParams (Machine.builtinParams b.arity) vs)
        (runNative (evaluate (fuel + 1)) b.native name (.builtin name :: vs)) w :=
  (hs.evaluate_enter hdeep hform hlen hargs).trans (hs.evaluate_body hlen fuel)

/-- A builtin that has a result for the values of its arguments has it in a call by name. -/
theorem yields (hs : w.Stands name b) (hdeep : ¬ (0 < w.limit ∧ w.limit < w.depth))
    (hform : SpecialForm.ofName? name = none) (hlen : vs.length = b.arity) {fuel : Nat}
    (hargs : List.Forall₂ (fun e v => w.Yields (fuel + 2) e (.ok v)) es vs)
    {r : Except Failure Datum}
    (hr : ∀ ev w, runNative ev b.native name (.builtin name :: vs) w = w.result r) :
    w.Yields (fuel + 3) (.list (.symbol name :: es)) r := by
  intro more
  have args : List.Forall₂ (fun e v => evaluate (fuel + more + 2) e w = .ok v w) es vs :=
    hargs.imp fun e v h => Nat.add_right_comm fuel 2 more ▸ h more
  rw [Nat.add_right_comm, hs.evaluate_call hdeep hform hlen args, withFrame, hr]
  cases r <;> rfl

end World.Stands

end Tree

end CellScheme
