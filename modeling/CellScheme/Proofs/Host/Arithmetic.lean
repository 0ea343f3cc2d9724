import CellScheme.Proofs.Host.Lists
import CellScheme.Proofs.Reading.Integers
import Mathlib.Data.Int.ModEq

/-!
Integers from text to text. A decimal is read as the integer that it denotes, the builtins compute
the exact result up to multiples of 2 ^ 64, and what they give is printed as its canonical decimal.
Only division by zero fails.
-/

namespace CellScheme

open CellScheme.Tree (World)
open Grammar (Decimal Canonical)

/-- The 64-bit integer that differs from this integer by a multiple of 2 ^ 64; there is no other. -/
def Wraps (i : Int) (v : Int64) : Prop :=
  v.toInt ≡ i [ZMOD 2 ^ 64] ∧ ∀ u : Int64, u.toInt ≡ i [ZMOD 2 ^ 64] → u = v

namespace Wraps

variable {i : Int} {v : Int64}

theorem of_bmod (h : v.toInt = i.bmod (2 ^ 64)) : Wraps i v := by
  have congruent : v.toInt ≡ i [ZMOD 2 ^ 64] := by
    rw [h]
    exact Int.bmod_emod
  refine ⟨congruent, fun u hu => Int64.toInt_inj.mp ?_⟩
  have same : u.toInt.bmod (2 ^ 64) = v.toInt.bmod (2 ^ 64) := by
    rw [← Int.emod_bmod, ← Int.emod_bmod v.toInt]
    exact congrArg (Int.bmod · _) (hu.trans congruent.symm)
  exact u.toInt_bmod.symm.trans (same.trans v.toInt_bmod)

theorem add (a b : Int64) : Wraps (a.toInt + b.toInt) (a + b) :=
  of_bmod (Int64.toInt_add a b)

theorem sub (a b : Int64) : Wraps (a.toInt - b.toInt) (a - b) :=
  of_bmod (Int64.toInt_sub a b)

theorem mul (a b : Int64) : Wraps (a.toInt * b.toInt) (a * b) :=
  of_bmod (Int64.toInt_mul a b)

theorem div (a b : Int64) : Wraps (a.toInt.tdiv b.toInt) (a / b) :=
  of_bmod (Int64.toInt_div a b)

end Wraps

namespace Tree

section

variable (ev : Evaluator) (name : Name) (a b : Int64) (w : World)

theorem runNative_step (delta : Int64) :
    runNative ev (.step delta) name [.builtin name, .int a] w = w.result (.ok (.int (a + delta))) :=
  rfl

theorem runNative_arith (op : IntOp) :
    runNative ev (.arith op) name [.builtin name, .int a, .int b] w =
      w.result ((op.compute [.builtin name, .int a, .int b] a b).map .int) := by
  have checked : runNative ev (.arith op) name [.builtin name, .int a, .int b] w =
      runChecked ev (.arith op) [.builtin name, .int a, .int b] w := rfl
  rw [checked, runChecked]
  cases op.compute [.builtin name, .int a, .int b] a b with
  | ok v | error f => rfl

end

namespace World

/-- The builtins for integers stand under their names, and a call may begin. -/
structure HasIntegers (w : World) : Prop where
  add : w.Stands "+" ⟨2, .arith .add⟩
  sub : w.Stands "-" ⟨2, .arith .sub⟩
  mul : w.Stands "*" ⟨2, .arith .mul⟩
  div : w.Stands "/" ⟨2, .arith .div⟩
  succ : w.Stands "add1" ⟨1, .step 1⟩
  pred : w.Stands "sub1" ⟨1, .step (-1)⟩
  ready : ¬ (0 < w.limit ∧ w.limit < w.depth)

end World

end Tree

namespace Host

variable {h : Host}

def Computes (h : Host) (name : Name) (args : List Int64) (r : Except Failure Int64) : Prop :=
  ∀ es, List.Forall₂ (World.of h.machine).Operand es (args.map .int) → ∀ fuel,
    h.Gives (fuel + 3) (.list (.symbol name :: es)) (r.map .int) ∧
    ∀ text, Datum.parse text = .ok (.list (.symbol name :: es)) →
      (h.machine.run (Machine.evalPrint (fuel + 3) text)).1 =
        (r.map fun v => Text.intText v.toInt).mapError Halt.failed

theorem Sound.computes (hs : h.Sound) {name : Name} {b : Builtin}
    (stands : (World.of h.machine).Stands name b) (hb : b.native.looksAtStorage = false)
    (ready : ¬ (0 < (World.of h.machine).limit ∧
      (World.of h.machine).limit < (World.of h.machine).depth))
    (hform : SpecialForm.ofName? name = none) {args : List Int64} (hlen : args.length = b.arity)
    {r : Except Failure Int64} (hr : ∀ name, r ≠ .error (.runtime (.unknownBuiltin name)))
    (run : ∀ ev w, Tree.runNative ev b.native name (.builtin name :: args.map .int) w =
      w.result (r.map .int)) : h.Computes name args r := by
  intro es hes fuel
  have operands : List.Forall₂
      (fun e v => (World.of h.machine.spared).Yields 2 e (.ok v)) es (args.map .int) := by
    refine hes.imp fun e v he => ?_
    have he' : (World.of h.machine.spared).Operand e v := by
      cases he with
      | value hv => exact .value hv
      | name hn => exact .name hn
    exact World.yields_iff.mpr (he'.ends 1)
  have known : ∀ name, r.map Datum.int ≠ .error (.runtime (.unknownBuiltin name)) := by
    intro name
    cases r with
    | ok v => simp [Except.map]
    | error f => simpa [Except.map] using hr name
  have gives := hs.gives known ((stands.spared hb).yields ready hform (by simpa) operands run) fuel
  rw [Nat.add_comm] at gives
  refine ⟨gives, fun text ht => (gives.evalPrint ht).trans ?_⟩
  cases r <;> rfl

/-- In every state of a host where the builtins for integers stand under their names and a call may
begin. A decimal of any length is read as the integer that it denotes if that is in the range of 64
bits, and otherwise refused, alone and wherever it stands in a text; an integer is printed as its
only canonical decimal. For all integers, in the call or under a name, a call gives the one integer
that is congruent to the exact result modulo 2 ^ 64, the quotient being taken toward zero; division
fails exactly if it is by zero. Texts of calls with decimals are read as these calls however they
are laid out. -/
theorem integers_exact (table : Named Builtin) (limit : Int) (tracing : Bool)
    (before after : List String) (ops : List HostOp)
    (hn : (World.of
      ((start table limit tracing before after).performAll ops).machine).HasIntegers) :
    let h := (start table limit tracing before after).performAll ops
    (∀ cs i, Decimal cs i →
      (-2 ^ 63 ≤ i ∧ i < 2 ^ 63 →
        ∃ v : Int64, v.toInt = i ∧ Datum.parse (String.ofList cs) = .ok (.int v)) ∧
      (¬ (-2 ^ 63 ≤ i ∧ i < 2 ^ 63) →
        Datum.parse (String.ofList cs) =
          .error (.parse (.literalOutOfRange (String.ofList cs) 0)) ∧
        ∀ text p, Grammar.Run text.toList p cs → ∃ e, Datum.parseAll text = .error (.parse e))) ∧
    (∀ (v : Int64) cs, (Datum.int v).print = String.ofList cs ↔
      Canonical cs ∧ Decimal cs v.toInt) ∧
    (∀ a b : Int64,
      (∃ v, Wraps (a.toInt + b.toInt) v ∧ h.Computes "+" [a, b] (.ok v)) ∧
      (∃ v, Wraps (a.toInt - b.toInt) v ∧ h.Computes "-" [a, b] (.ok v)) ∧
      (∃ v, Wraps (a.toInt * b.toInt) v ∧ h.Computes "*" [a, b] (.ok v)) ∧
      (∃ v, Wraps (a.toInt + 1) v ∧ h.Computes "add1" [a] (.ok v)) ∧
      (∃ v, Wraps (a.toInt - 1) v ∧ h.Computes "sub1" [a] (.ok v)) ∧
      (b = 0 → h.Computes "/" [a, b]
        (.error (.runtime (.divisionByZero [.builtin "/", .int a, .int b])))) ∧
      (b ≠ 0 → ∃ v, Wraps (a.toInt.tdiv b.toInt) v ∧ h.Computes "/" [a, b] (.ok v))) ∧
    ∀ (w : List Char) (ls : List (List Char)) (vs : List Int64) (text : String),
      Grammar.Spelling w → List.Forall₂ (fun l v => Decimal l v.toInt) ls vs →
      Grammar.Cut text.toList (.opening :: (.word w :: ls.map .word ++ [.closing])) →
      Datum.parse text =
        .ok (.list (.symbol (Name.ofString (String.ofList w)) :: vs.map .int)) := by
  intro h
  have hs : h.Sound := (sound_start table limit tracing before after).performAll ops
  refine ⟨fun cs i hi => ⟨fun range => ?_, fun range => ⟨Datum.parse_decimal_outOfRange hi range,
    fun text p hp => Datum.parseAll_outOfRange hp hi range⟩⟩, fun v cs => ⟨fun hp => ?_, ?_⟩,
    fun a b => ⟨⟨_, .add a b, ?_⟩, ⟨_, .sub a b, ?_⟩, ⟨_, .mul a b, ?_⟩, ⟨_, .add a 1, ?_⟩,
      ⟨_, .add a (-1), ?_⟩, fun hb => ?_, fun hb => ⟨_, .div a b, ?_⟩⟩,
    fun w ls vs text hw hls cut => Datum.parse_call hw hls cut⟩
  · obtain ⟨v, rfl⟩ := Text.exists_int64 range
    exact ⟨v, rfl, Datum.parse_decimal hi⟩
  · obtain rfl : Text.intChars v.toInt = cs := String.ofList_injective hp
    exact ⟨Text.intChars_canonical _, Text.intChars_decimal _⟩
  · rintro ⟨hc, hd⟩
    exact congrArg String.ofList (hc.eq_intChars hd).symm
  · exact hs.computes hn.add rfl hn.ready rfl rfl (by simp) fun ev w =>
      Tree.runNative_arith ev _ a b w .add
  · exact hs.computes hn.sub rfl hn.ready rfl rfl (by simp) fun ev w =>
      Tree.runNative_arith ev _ a b w .sub
  · exact hs.computes hn.mul rfl hn.ready rfl rfl (by simp) fun ev w =>
      Tree.runNative_arith ev _ a b w .mul
  · exact hs.computes hn.succ rfl hn.ready rfl rfl (by simp) fun ev w =>
      Tree.runNative_step ev _ a w 1
  · exact hs.computes hn.pred rfl hn.ready rfl rfl (by simp) fun ev w =>
      Tree.runNative_step ev _ a w (-1)
  · refine hs.computes hn.div rfl hn.ready rfl rfl (by simp) fun ev w => ?_
    have failed : IntOp.div.compute [.builtin "/", .int a, .int b] a b =
        .error (.runtime (.divisionByZero [.builtin "/", .int a, .int b])) := if_pos hb
    exact (Tree.runNative_arith ev _ a b w .div).trans (by rw [failed])
  · refine hs.computes hn.div rfl hn.ready rfl rfl (by simp) fun ev w => ?_
    have quotient : IntOp.div.compute [.builtin "/", .int a, .int b] a b = .ok (a / b) := if_neg hb
    exact (Tree.runNative_arith ev _ a b w .div).trans (by rw [quotient])

/-- The only quotient that wraps, with the dividend under a name and no frame to spare. -/
theorem integers_exact_quotient :
    let table := Builtin.table [("+", ⟨2, .arith .add⟩), ("-", ⟨2, .arith .sub⟩),
      ("*", ⟨2, .arith .mul⟩), ("/", ⟨2, .arith .div⟩), ("add1", ⟨1, .step 1⟩),
      ("sub1", ⟨1, .step (-1)⟩)]
    let ops : List HostOp := [.step (.work (.build "n" (.int Int64.minValue))),
      .step (.define "x" "n")]
    let h := (start table 1 false [] []).performAll ops
    (World.of h.machine).HasIntegers ∧
      (h.machine.run (Machine.evalPrint 3 "(/ x -1)")).1 = .ok "-9223372036854775808" ∧
      (h.machine.run (Machine.evalPrint 3 "(/ x -0)")).1 =
        .error (.failed (.runtime (.divisionByZero
          [.builtin "/", .int Int64.minValue, .int 0]))) := by
  intro table ops h
  have hs : h.Sound := (sound_start table 1 false [] []).performAll ops
  have hn : (World.of h.machine).HasIntegers := by
    refine ⟨⟨?_, by decide +kernel⟩, ⟨?_, by decide +kernel⟩, ⟨?_, by decide +kernel⟩,
      ⟨?_, by decide +kernel⟩, ⟨?_, by decide +kernel⟩, ⟨?_, by decide +kernel⟩, ?_⟩
    · apply hs.machine.find?_builtin (b := 3) (p := 1) (k := 1) (c := 2) <;> decide +kernel
    · apply hs.machine.find?_builtin (b := 5) (p := 2) (k := 2) (c := 4) <;> decide +kernel
    · apply hs.machine.find?_builtin (b := 1) (p := 0) (k := 0) (c := 0) <;> decide +kernel
    · apply hs.machine.find?_builtin (b := 7) (p := 3) (k := 3) (c := 6) <;> decide +kernel
    · apply hs.machine.find?_builtin (b := 9) (p := 4) (k := 4) (c := 8) <;> decide +kernel
    · apply hs.machine.find?_builtin (b := 11) (p := 5) (k := 5) (c := 10) <;> decide +kernel
    · rw [World.depth_of]
      decide +kernel
  have hx : (World.of h.machine).Operand (.symbol "x") (.int Int64.minValue) := by
    have bound : h.machine.scopes.find? "x" = some (.int Int64.minValue) := by decide +kernel
    exact .name (by rw [World.find?_of, bound]; rfl)
  have quotients (b : Int64) := ((integers_exact table 1 false [] [] ops hn).2.2.1
    Int64.minValue b).2.2.2.2.2
  obtain ⟨v, wraps, computes⟩ := (quotients (-1)).2 (by decide)
  obtain rfl : Int64.minValue = v := wraps.2 _ (by decide)
  have one := (computes [.symbol "x", .int (-1)] (.cons hx (.cons (.value rfl) .nil)) 0).2
  have zero := ((quotients 0).1 rfl [.symbol "x", .int 0]
    (.cons hx (.cons (.value rfl) .nil)) 0).2
  exact ⟨hn, one "(/ x -1)" (by rfl), zero "(/ x -0)" (by rfl)⟩

end Host

end CellScheme
