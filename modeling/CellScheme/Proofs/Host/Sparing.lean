import CellScheme.Proofs.Evaluation.Passing
import CellScheme.Proofs.Host.Evaluation

/-!
Evaluation that spares the builtins which look at storage. A run calls none of them if it does not
fail for want of one on a machine from which they were taken. Such a run is the same with them and
without them, and without them it is a run on trees; so what holds on trees holds of it, though the
machine has those builtins.
-/

namespace CellScheme

open CellScheme.Tree (World)

/-- The builtin tells apart nodes that have the same tree. -/
def Native.looksAtStorage : Native → Bool
  | identical | equal => true
  | _ => false

theorem Named.lookup_filter {β : Type} (p : Name → Bool) (name : Name) (es : List (Name × β)) :
    lookup name (es.filter fun e => p e.1) = if p name then lookup name es else none := by
  induction es with
  | nil => simp [lookup]
  | cons e es ih =>
      rw [List.filter_cons]
      by_cases he : p e.1 = true
      · rw [if_pos he, lookup, lookup, ih]
        grind
      · rw [if_neg he, ih, lookup]
        grind

namespace Builtin

/-- The name is not that of a builtin which looks at storage. -/
def isSpared (t : Named Builtin) (name : Name) : Bool :=
  (t.find? name).all fun b => !b.native.looksAtStorage

def sparing (t : Named Builtin) : Named Builtin :=
  ⟨t.entries.filter fun e => isSpared t e.1⟩

theorem find?_sparing (t : Named Builtin) (name : Name) :
    (sparing t).find? name = if isSpared t name then t.find? name else none :=
  Named.lookup_filter (isSpared t) name t.entries

end Builtin

def Tree.offering (t : Named Builtin) :
    EStateM.Result Halt World Datum → EStateM.Result Halt World Datum
  | .ok d w => .ok d { w with builtins := t }
  | .error e w => .error e { w with builtins := t }

namespace Machine

def offering (t : Named Builtin) (m : Machine) : Machine :=
  { m with builtins := t }

/-- The machine without the builtins that look at storage. -/
def spared (m : Machine) : Machine :=
  m.offering (Builtin.sparing m.builtins)

/-- The action calls no builtin that looks at storage: without them it does not fail for want of a
builtin that the machine has. -/
def Spares (m : Machine) (a : Act Node) : Prop :=
  ∀ name m', a m.spared = .error (.failed (.runtime (.unknownBuiltin name))) m' →
    m.builtins.find? name = none

theorem plain_spared (m : Machine) : m.spared.Plain := by
  intro name b hb
  have hb : (Builtin.sparing m.builtins).find? name = some b := hb
  rw [Builtin.find?_sparing] at hb
  split at hb
  · rename_i hall
    rw [Builtin.isSpared, hb, Option.all_some] at hall
    constructor <;> rintro h <;> simp [h, Native.looksAtStorage] at hall
  · cases hb

theorem Sound.spared {P : Prop} {m : Machine} {aside : Set Cell} {X F : Multiset Cell}
    (h : m.Sound P aside X F) : m.spared.Sound True aside X F :=
  ⟨h.store, h.scopes, fun _ => m.plain_spared⟩

/-- A builtin of the table is missing. -/
def Misses (t : Named Builtin) (h : Halt) : Prop :=
  ∃ name, h = .failed (.runtime (.unknownBuiltin name)) ∧ t.find? name ≠ none

/-- The machines differ in the builtins that look at storage, which the second one has. -/
structure Restored (t : Named Builtin) (m n : Machine) : Prop where
  spared : m.builtins = Builtin.sparing t
  same : n = m.offering t

namespace Restored

variable {t : Named Builtin} {m n : Machine}

theorem congr (h : Restored t m n) {f : Machine → Machine}
    (builtins : ∀ m, (f m).builtins = m.builtins)
    (offering : ∀ m t, f (m.offering t) = (f m).offering t) :
    Restored t (f m) (f n) where
  spared := (builtins m).trans h.spared
  same := by
    rw [h.same]
    exact offering m t

theorem foldl_log (h : Restored t m n) {f : Machine → String → Event}
    (same : ∀ m t hook, f (m.offering t) hook = f m hook) (hooks : List String) :
    Restored t (hooks.foldl (fun m hook => m.log (f m hook)) m)
      (hooks.foldl (fun m hook => m.log (f m hook)) n) := by
  induction hooks generalizing m n with
  | nil => exact h
  | cons hook hooks ih =>
      refine ih (h.congr (f := fun m => m.log (f m hook)) (fun _ => rfl) fun m t => ?_)
      rw [same]
      rfl

end Restored

theorem twin_restored (t : Named Builtin) : Twin (Misses t) (Restored t) where
  store h := by rw [h.same]; rfl
  setStore h st := h.congr (f := fun m => { m with store := st }) (fun _ => rfl) fun _ _ => rfl
  define h name x := h.congr (f := (·.define name x)) (fun _ => rfl) fun _ _ => rfl
  builtins {m n} h name := by
    have hn : n.builtins = t := by rw [h.same]; rfl
    rw [h.spared, hn, Builtin.find?_sparing]
    by_cases hname : Builtin.isSpared t name = true
    · exact .inl (if_pos hname).symm
    · refine .inr ⟨if_neg hname, name, rfl, fun hnone => hname ?_⟩
      rw [Builtin.isSpared, hnone]
      rfl
  deep h := .inl ⟨by rw [h.same]; rfl, by rw [h.same]; rfl⟩
  before {m n} h name form := by
    have hooks : n.before = m.before := by rw [h.same]; rfl
    rw [hooks]
    exact h.foldl_log (fun _ _ _ => rfl) m.before
  after {m n} h name x := by
    have hooks : n.after = m.after := by rw [h.same]; rfl
    rw [hooks]
    exact h.foldl_log (fun _ _ _ => rfl) m.after
  scopes h := by rw [h.same]; rfl
  setScopes h s := h.congr (f := fun m => { m with scopes := s }) (fun _ => rfl) fun _ _ => rfl
  trace h e _ := by
    refine h.congr (f := fun m => if m.tracing then m.log e else m) (fun m => ?_) fun m t => ?_
    · split <;> rfl
    · by_cases ht : m.tracing = true
      · rw [if_pos ht]
        exact if_pos ht
      · rw [if_neg ht]
        exact if_neg ht

variable {m : Machine} {a b : Act Node}

theorem Spares.of_not_fails (h : ¬ Fails (fun _ => True) (a m.spared)) : m.Spares a := by
  intro name m' hm
  rw [hm] at h
  exact absurd trivial h

theorem Spares.eq_carry (h : m.Spares a)
    (ha : InStep (Misses m.builtins) (Restored m.builtins) a a) :
    a m = carry (·.offering m.builtins) (a m.spared) := by
  have restored : Restored m.builtins m.spared m := ⟨rfl, rfl⟩
  rcases (ha _ _ restored).ends with
    ⟨e, m', hm, name, rfl, hname⟩ | ⟨v, m', n', hm, hn, h'⟩ | ⟨e, m', n', hm, hn, h'⟩
  · exact absurd (h name m' hm) hname
  · rw [hm, hn, h'.same, carry]
  · rw [hm, hn, h'.same, carry]

theorem seen_offering (t : Named Builtin) (r : EStateM.Result Halt Machine Node) :
    Tree.seen (carry (·.offering t) r) = Tree.offering t (Tree.seen r) := by
  cases r <;> rfl

/-- If two actions are the same on trees and the first calls no builtin that looks at storage, then
the second calls none, and its outcome is the same as seen on trees. -/
theorem Spares.seen_eq (h : m.Spares a)
    (ha : InStep (Misses m.builtins) (Restored m.builtins) a a)
    (hb : InStep (Misses m.builtins) (Restored m.builtins) b b)
    (same : Tree.seen (b m.spared) = Tree.seen (a m.spared)) :
    m.Spares b ∧ Tree.seen (b m) = Tree.seen (a m) := by
  have hsb : m.Spares b := by
    intro name m' hm
    rw [hm] at same
    cases hr : a m.spared with
    | ok v m'' =>
        rw [hr] at same
        cases same
    | error e m'' =>
        rw [hr] at same
        obtain rfl : _ = e := (EStateM.Result.error.inj same).1
        exact h name m'' hr
  refine ⟨hsb, ?_⟩
  rw [h.eq_carry ha, hsb.eq_carry hb, seen_offering, seen_offering, same]

end Machine

end CellScheme
