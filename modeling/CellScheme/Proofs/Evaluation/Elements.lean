import CellScheme.Proofs.Evaluation.Call
import CellScheme.Proofs.Storage.Solid

/-!
The elements of a list under evaluation. The list is set aside: an element is replaced by its value,
or by what is left of it, and nothing else sees it.
-/

namespace CellScheme

open CellScheme.Tree (World)

variable {P : Prop} {m m' : Machine} {aside : Set Cell} {F : Multiset Cell} {ev : Evaluator}

theorem Machine.Outcome.solid {X N : Multiset Cell} {x : Node}
    (o : m.Outcome P aside F m' X N) (hx : m.store.Visible F x) : m'.store.Solid aside x := by
  refine o.sound.store.solid ((o.kept.store.visible hx).mono ?_)
  exact (Multiset.le_add_left _ _).trans (Multiset.le_add_left _ _)

theorem Machine.Sound.owned {c : Nat} (h : m.Sound P aside {.seq c} F) :
    { m with store := (m.store.ownSeq c).1 }.Sound P
        (insert (Cell.seq (m.store.ownSeq c).2) aside)
        (cellsOf [] + cellsOf (m.store.elements c)) F ∧
      Cell.seq (m.store.ownSeq c).2 ∉ aside := by
  have h1 := h.grow h.store.ownSeq
  have hout := h1.store.unpack h.store.count_ownSeq
  rw [h.store.elements_ownSeq] at hout
  refine ⟨⟨?_, h.scopes, h.plain⟩, h1.store.not_aside (.root (by simp))⟩
  rw [cellsOf_nil, zero_add]
  exact hout

/-- A list that is set aside may be edited after an action: nothing else sees it. -/
theorem Machine.Outcome.setElement {D X N : Multiset Cell} {c : Nat}
    (o : m.Outcome P (insert (Cell.seq c) aside) (D + F) m' X N) (hm : m.scopes.cells ≤ F)
    (hc : Cell.seq c ∉ aside) (i : Nat) {v : Node}
    (hv : m'.store.Solid (insert (Cell.seq c) aside) v) :
    { m' with store := m'.store.setElement c i v }.Sound P (insert (Cell.seq c) aside) (X + D)
        (N + F) ∧
      m.Kept aside F { m' with store := m'.store.setElement c i v } ∧
      World.of { m' with store := m'.store.setElement c i v } = World.of m' ∧
      ∀ z, m'.store.Visible (X + (N + (D + F))) z →
        (m'.store.setElement c i v).view z = m'.store.view z := by
  have hs := o.sound.store
  have hs2 : (m'.store.setElement c i v).Sound (insert (Cell.seq c) aside) _ :=
    hs.setElement (.inl rfl) hv
  have k := hs.keeps_editSeq_aside hc (·.set i v)
  have hF : N + (D + F) ≤ X + (N + (D + F)) := Multiset.le_add_left _ _
  have k1 : m'.Kept aside (N + (D + F)) { m' with store := m'.store.setElement c i v } :=
    .of_same (k.mono subset_rfl hF) rfl rfl rfl rfl
  have h1 := o.set_less_aside (Set.subset_insert (Cell.seq c) aside)
  have h2 : { m' with store := m'.store.setElement c i v }.Sound P aside X (N + (D + F)) :=
    ⟨hs2.set_less_aside (Set.subset_insert _ _), o.sound.scopes, o.sound.plain⟩
  refine ⟨⟨hs2.reorder (by abel), o.scopes.trans (add_le_add le_rfl hm), o.sound.plain⟩, ?_,
    h1.sound.world_eq h2 le_rfl k1.store rfl rfl rfl rfl, fun z hz => ?_⟩
  · have hD : F ≤ D + F := Multiset.le_add_left _ _
    exact (h1.kept.mono subset_rfl hD).trans
      (k1.mono subset_rfl (hD.trans (Multiset.le_add_left _ _)))
  · exact k.view_eq h1.sound.store h2.store le_rfl hz

/-- Trees that were seen before the action are seen after the edit. -/
theorem Machine.Outcome.view_setElement {D X Y N : Multiset Cell} {c : Nat}
    (h : m.Sound P (insert (Cell.seq c) aside) Y (D + F))
    (o : m.Outcome P (insert (Cell.seq c) aside) (D + F) m' X N) (hm : m.scopes.cells ≤ F)
    (hc : Cell.seq c ∉ aside) (i : Nat) {v : Node}
    (hv : m'.store.Solid (insert (Cell.seq c) aside) v) {z : Node}
    (hz : m.store.Visible (D + F) z) :
    (m'.store.setElement c i v).view z = m.store.view z := by
  obtain ⟨_, _, _, hview⟩ := o.setElement hm hc i hv
  have hle : D + F ≤ N + (D + F) := Multiset.le_add_left _ _
  have hz' : m'.store.Visible (N + (D + F)) z := (o.kept.store.visible hz).mono hle
  rw [hview z (hz'.mono (Multiset.le_add_left _ _))]
  exact h.view_eq o.sound hle o.kept hz

theorem Machine.Outcome.elements_setElement {D X N : Multiset Cell} {c : Nat} {x : Node}
    {done xs : List Node} (o : m.Outcome P (insert (Cell.seq c) aside) D m' X N)
    (he : m.store.elements c = done ++ x :: xs) (v : Node) :
    (m'.store.setElement c done.length v).elements c = done ++ v :: xs := by
  have agree := (o.kept.store.aside _ (.inl rfl)).elements_eq
  have alloc := o.sound.store.aside_allocated (k := .seq c) (.inl rfl)
  rw [Store.setElement, Store.elements_editSeq_self _ _ alloc, agree, he]
  simp

/-- After an element was evaluated its value stands in its place, and the elements before it and
after it are seen as they were. -/
theorem Machine.Outcome.advance {N : Multiset Cell} {c : Nat} {x v : Node}
    {done xs : List Node}
    (h : m.Sound P (insert (Cell.seq c) aside) x.cells ((cellsOf done + cellsOf xs) + F))
    (o : m.Outcome P (insert (Cell.seq c) aside) ((cellsOf done + cellsOf xs) + F) m' v.cells N)
    (hm : m.scopes.cells ≤ F) (hc : Cell.seq c ∉ aside)
    (he : m.store.elements c = done ++ x :: xs) :
    let st := m'.store.setElement c done.length v
    { m' with store := st }.Sound P (insert (Cell.seq c) aside) (cellsOf (done ++ [v]) + cellsOf xs)
        (N + F) ∧
      st.elements c = (done ++ [v]) ++ xs ∧ st.viewSeq xs = m.store.viewSeq xs ∧
      st.viewSeq (done ++ [v]) = m.store.viewSeq done ++ [m'.view v] := by
  intro st
  have solid := o.sound.store.solid (.root (x := v))
  obtain ⟨h2, _, _, hv⟩ := o.setElement hm hc done.length solid
  have hroots : v.cells + (cellsOf done + cellsOf xs) = cellsOf (done ++ [v]) + cellsOf xs := by
    rw [cellsOf_append, cellsOf_cons, cellsOf_nil, add_zero]
    abel
  have keep : ∀ z ∈ done ++ xs, st.view z = m.store.view z := by
    intro z hz
    refine o.view_setElement h hm hc done.length solid ?_
    rw [← cellsOf_append]
    exact .of_mem hz
  refine ⟨h2.reorder hroots, ?_, List.map_congr_left fun z hz => keep z (by simp [hz]), ?_⟩
  · rw [List.append_assoc, List.singleton_append]
    exact o.elements_setElement he v
  · rw [Store.viewSeq, List.map_append, Store.viewSeq]
    congr 1
    · exact List.map_congr_left fun z hz => keep z (by simp [hz])
    · exact congrArg (fun d => [d]) (hv v .root)

theorem evalElements_ok {c i : Nat} {x v : Node} {xs : List Node}
    (hx : ev x m = .ok v m') :
    evalElements ev c i (x :: xs) m =
      evalElements ev c (i + 1) xs { m' with store := m'.store.setElement c i v } := by
  simp only [evalElements, bind, EStateM.bind, hx]
  rfl

theorem evalElements_error {c i : Nat} {x : Node} {xs : List Node} {e : Node × Halt}
    (hx : ev x m = .error e m') :
    evalElements ev c i (x :: xs) m =
      .error (.list c, e.2) { m' with store := m'.store.setElement c i e.1 } := by
  simp only [evalElements, bind, EStateM.bind, hx]

end CellScheme
