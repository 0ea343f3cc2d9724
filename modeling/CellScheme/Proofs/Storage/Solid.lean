import CellScheme.Proofs.Storage.Edit
import Mathlib.Algebra.Order.BigOperators.Group.Finset

/-!
Cells that need not be counted. What an evaluation leaves behind when it fails may hold a cell that
was given up for it, so that no ledger has it among its roots. Yet the cells that it leads to are
there, and it leads to none that is set aside.
-/

namespace CellScheme.Store

/-- A cell that is there, is not set aside, and holds such cells only. -/
inductive SolidCell (st : Store) (aside : Set Cell) : Cell → Prop where
  | intro {k : Cell} (allocated : st.Allocated k) (apart : k ∉ aside)
      (inside : ∀ j ∈ st.inside k, SolidCell st aside j) : SolidCell st aside k

/-- A node that holds solid cells only. -/
def Solid (st : Store) (aside : Set Cell) (x : Node) : Prop :=
  ∀ k ∈ x.cells, st.SolidCell aside k

variable {st st' : Store} {aside aside' : Set Cell} {R : Multiset Cell} {k : Cell} {x : Node}

namespace SolidCell

theorem mono (h : st.SolidCell aside k) (hs : aside' ⊆ aside) : st.SolidCell aside' k := by
  induction h with
  | intro allocated apart _ ih => exact .intro allocated (fun ha => apart (hs ha)) ih

theorem of_reach (h : ∀ k ∈ R, st.SolidCell aside k) (hk : Reach st R k) :
    st.SolidCell aside k := by
  induction hk with
  | root hk => exact h _ hk
  | inside _ hk ih =>
      cases ih with
      | intro _ _ inside => exact inside _ hk

theorem allocated (h : st.SolidCell aside k) : st.Allocated k := by
  cases h with
  | intro allocated _ _ => exact allocated

theorem not_aside (h : st.SolidCell aside k) : k ∉ aside := by
  cases h with
  | intro _ apart _ => exact apart

/-- An edit of a cell that is set aside does not show. -/
theorem edit {c : Cell} (e : Edits st st' c) (hc : c ∈ aside) (h : st.SolidCell aside k) :
    st'.SolidCell aside k := by
  induction h with
  | @intro k allocated apart _ ih =>
      have agree : Agree st st' k := e.agree k fun hk => apart (hk ▸ hc)
      refine .intro ((e.allocated k).mpr allocated) apart fun j hj => ih j ?_
      rw [← agree.inside_eq]
      exact hj

/-- Only the cells that it leads to matter. -/
theorem of_agree (agree : ∀ k, Reach st R k → st'.Allocated k ∧ Agree st st' k)
    (hk : Reach st R k) (h : st.SolidCell aside k) : st'.SolidCell aside k := by
  induction h with
  | @intro k _ apart _ ih =>
      refine .intro (agree k hk).1 apart fun j hj => ?_
      rw [(agree k hk).2.inside_eq] at hj
      exact ih j hj (.inside hk hj)

end SolidCell

theorem Sound.solidCell (h : st.Sound aside R) (hk : Reach st R k) : st.SolidCell aside k := by
  obtain ⟨L, hl⟩ := h
  have solid : ∀ k, Acc st.Below k → k ∈ L → st.SolidCell aside k := by
    intro k hacc
    induction hacc with
    | intro k _ ih =>
        exact fun hL => .intro (hl.live k hL) (hl.apart k hL) fun j hj =>
          ih j hj (hl.inside_mem hL hj)
  exact solid k (hl.grounded.acc k) (hl.reach_mem hk)

theorem Sound.solid (h : st.Sound aside R) (hx : st.Visible R x) : st.Solid aside x :=
  fun k hk => h.solidCell (hx k hk)

namespace Solid

theorem mono (h : st.Solid aside x) (hs : aside' ⊆ aside) : st.Solid aside' x :=
  fun k hk => (h k hk).mono hs

theorem of_agree (h : st.Solid aside x) (hx : st.Visible R x)
    (agree : ∀ k, Reach st R k → st'.Allocated k ∧ Agree st st' k) : st'.Solid aside x :=
  fun k hk => (h k hk).of_agree agree (hx k hk)

theorem list {c : Nat} (hc : st.Allocated (.seq c)) (ha : .seq c ∉ aside)
    (h : ∀ x ∈ st.elements c, st.Solid aside x) : st.Solid aside (.list c) := by
  intro k hk
  obtain rfl := Multiset.mem_singleton.mp hk
  refine .intro hc ha fun j hj => ?_
  obtain ⟨y, hy, hj⟩ := mem_cellsOf.mp hj
  exact h y hy j hj

/-- A solid node reaches nothing that is set aside. -/
theorem not_reach (h : st.Solid aside x) (hk : k ∈ aside) : ¬ Reach st x.cells k :=
  fun hr => (SolidCell.of_reach h hr).not_aside hk

end Solid

theorem Sound.setElement {c i : Nat} {v : Node} (h : st.Sound aside R) (hc : .seq c ∈ aside)
    (hv : st.Solid aside v) : (st.setElement c i v).Sound aside R :=
  h.editSeq_aside hc (fun k hk => (hv k hk).allocated) (hv.not_reach hc) (cellsOf_set_le _ i v)

open Classical in
theorem Sound.set_aside (h : st.Sound aside R) (ha : 0 < st.count k) (hk : ¬ Reach st R k) :
    st.Sound (insert k aside) R := by
  obtain ⟨L, h⟩ := h
  have hle : st.holdings (L.filter fun j => Reach st R j) R ≤ st.holdings L R :=
    add_le_add le_rfl (Finset.sum_le_sum_of_subset (Finset.filter_subset _ _))
  refine ⟨L.filter fun j => Reach st R j, ?_, fun j hj => h.live j (Finset.mem_filter.mp hj).1, ?_,
    fun j hj => ?_, fun j => ?_, h.grounded⟩
  · rintro j (rfl | hj)
    · exact ha
    · exact h.aside_counted j hj
  · rintro j hj (rfl | haside)
    · exact hk (Finset.mem_filter.mp hj).2
    · exact h.apart j (Finset.mem_filter.mp hj).1 haside
  · refine Finset.mem_filter.mpr ⟨h.closed j (Multiset.mem_of_le hle hj), ?_⟩
    rcases Multiset.mem_add.mp hj with hj | hj
    · exact .root hj
    · obtain ⟨i, hi, hj⟩ := Multiset.mem_sum.mp hj
      exact .inside (Finset.mem_filter.mp hi).2 hj
  · have := Multiset.count_le_of_le j hle
    exact le_trans (by exact_mod_cast this) (h.counted j)

end CellScheme.Store
