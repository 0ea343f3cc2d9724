import CellScheme.Proofs.Host.Operations
import Mathlib.Algebra.Order.BigOperators.Group.Finset

/-!
Counts and holders. A holder of a cell is a handle or binding whose node holds it, or a node that
stands in a cell which a handle or binding reaches. A spent node is no holder until it is used
again.
-/

namespace CellScheme

namespace Host

/-- A cell that a handle or a binding reaches. -/
def Live (h : Host) (k : Cell) : Prop :=
  Store.Reach h.machine.store h.roots k

open Classical in
noncomputable def holders (h : Host) (k : Cell) : Nat :=
  h.roots.count k +
    ∑ j ∈ h.machine.store.cells with h.Live j, (h.machine.store.inside j).count k

theorem Sound.holders_le {h : Host} (hs : h.Sound) (k : Cell) :
    (h.holders k : Int) ≤ h.machine.store.count k := by
  classical
  obtain ⟨⟨L, hl⟩, _⟩ := hs
  have hsub : (h.machine.store.cells.filter fun j => h.Live j) ⊆ L :=
    fun j hj => hl.reach_mem (Finset.mem_filter.mp hj).2
  have hle : h.holders k ≤ (h.machine.store.holdings L h.roots).count k := by
    rw [holders, Store.holdings, Multiset.count_add, Multiset.count_sum']
    exact Nat.add_le_add_left (Finset.sum_le_sum_of_subset hsub) _
  exact (Int.ofNat_le.mpr hle).trans (hl.counted k)

theorem Live.holders_ge {h : Host} {j k : Cell} (hj : h.Live j) (hc : j ∈ h.machine.store.cells) :
    h.roots.count k + (h.machine.store.inside j).count k ≤ h.holders k := by
  classical
  exact Nat.add_le_add_left (Finset.single_le_sum (fun j _ => Nat.zero_le
    ((h.machine.store.inside j).count k)) (Finset.mem_filter.mpr ⟨hc, hj⟩)) _

theorem Sound.holders_pos {h : Host} (hs : h.Sound) {k : Cell} (hk : h.Live k) :
    0 < h.holders k := by
  classical
  cases hk with
  | root hr => exact Nat.add_pos_left (Multiset.count_pos.mpr hr) _
  | @inside j _ hj hin =>
      refine Nat.add_pos_right _ (Finset.sum_pos' (fun _ _ => Nat.zero_le _) ⟨j, ?_, ?_⟩)
      · exact Finset.mem_filter.mpr ⟨Store.mem_cells.mpr (hs.store.allocated hj), hj⟩
      · exact Multiset.count_pos.mpr hin

/-- Over every run of a host that does not go on with a spent node, no cell has more holders than
its count says, and a live cell with the count one has exactly one. -/
theorem holders_le_count (table : Named Builtin) (limit : Int) (tracing : Bool)
    (before after : List String) (uses : List HostUse) (hu : ∀ t, .reuse t ∉ uses) (k : Cell) :
    let h := (start table limit tracing before after).useAll uses
    (h.holders k : Int) ≤ h.machine.store.count k ∧
      (h.Live k → h.machine.store.count k = 1 → h.holders k = 1) := by
  have hs := (sound_start table limit tracing before after).useAll hu
  have hle := hs.holders_le k
  refine ⟨hle, fun hk one => ?_⟩
  have hpos := hs.holders_pos hk
  rw [one] at hle
  omega

theorem holders_le_count_list :
    let uses : List HostUse := [.op (.make "a" (.tree (.list [])))]
    let h := (start .empty 0 false [] []).useAll uses
    (∀ t, .reuse t ∉ uses) ∧ h.Live (.seq 0) ∧ h.holders (.seq 0) = 1 := by
  intro uses h
  have fresh : ∀ t, .reuse t ∉ uses := fun t => by simp [uses]
  have live : h.Live (.seq 0) := .root (by decide)
  have one := (holders_le_count .empty 0 false [] [] uses fresh (.seq 0)).2
  exact ⟨fresh, live, one live (by decide)⟩

/-- The failed call `(car 1)` moves to a copy of the bound arguments of `car`, and the procedure in
its list is still on them: they have two holders, the list and the name, and the count one. -/
theorem holders_exceed_count :
    let h := (start (Builtin.table [("car", ⟨1, .car⟩)]) 0 false [] []).useAll
      [.op (.make "n" (.tree (.list [.symbol "car", .int 1]))), .op (.step (.evalPlace 4 "n")),
        .reuse "n"]
    h.machine.store.count (.seq 1) = 1 ∧ 2 ≤ h.holders (.seq 1) := by
  intro h
  have live : h.Live (.seq 2) := .root (by decide +kernel)
  have named : h.roots.count (.seq 1) = 1 := by decide +kernel
  have listed : (h.machine.store.inside (.seq 2)).count (.seq 1) = 1 := by decide +kernel
  have both := live.holders_ge (k := .seq 1) (by decide +kernel)
  rw [named, listed] at both
  exact ⟨by decide +kernel, both⟩

end Host

end CellScheme
