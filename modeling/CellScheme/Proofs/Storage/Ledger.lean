import CellScheme.Proofs.Storage.Holding

/-!
The ledger of a store. Roots are the cells held from outside, each as often as it is held. A ledger
names a set of live cells that contains the roots and everything the live cells hold, and no cell
has fewer counts than it has holders among the roots and in live cells. Counts may be too high:
whoever stops using a root need not give it up.

A cell with one count that a root holds has no other holder, so it can be taken out of the live
cells: its content then belongs to the roots, and it may be edited without anyone seeing it.
-/

namespace CellScheme.Store

/-- One cell is held by the content of another. -/
def Below (st : Store) (k j : Cell) : Prop :=
  k ∈ st.inside j

/-- Cells hold only cells that are there, and no chain of holding goes on for ever. This is asked of
all cells, also of those that nothing holds any more. -/
structure Grounded (st : Store) : Prop where
  inside_allocated : ∀ {j k : Cell}, k ∈ st.inside j → st.Allocated k
  acc : ∀ k, Acc st.Below k

/-- All that the roots and the contents of the live cells hold. -/
def holdings (st : Store) (L : Finset Cell) (R : Multiset Cell) : Multiset Cell :=
  R + ∑ k ∈ L, st.inside k

/-- Live cells are allocated, apart from the cells set aside, closed under holding, and counted at
least as often as they are held; the cells set aside are counted too. No cell, live or not, is on a
cycle. -/
structure Ledger (st : Store) (aside : Set Cell) (L : Finset Cell) (R : Multiset Cell) : Prop where
  aside_counted : ∀ k ∈ aside, 0 < st.count k
  live : ∀ k ∈ L, st.Allocated k
  apart : ∀ k ∈ L, k ∉ aside
  closed : ∀ k ∈ st.holdings L R, k ∈ L
  counted : ∀ k, ((st.holdings L R).count k : Int) ≤ st.count k
  grounded : st.Grounded

variable {st st' : Store} {aside aside' : Set Cell} {L : Finset Cell} {R S : Multiset Cell}

theorem holdings_add (st : Store) (L : Finset Cell) (R S : Multiset Cell) :
    st.holdings L (R + S) = R + st.holdings L S := by
  simp only [holdings, add_assoc]

theorem holdings_congr (h : ∀ k ∈ L, Agree st st' k) : st'.holdings L R = st.holdings L R := by
  unfold holdings
  rw [Finset.sum_congr rfl fun k hk => (h k hk).inside_eq]

/-- Groundedness depends on the contents of a closed set of cells only. -/
theorem acc_of_agree {P : Cell → Prop} (closed : ∀ j, P j → ∀ k ∈ st.inside j, P k)
    (agree : ∀ j, P j → Agree st st' j) {k : Cell} (hk : P k) (h : Acc st.Below k) :
    Acc st'.Below k := by
  induction h with
  | intro j _ ih =>
      refine Acc.intro j fun i hi => ?_
      have hi' : i ∈ st.inside j := (agree j hk).inside_eq ▸ hi
      exact ih i hi' (closed j hk i hi')

theorem not_reach_self {k : Cell} (h : Acc st.Below k) : ¬ Reach st (st.inside k) k := by
  induction h with
  | intro j _ ih =>
      -- Every cell reached from the content of `j` is reached from one of its cells.
      have first : ∀ i, Reach st (st.inside j) i →
          ∃ k ∈ st.inside j, i = k ∨ Reach st (st.inside k) i := by
        intro i hi
        induction hi with
        | root hi => exact ⟨_, hi, .inl rfl⟩
        | inside _ hi ih' =>
            obtain ⟨k, hk, rfl | hr⟩ := ih'
            · exact ⟨_, hk, .inr (.root hi)⟩
            · exact ⟨k, hk, .inr (.inside hr hi)⟩
      intro hj
      obtain ⟨k, hk, rfl | hr⟩ := first j hj
      · exact ih j hk hj
      · exact ih k hk (.inside hr hk)

namespace Grounded

theorem not_reach (h : st.Grounded) (k : Cell) : ¬ Reach st (st.inside k) k :=
  not_reach_self (h.acc k)

/-- Counts do not matter. -/
theorem congr (h : st.Grounded) (alloc : ∀ k, st.Allocated k → st'.Allocated k)
    (agree : ∀ k, Agree st st' k) : st'.Grounded := by
  refine ⟨fun {j k} hk => ?_, fun k => ?_⟩
  · rw [(agree j).inside_eq] at hk
    exact alloc k (h.inside_allocated hk)
  · exact acc_of_agree (P := fun _ => True) (fun _ _ _ _ => trivial) (fun j _ => agree j) trivial
      (h.acc k)

theorem add {k : Cell} (h : st.Grounded) (a : Adds st st' k)
    (hin : ∀ j ∈ st'.inside k, st.Allocated j) : st'.Grounded := by
  have old {j : Cell} (hj : st.Allocated j) : Acc st'.Below j :=
    acc_of_agree (P := st.Allocated) (fun _ _ _ hk => h.inside_allocated hk) a.agree hj (h.acc j)
  have held {i j : Cell} (hi : i ∈ st'.inside j) : st.Allocated i := by
    by_cases hj : st'.Allocated j
    · rcases (a.allocated j).mp hj with hj | rfl
      · rw [(a.agree j hj).inside_eq] at hi
        exact h.inside_allocated hi
      · exact hin i hi
    · rw [inside_of_not_allocated st' hj] at hi
      exact absurd hi (Multiset.notMem_zero i)
  exact ⟨fun hi => (a.allocated _).mpr (.inl (held hi)),
    fun j => .intro j fun i hi => old (held hi)⟩

/-- A cell may be given any content that does not reach it. -/
theorem edit {k : Cell} (h : st.Grounded) (e : Edits st st' k)
    (hin : ∀ j ∈ st'.inside k, st.Allocated j) (hno : ¬ Reach st (st'.inside k) k) :
    st'.Grounded := by
  have elsewhere {j : Cell} (hj : ¬ Reach st {j} k) : Acc st'.Below j := by
    refine acc_of_agree (P := fun j => ¬ Reach st {j} k) (fun j hj i hi hr => hj ?_)
      (fun j hj => ?_) hj (h.acc j)
    · refine Reach.trans (fun l hl => ?_) hr
      obtain rfl := Multiset.mem_singleton.mp hl
      exact .inside (.root (Multiset.mem_singleton_self j)) hi
    · exact e.agree j fun hjk => hj (.root (Multiset.mem_singleton.mpr hjk.symm))
  have self : Acc st'.Below k := by
    refine .intro k fun j hj => elsewhere fun hr => hno (Reach.trans (fun l hl => ?_) hr)
    obtain rfl := Multiset.mem_singleton.mp hl
    exact .root hj
  refine ⟨fun {j i} hi => (e.allocated i).mpr ?_, fun j => ?_⟩
  · by_cases hj : j = k
    · exact hin i (hj ▸ hi)
    · rw [(e.agree j hj).inside_eq] at hi
      exact h.inside_allocated hi
  · induction h.acc j with
    | intro j _ ih =>
        by_cases hj : j = k
        · exact hj ▸ self
        · have same : st'.inside j = st.inside j := (e.agree j hj).inside_eq
          exact .intro j fun i hi => ih i (by rwa [Below, ← same])

end Grounded

namespace Ledger

theorem aside_allocated (h : st.Ledger aside L R) {k : Cell} (hk : k ∈ aside) : st.Allocated k := by
  by_contra ha
  have pos := h.aside_counted k hk
  rw [count_of_not_allocated st ha] at pos
  exact lt_irrefl 0 pos

theorem root_mem (h : st.Ledger aside L R) {k : Cell} (hk : k ∈ R) : k ∈ L :=
  h.closed k (Multiset.mem_add.mpr (.inl hk))

theorem inside_mem (h : st.Ledger aside L R) {j k : Cell} (hj : j ∈ L) (hk : k ∈ st.inside j) :
    k ∈ L :=
  h.closed k (Multiset.mem_add.mpr (.inr (Multiset.mem_sum.mpr ⟨j, hj, hk⟩)))

theorem reach_mem (h : st.Ledger aside L R) {k : Cell} (hk : Reach st R k) : k ∈ L := by
  induction hk with
  | root hk => exact h.root_mem hk
  | inside _ hk ih => exact h.inside_mem ih hk

theorem visible_mem (h : st.Ledger aside L R) {x : Node} (hx : st.Visible R x) :
    ∀ k ∈ x.cells, k ∈ L :=
  fun k hk => h.reach_mem (hx k hk)

theorem forget (h : st.Ledger aside L R) (hs : S ≤ R) : st.Ledger aside L S := by
  have hle : st.holdings L S ≤ st.holdings L R := add_le_add hs le_rfl
  refine ⟨h.aside_counted, h.live, h.apart, fun k hk => h.closed k (Multiset.mem_of_le hle hk),
    fun k => ?_, h.grounded⟩
  have := Multiset.count_le_of_le k hle
  exact le_trans (by exact_mod_cast this) (h.counted k)

/-- A ledger survives changes elsewhere: to cells that are not live, and to counts upwards. -/
theorem transfer (h : st.Ledger aside L R) (alloc : ∀ k, st.Allocated k → st'.Allocated k)
    (agree : ∀ k ∈ L, Agree st st' k) (counts : ∀ k, st.count k ≤ st'.count k)
    (ha : ∀ k ∈ aside', 0 < st'.count k) (hd : ∀ k ∈ L, k ∉ aside') (hg : st'.Grounded) :
    st'.Ledger aside' L R := by
  have hh : st'.holdings L R = st.holdings L R := holdings_congr agree
  exact ⟨ha, fun k hk => alloc k (h.live k hk), hd, fun k hk => h.closed k (hh ▸ hk),
    fun k => hh ▸ (h.counted k).trans (counts k), hg⟩

theorem set_less_aside (h : st.Ledger aside L R) (hs : aside' ⊆ aside) :
    st.Ledger aside' L R :=
  h.transfer (fun _ hk => hk) (fun k _ => Agree.refl st k) (fun _ => le_rfl)
    (fun k hk => h.aside_counted k (hs hk)) (fun k hk ha => h.apart k hk (hs ha)) h.grounded

theorem counted_addHolders (h : st.Ledger aside L R) {x : Node} (hx : ∀ k ∈ x.cells, k ∈ L)
    (n : Int) : ∀ k ∈ aside, 0 < (st.addHolders x n).count k := by
  intro k hk
  have hn : k ∉ x.cells := fun hm => h.apart k (hx k hm) hk
  rw [count_addHolders st x n k fun j hj => h.live j (hx j hj),
    Multiset.count_eq_zero_of_notMem hn, Int.natCast_zero, mul_zero, add_zero]
  exact h.aside_counted k hk

theorem share (h : st.Ledger aside L R) {x : Node} (hx : ∀ k ∈ x.cells, k ∈ L) :
    (st.share x).Ledger aside L (x.cells + R) := by
  have hh : (st.share x).holdings L (x.cells + R) = x.cells + st.holdings L R := by
    rw [holdings_add]
    exact congrArg (x.cells + ·) (holdings_congr fun k _ => agree_addHolders st x 1 k)
  refine ⟨h.counted_addHolders hx 1,
    fun k hk => (allocated_addHolders st x 1 k).mpr (h.live k hk), h.apart, ?_, ?_, ?_⟩
  · intro k hk
    rw [hh] at hk
    exact (Multiset.mem_add.mp hk).elim (hx k) (h.closed k)
  · intro k
    have hc := h.counted k
    rw [hh, Store.share, count_addHolders st x 1 k fun j hj => h.live j (hx j hj),
      Multiset.count_add]
    push_cast
    omega
  · exact h.grounded.congr (fun k hk => (allocated_addHolders st x 1 k).mpr hk)
      (agree_addHolders st x 1)

theorem shareAll (h : st.Ledger aside L R) {xs : List Node}
    (hx : ∀ x ∈ xs, ∀ k ∈ x.cells, k ∈ L) :
    (st.shareAll xs).Ledger aside L (cellsOf xs + R) := by
  induction xs generalizing st R with
  | nil => simpa [Store.shareAll] using h
  | cons x xs ih =>
      have h1 := ih (h.share (hx x (by simp))) fun y hy => hx y (by simp [hy])
      have heq : cellsOf (x :: xs) + R = cellsOf xs + (x.cells + R) := by
        rw [cellsOf_cons]
        abel
      rw [heq]
      exact h1

theorem drop {x : Node} (h : st.Ledger aside L (x.cells + R)) :
    (st.drop x).Ledger aside L R := by
  have hx : ∀ k ∈ x.cells, k ∈ L :=
    fun k hk => h.root_mem (Multiset.mem_add.mpr (.inl hk))
  have hh : (st.drop x).holdings L R = st.holdings L R :=
    holdings_congr fun k _ => agree_addHolders st x (-1) k
  refine ⟨h.counted_addHolders hx (-1),
    fun k hk => (allocated_addHolders st x (-1) k).mpr (h.live k hk), h.apart, ?_, ?_, ?_⟩
  · intro k hk
    apply h.closed k
    rw [holdings_add]
    exact Multiset.mem_add.mpr (.inr (hh ▸ hk))
  · intro k
    have hc := h.counted k
    rw [holdings_add, Multiset.count_add] at hc
    rw [hh, Store.drop, count_addHolders st x (-1) k fun j hj => h.live j (hx j hj)]
    push_cast at hc
    omega
  · exact h.grounded.congr (fun k hk => (allocated_addHolders st x (-1) k).mpr hk)
      (agree_addHolders st x (-1))

theorem dropAll {xs : List Node} (h : st.Ledger aside L (cellsOf xs + R)) :
    (xs.foldl Store.drop st).Ledger aside L R := by
  induction xs generalizing st with
  | nil => simpa using h
  | cons x xs ih =>
      have heq : cellsOf (x :: xs) + R = x.cells + (cellsOf xs + R) := by
        rw [cellsOf_cons]
        abel
      exact ih (heq ▸ h).drop

theorem sole {k : Cell} (h : st.Ledger aside L ({k} + R)) (one : st.count k = 1) :
    k ∉ st.holdings L R := by
  have hc := h.counted k
  rw [holdings_add, Multiset.count_add, Multiset.count_singleton_self, one] at hc
  push_cast at hc
  exact Multiset.count_eq_zero.mp (by omega)

theorem not_reach_of_sole {k : Cell} (h : st.Ledger aside L ({k} + R)) (one : st.count k = 1) :
    ¬ Reach st R k := by
  have hn := h.sole one
  intro hr
  have hR : st.Ledger aside L R := h.forget (Multiset.le_add_left _ _)
  cases hr with
  | root hk => exact hn (Multiset.mem_add.mpr (.inl hk))
  | inside hj hk =>
      exact hn (Multiset.mem_add.mpr (.inr (Multiset.mem_sum.mpr ⟨_, hR.reach_mem hj, hk⟩)))

theorem unpack {k : Cell} (h : st.Ledger aside L ({k} + R)) (one : st.count k = 1) :
    st.Ledger (insert k aside) (L.erase k) (st.inside k + R) := by
  have hk : k ∈ L := h.root_mem (by simp)
  have hh : st.holdings (L.erase k) (st.inside k + R) = st.holdings L R := by
    unfold holdings
    rw [← Finset.add_sum_erase L st.inside hk]
    abel
  have hn : k ∉ st.holdings L R := h.sole one
  have hR : st.Ledger aside L R := h.forget (Multiset.le_add_left _ _)
  refine ⟨?_, fun j hj => h.live j (Finset.mem_of_mem_erase hj), ?_, ?_, ?_, h.grounded⟩
  · rintro j (rfl | hj)
    · exact one ▸ Int.one_pos
    · exact h.aside_counted j hj
  · rintro j hj (rfl | ha)
    · exact Finset.notMem_erase j L hj
    · exact h.apart j (Finset.mem_of_mem_erase hj) ha
  · intro j hj
    rw [hh] at hj
    exact Finset.mem_erase.mpr ⟨fun e => hn (e ▸ hj), hR.closed j hj⟩
  · intro j
    rw [hh]
    exact hR.counted j

theorem pack {k : Cell} (h : st.Ledger (insert k aside) L (st.inside k + R)) (hk : k ∉ aside) :
    st.Ledger aside (insert k L) ({k} + R) := by
  have hkL : k ∉ L := fun hm => h.apart k hm (.inl rfl)
  have hh : st.holdings (insert k L) ({k} + R) = {k} + st.holdings L (st.inside k + R) := by
    unfold holdings
    rw [Finset.sum_insert hkL]
    abel
  have hn : k ∉ st.holdings L (st.inside k + R) := fun hm => hkL (h.closed k hm)
  refine ⟨fun j hj => h.aside_counted j (.inr hj), ?_, ?_, ?_, ?_, h.grounded⟩
  · intro j hj
    rcases Finset.mem_insert.mp hj with rfl | hj
    · exact h.aside_allocated (.inl rfl)
    · exact h.live j hj
  · intro j hj
    rcases Finset.mem_insert.mp hj with rfl | hj
    · exact hk
    · exact fun ha => h.apart j hj (.inr ha)
  · intro j hj
    rw [hh] at hj
    rcases Multiset.mem_add.mp hj with hj | hj
    · exact Finset.mem_insert.mpr (.inl (Multiset.mem_singleton.mp hj))
    · exact Finset.mem_insert.mpr (.inr (h.closed j hj))
  · intro j
    rw [hh, Multiset.count_add]
    by_cases hj : j = k
    · subst j
      rw [Multiset.count_eq_zero_of_notMem hn, Multiset.count_singleton_self]
      exact h.aside_counted _ (.inl rfl)
    · rw [Multiset.count_singleton, if_neg hj, Nat.zero_add]
      exact h.counted j

/-- What a new cell holds passes from the roots to it. -/
theorem add {k : Cell} (a : Adds st st' k) (h : st.Ledger aside L (st'.inside k + R)) :
    st'.Ledger aside (insert k L) ({k} + R) := by
  have hk : k ∉ aside := fun hm => a.fresh (h.aside_allocated hm)
  have hkL : k ∉ L := fun hm => a.fresh (h.live k hm)
  refine pack (h.transfer a.extends.allocated (fun j hj => a.agree j (h.live j hj)) ?_ ?_ ?_ ?_) hk
  · intro j
    by_cases hj : j = k
    · subst j
      rw [a.count_self, count_of_not_allocated st a.fresh]
      exact Int.one_nonneg
    · exact le_of_eq (a.count_other j hj).symm
  · rintro j (rfl | hj)
    · exact a.count_self ▸ Int.one_pos
    · rw [a.count_other j fun e => hk (e ▸ hj)]
      exact h.aside_counted j hj
  · rintro j hj (rfl | ha)
    · exact hkL hj
    · exact h.apart j hj ha
  · exact h.grounded.add a fun j hj => h.live j (h.root_mem (Multiset.mem_add.mpr (.inl hj)))

/-- A cell that is set aside may be edited, as long as it is not put below itself. -/
theorem edit_aside {k : Cell} (e : Edits st st' k) (hk : k ∈ aside) (h : st.Ledger aside L R)
    (hin : ∀ j ∈ st'.inside k, st.Allocated j) (hno : ¬ Reach st (st'.inside k) k) :
    st'.Ledger aside L R :=
  h.transfer (fun j hj => (e.allocated j).mpr hj)
    (fun j hj => e.agree j fun hjk => h.apart j hj (hjk ▸ hk)) (fun j => le_of_eq (e.count j).symm)
    (fun j hj => e.count j ▸ h.aside_counted j hj) h.apart (h.grounded.edit e hin hno)

/-- An edit in place of a cell that only a root holds may take in what other roots hold. -/
theorem edit_sole {k : Cell} {X : Multiset Cell} (e : Edits st st' k)
    (h : st.Ledger aside L ({k} + (X + R))) (one : st.count k = 1)
    (hle : st'.inside k ≤ X + st.inside k) : st'.Ledger aside L ({k} + R) := by
  have hk : k ∈ L := h.root_mem (by simp)
  have hout : st.Ledger (insert k aside) (L.erase k) (st'.inside k + R) := by
    refine (h.unpack one).forget ?_
    calc st'.inside k + R ≤ (X + st.inside k) + R := add_le_add hle le_rfl
      _ = st.inside k + (X + R) := by abel
  have hin : ∀ j ∈ st'.inside k, j ∈ L.erase k :=
    fun j hj => hout.root_mem (Multiset.mem_add.mpr (.inl hj))
  have hno : ¬ Reach st (st'.inside k) k := fun hr => Finset.notMem_erase k L
    (hout.reach_mem (hr.mono (Multiset.subset_of_le (Multiset.le_add_right _ _))))
  have hback := (hout.edit_aside e (.inl rfl) (fun j hj => hout.live j (hin j hj)) hno).pack
    (h.apart k hk)
  rwa [Finset.insert_erase hk] at hback

end Ledger

end CellScheme.Store
