import CellScheme.Proofs.Storage.Growth

/-!
Edits in place and what they leave alone. A sequence is edited only through a root that is its sole
holder, or while it is set aside; in both cases nothing that the other roots reach is changed.
-/

namespace CellScheme.Store

/-- The cells set aside, and those that the roots reach, have kept their contents. -/
structure Keeps (st st' : Store) (aside : Set Cell) (R : Multiset Cell) : Prop where
  aside : ∀ k ∈ aside, Agree st st' k
  reach : ∀ k, Reach st R k → Agree st st' k

variable {st st' st'' : Store} {aside aside' : Set Cell} {R R' S X : Multiset Cell}

namespace Keeps

theorem refl (st : Store) (aside : Set Cell) (R : Multiset Cell) : Keeps st st aside R :=
  ⟨fun k _ => Agree.refl st k, fun k _ => Agree.refl st k⟩

theorem trans (h : Keeps st st' aside R) (h' : Keeps st' st'' aside R) : Keeps st st'' aside R :=
  ⟨fun k hk => (h.aside k hk).trans (h'.aside k hk),
    fun k hk => (h.reach k hk).trans (h'.reach k (hk.of_agree h.reach))⟩

theorem mono (h : Keeps st st' aside R) (ha : aside' ⊆ aside) (hs : S ≤ R) :
    Keeps st st' aside' S :=
  ⟨fun k hk => h.aside k (ha hk), fun k hk => h.reach k (hk.mono (Multiset.subset_of_le hs))⟩

theorem of_extends (h : st.Sound aside R) (e : Extends st st') : Keeps st st' aside R :=
  ⟨fun k hk => e.agree k (h.aside_allocated hk), fun k hk => e.agree k (h.allocated hk)⟩

theorem visible (h : Keeps st st' aside R) {x : Node} (hx : st.Visible R x) : st'.Visible R x :=
  hx.of_agree h.reach

theorem view_eq (h : Keeps st st' aside R) (hs : st.Sound aside' R) (hs' : st'.Sound aside R')
    (hle : R ≤ R') {x : Node} (hx : st.Visible R x) : st'.view x = st.view x :=
  hs.view_congr hs' hx ((h.visible hx).mono hle) h.reach

theorem viewSeq_eq (h : Keeps st st' aside R) (hs : st.Sound aside' R) (hs' : st'.Sound aside R')
    (hle : R ≤ R') {xs : List Node} (hx : ∀ x ∈ xs, st.Visible R x) :
    st'.viewSeq xs = st.viewSeq xs :=
  List.map_congr_left fun x hm => h.view_eq hs hs' hle (hx x hm)

end Keeps

theorem count_shareAll (st : Store) (xs : List Node) (k : Cell)
    (h : ∀ x ∈ xs, ∀ j ∈ x.cells, st.Allocated j) :
    (st.shareAll xs).count k = st.count k + ((cellsOf xs).count k : Int) := by
  induction xs generalizing st with
  | nil => simp [shareAll]
  | cons x xs ih =>
      have hx := count_addHolders st x 1 k (h x (by simp))
      have hxs := ih (st.share x) fun y hy j hj =>
        (allocated_addHolders st x 1 j).mpr (h y (by simp [hy]) j hj)
      change ((st.share x).shareAll xs).count k = _
      rw [hxs, share, hx, cellsOf_cons, Multiset.count_add]
      push_cast
      omega

/-- A sequence with several holders is owned by counting its elements once more, giving it up and
making a new sequence. -/
theorem Sound.ownSeq_eq {c : Nat} (h : st.Sound aside ({.seq c} + R))
    (hne : st.seqs.holders c ≠ 1) :
    st.ownSeq c = ((st.shareAll (st.elements c)).drop (.list c)).allocSeq (st.elements c) := by
  obtain ⟨L, h⟩ := h
  have hc : .seq c ∈ L := h.root_mem (by simp)
  have hacyclic : (cellsOf (st.elements c)).count (.seq c) = 0 :=
    Multiset.count_eq_zero.mpr fun hm => h.grounded.not_reach (.seq c) (.root hm)
  have hcount := count_shareAll st (st.elements c) (.seq c) fun x hx =>
    h.grounded.element_allocated hx
  rw [hacyclic] at hcount
  have hne' : (st.shareAll (st.elements c)).seqs.holders c ≠ 1 := by
    simp only [count, Int.natCast_zero, add_zero] at hcount
    rw [hcount]
    exact hne
  obtain ⟨xs, hxs⟩ := st.seqs.exists_value?_of_lt (h.live _ hc)
  have hel : st.elements c = xs := by simp [elements, hxs]
  have hval : (st.shareAll (st.elements c)).seqs.value? c = some (st.elements c) := by
    have := (extends_shareAll st (st.elements c)).agree (.seq c) (h.live _ hc)
    rw [this, hxs, hel]
  unfold ownSeq
  rw [if_neg hne]
  simp only [Shelf.own_of_holders_ne_one _ hval hne']
  rfl

theorem Sound.ownSeq_fresh {c : Nat} (h : st.Sound aside ({.seq c} + R))
    (hne : st.seqs.holders c ≠ 1) : ¬ st.Allocated (.seq (st.ownSeq c).2) := by
  intro ha
  have e : Extends st ((st.shareAll (st.elements c)).drop (.list c)) :=
    (extends_shareAll st _).trans (extends_addHolders _ _ _)
  rw [h.ownSeq_eq hne] at ha
  exact (adds_allocSeq _ _).fresh (e.allocated _ ha)

/-- What was live stays so, also the sequence that is given up. -/
theorem Ledger.ownSeq {L : Finset Cell} {c : Nat} (h : st.Ledger aside L ({.seq c} + R)) :
    ∃ L', L ⊆ L' ∧ (st.ownSeq c).1.Ledger aside L' ({.seq (st.ownSeq c).2} + R) := by
  by_cases hone : st.seqs.holders c = 1
  · rw [Store.ownSeq, if_pos hone]
    exact ⟨L, subset_rfl, h⟩
  · have hc : .seq c ∈ L := h.root_mem (by simp)
    have inner : ∀ x ∈ st.elements c, ∀ k ∈ x.cells, k ∈ L := fun x hx k hk =>
      h.inside_mem hc (Multiset.mem_of_le (cells_le_cellsOf hx) hk)
    have h1 := h.shareAll inner
    rw [add_left_comm] at h1
    rw [Sound.ownSeq_eq ⟨L, h⟩ hone]
    exact ⟨_, Finset.subset_insert _ _, (Ledger.drop (x := .list c) h1).allocSeq⟩

theorem Sound.ownSeq {c : Nat} (h : st.Sound aside ({.seq c} + R)) :
    Grown st (st.ownSeq c).1 aside {.seq (st.ownSeq c).2} R := by
  refine ⟨?_, ?_⟩
  · obtain ⟨L, h⟩ := h
    obtain ⟨L', _, h'⟩ := h.ownSeq
    exact ⟨L', h'⟩
  · by_cases hone : st.seqs.holders c = 1
    · rw [Store.ownSeq, if_pos hone]
      exact .refl st
    · rw [h.ownSeq_eq hone]
      exact ((extends_shareAll st _).trans (extends_addHolders _ _ _)).trans
        (adds_allocSeq _ _).extends

theorem Sound.count_ownSeq {c : Nat} (h : st.Sound aside ({.seq c} + R)) :
    (st.ownSeq c).1.count (.seq (st.ownSeq c).2) = 1 := by
  by_cases hone : st.seqs.holders c = 1
  · rw [Store.ownSeq, if_pos hone]
    exact hone
  · rw [h.ownSeq_eq hone]
    exact (adds_allocSeq _ _).count_self

theorem Sound.elements_ownSeq {c : Nat} (h : st.Sound aside ({.seq c} + R)) :
    (st.ownSeq c).1.elements (st.ownSeq c).2 = st.elements c := by
  by_cases hone : st.seqs.holders c = 1
  · rw [Store.ownSeq, if_pos hone]
  · rw [h.ownSeq_eq hone]
    exact elements_allocSeq _ _

theorem Sound.editSeq {c : Nat} {f : List Node → List Node}
    (h : st.Sound aside ({.seq c} + (X + R))) (one : st.count (.seq c) = 1)
    (hle : cellsOf (f (st.elements c)) ≤ X + cellsOf (st.elements c)) :
    (st.editSeq c f).Sound aside ({.seq c} + R) := by
  have hlt : st.Allocated (.seq c) := h.allocated (.root (by simp))
  obtain ⟨L, h⟩ := h
  refine ⟨L, h.edit_sole (edits_editSeq st c f) one ?_⟩
  rw [inside, elements_editSeq_self st f hlt]
  exact hle

theorem Sound.keeps_editSeq {c : Nat} (h : st.Sound aside ({.seq c} + R))
    (one : st.count (.seq c) = 1) (f : List Node → List Node) :
    Keeps st (st.editSeq c f) aside R := by
  have hout := h.not_aside (.root (k := .seq c) (by simp))
  obtain ⟨L, h⟩ := h
  have hn := h.not_reach_of_sole one
  exact ⟨fun k hk => (edits_editSeq st c f).agree k fun e => hout (e ▸ hk),
    fun k hk => (edits_editSeq st c f).agree k fun e => hn (e ▸ hk)⟩

theorem Sound.unpack {c : Nat} (h : st.Sound aside ({.seq c} + R))
    (one : st.count (.seq c) = 1) :
    st.Sound (insert (.seq c) aside) (cellsOf (st.elements c) + R) := by
  obtain ⟨L, h⟩ := h
  exact ⟨_, h.unpack one⟩

/-- A sequence that is set aside comes back, and its elements are no roots any more. -/
theorem Sound.pack {c : Nat} (h : st.Sound (insert (.seq c) aside) (cellsOf (st.elements c) + R))
    (hc : .seq c ∉ aside) : st.Sound aside ({.seq c} + R) := by
  obtain ⟨L, h⟩ := h
  exact ⟨_, h.pack hc⟩

theorem Sound.editSeq_aside {c : Nat} {f : List Node → List Node} (h : st.Sound aside R)
    (hc : .seq c ∈ aside) (hX : ∀ k ∈ X, st.Allocated k) (hno : ¬ Reach st X (.seq c))
    (hle : cellsOf (f (st.elements c)) ≤ X + cellsOf (st.elements c)) :
    (st.editSeq c f).Sound aside R := by
  have hlt : st.Allocated (.seq c) := h.aside_allocated hc
  have hg := h.grounded
  obtain ⟨L, h⟩ := h
  have hin : (st.editSeq c f).inside (.seq c) ≤ X + st.inside (.seq c) := by
    rw [inside, elements_editSeq_self st f hlt]
    exact hle
  refine ⟨L, h.edit_aside (edits_editSeq st c f) hc (fun j hj => ?_) fun hr => ?_⟩
  · rcases Multiset.mem_add.mp (Multiset.mem_of_le hin hj) with hj | hj
    · exact hX j hj
    · exact hg.inside_allocated hj
  · rcases (hr.mono (Multiset.subset_of_le hin)).of_add with hr | hr
    · exact hno hr
    · exact hg.not_reach _ hr

theorem Sound.keeps_editSeq_aside {c : Nat} (h : st.Sound (insert (.seq c) aside) R)
    (hc : .seq c ∉ aside) (f : List Node → List Node) : Keeps st (st.editSeq c f) aside R :=
  ⟨fun k hk => (edits_editSeq st c f).agree k fun e => hc (e ▸ hk),
    fun k hk => (edits_editSeq st c f).agree k fun e => h.not_aside hk (.inl e)⟩

theorem Visible.pack {c : Nat} {x : Node} (h : st.Visible (cellsOf (st.elements c) + R) x) :
    st.Visible ({.seq c} + R) x := by
  refine fun k hk => Reach.trans (fun j hj => ?_) (h k hk)
  rcases Multiset.mem_add.mp hj with hE | hR
  · exact .inside (j := .seq c) (.root (by simp)) hE
  · exact .root (Multiset.mem_add.mpr (.inr hR))

/-- The sequence `c` holds `xs` now, for a root of its own, and the roots `R` see no change. -/
structure Rewritten (st st' : Store) (aside : Set Cell) (c : Nat) (xs : List Node)
    (R : Multiset Cell) : Prop where
  sound : st'.Sound aside ({.seq c} + R)
  keeps : Keeps st st' aside R
  elements : st'.elements c = xs
  view : st'.viewSeq xs = st.viewSeq xs

/-- Edit a sequence that only a root holds. What comes into it is taken from the roots `X`. -/
theorem Sound.rewrite_owned {c : Nat} {f : List Node → List Node}
    (h : st.Sound aside ({.seq c} + (X + R))) (one : st.count (.seq c) = 1)
    (hle : cellsOf (f (st.elements c)) ≤ X + cellsOf (st.elements c)) :
    Rewritten st (st.editSeq c f) aside c (f (st.elements c)) R := by
  have hs : (st.editSeq c f).Sound aside ({.seq c} + R) := h.editSeq one hle
  have hel : (st.editSeq c f).elements c = f (st.elements c) :=
    elements_editSeq_self st f (h.allocated (.root (k := .seq c) (by simp)))
  refine ⟨hs, (h.keeps_editSeq one f).mono subset_rfl (Multiset.le_add_left _ _), hel, ?_⟩
  -- While the sequence is set aside, its elements are roots, which see no edit of it.
  have hout := h.unpack one
  have hin : .seq c ∉ aside := h.not_aside (.root (by simp))
  have hk := hout.keeps_editSeq_aside hin f
  refine List.map_congr_left fun z hz => ?_
  have hz1 : st.Visible (cellsOf (st.elements c) + (X + R)) z := by
    refine .of_le ((cells_le_cellsOf hz).trans (hle.trans ?_))
    rw [add_comm X, ← add_assoc]
    exact Multiset.le_add_right _ _
  have hz2 : (st.editSeq c f).Visible ({.seq c} + R) z :=
    Visible.list_element .root (by rw [hel]; exact hz)
  exact hout.view_congr hs hz1 hz2 hk.reach

/-- Edit a sequence for one of its holders, which moves to a copy if there are others. -/
theorem Sound.rewrite {c : Nat} {f : List Node → List Node}
    (h : st.Sound aside ({.seq c} + (X + R)))
    (hle : cellsOf (f (st.elements c)) ≤ X + cellsOf (st.elements c)) :
    Rewritten st ((st.ownSeq c).1.editSeq (st.ownSeq c).2 f) aside (st.ownSeq c).2
      (f (st.elements c)) R := by
  have g := h.ownSeq
  have he := h.elements_ownSeq
  have k := Keeps.of_extends (h.forget (Multiset.le_add_left _ _)) g.ext
  have w := g.sound.rewrite_owned (f := f) h.count_ownSeq (by rw [he]; exact hle)
  rw [he] at w
  refine ⟨w.sound, (k.mono subset_rfl (Multiset.le_add_left _ _)).trans w.keeps, w.elements,
    w.view.trans (List.map_congr_left fun z hz => ?_)⟩
  have hz0 : z.cells ≤ cellsOf (st.elements c) + (X + R) := by
    refine (cells_le_cellsOf hz).trans (hle.trans ?_)
    rw [add_comm X, ← add_assoc]
    exact Multiset.le_add_right _ _
  exact g.view_eq h (Visible.of_le hz0).pack (Visible.of_le (he.symm ▸ hz0)).pack

/-- Append counted nodes to a sequence for one of its holders. Without any the sequence stays. -/
def appendShared (st : Store) (c : Nat) (xs : List Node) : Store × Nat :=
  if xs.isEmpty then (st, c)
  else
    let (st, c) := st.ownSeq c
    ((st.shareAll xs).appendSeq c xs, c)

/-- Nodes that may come into a sequence that a root holds: the roots lead to them, and they are not
on the sequence itself if it is edited in place. -/
def MayJoin (st : Store) (c : Nat) (R : Multiset Cell) (xs : List Node) : Prop :=
  ∀ x ∈ xs, st.Visible ({.seq c} + R) x ∧ (st.seqs.holders c = 1 → .seq c ∉ x.cells)

/-- What the other roots lead to is not on a sequence that they do not hold. -/
theorem Sound.mayJoin {c : Nat} {xs : List Node} (h : st.Sound aside ({.seq c} + R))
    (hx : ∀ x ∈ xs, st.Visible R x) : st.MayJoin c R xs := by
  refine fun x hm => ⟨(hx x hm).mono (Multiset.le_add_left _ _), fun one hk => ?_⟩
  obtain ⟨L, h⟩ := h
  exact h.not_reach_of_sole one (hx x hm _ hk)

theorem MayJoin.ownSeq_notMem {c : Nat} {xs : List Node} (h : st.Sound aside ({.seq c} + R))
    (hx : st.MayJoin c R xs) : .seq (st.ownSeq c).2 ∉ cellsOf xs := by
  intro hm
  obtain ⟨x, hm, hk⟩ := mem_cellsOf.mp hm
  by_cases hone : st.seqs.holders c = 1
  · rw [Store.ownSeq, if_pos hone] at hk
    exact (hx x hm).2 hone hk
  · exact h.ownSeq_fresh hone (h.allocated ((hx x hm).1 _ hk))

/-- The nodes are counted after the sequence has been given up for a copy. -/
theorem Sound.ownSeq_shareAll {c : Nat} {xs : List Node} (h : st.Sound aside ({.seq c} + R))
    (hx : st.MayJoin c R xs) :
    ((st.ownSeq c).1.shareAll xs).Sound aside (cellsOf xs + ({.seq (st.ownSeq c).2} + R)) := by
  obtain ⟨L, h⟩ := h
  obtain ⟨L', hL, h'⟩ := h.ownSeq
  exact ⟨L', h'.shareAll fun x hm k hk => hL (h.visible_mem (hx x hm).1 k hk)⟩

theorem Sound.appendShared {c : Nat} {xs : List Node} (h : st.Sound aside ({.seq c} + R))
    (hx : st.MayJoin c R xs) :
    Rewritten st (st.appendShared c xs).1 aside (st.appendShared c xs).2 (st.elements c ++ xs)
      R := by
  have hnone := hx.ownSeq_notMem h
  have allocated : ∀ x ∈ xs, ∀ k ∈ x.cells, st.Allocated k :=
    fun x hm k hk => h.allocated ((hx x hm).1 k hk)
  have hs := h.ownSeq_shareAll hx
  have g := h.ownSeq
  have he := h.elements_ownSeq
  have one := h.count_ownSeq
  cases xs with
  | nil => exact ⟨h, .refl _ _ _, (List.append_nil _).symm, rfl⟩
  | cons y ys =>
      change Rewritten st (((st.ownSeq c).1.shareAll (y :: ys)).appendSeq (st.ownSeq c).2 (y :: ys))
        aside (st.ownSeq c).2 (st.elements c ++ y :: ys) R
      generalize (st.ownSeq c).1 = st1 at *
      generalize (st.ownSeq c).2 = c' at *
      have ext := g.ext.trans (extends_shareAll st1 (y :: ys))
      have he2 : (st1.shareAll (y :: ys)).elements c' = st.elements c :=
        ((extends_shareAll st1 _).agree (.seq c')
          (g.sound.allocated (.root (by simp)))).elements_eq.trans he
      have one2 : (st1.shareAll (y :: ys)).count (.seq c') = 1 := by
        rw [count_shareAll st1 _ _ fun x hm k hk => g.ext.allocated k (allocated x hm k hk), one,
          Multiset.count_eq_zero.mpr hnone]
        rfl
      have w := (hs.reorder (add_left_comm _ _ _)).rewrite_owned (f := (· ++ y :: ys)) one2
        (by rw [cellsOf_append, add_comm])
      rw [he2] at w
      have k := Keeps.of_extends (h.forget (Multiset.le_add_left _ _)) ext
      refine ⟨w.sound, k.trans w.keeps, w.elements,
        w.view.trans (List.map_congr_left fun z hz => ext.view_eq h.grounded ?_)⟩
      rcases List.mem_append.mp hz with hz | hz
      · exact h.grounded.element_allocated hz
      · exact allocated z hz

/-- A sole holder stays on its sequence, any other one moves to a new one. -/
theorem Sound.appendShared_snd_eq_iff {c : Nat} {xs : List Node}
    (h : st.Sound aside ({.seq c} + R)) :
    (st.appendShared c xs).2 = c ↔ xs = [] ∨ st.seqs.holders c = 1 := by
  cases xs with
  | nil => simp [Store.appendShared]
  | cons x xs =>
      by_cases hone : st.seqs.holders c = 1
      · simp [Store.appendShared, Store.ownSeq, hone]
      · have moved : (st.ownSeq c).2 ≠ c := fun he =>
          h.ownSeq_fresh hone (he.symm ▸ h.allocated (.root (by simp)))
        simp [Store.appendShared, hone, moved]

/-- A holder that moves leaves every cell as it is. -/
theorem Sound.extends_appendShared {c : Nat} {xs : List Node} (h : st.Sound aside ({.seq c} + R))
    (hne : (st.appendShared c xs).2 ≠ c) : Extends st (st.appendShared c xs).1 := by
  rw [Ne, h.appendShared_snd_eq_iff, not_or] at hne
  obtain ⟨y, ys, rfl⟩ := List.exists_cons_of_ne_nil hne.1
  have fresh := h.ownSeq_fresh hne.2
  have ext := h.ownSeq.ext.trans (extends_shareAll (st.ownSeq c).1 (y :: ys))
  have edit := edits_editSeq ((st.ownSeq c).1.shareAll (y :: ys)) (st.ownSeq c).2 (· ++ y :: ys)
  exact ⟨fun k hk => (edit.allocated k).mpr (ext.allocated k hk),
    fun k hk => (ext.agree k hk).trans (edit.agree k fun he => fresh (he ▸ hk))⟩

theorem Sound.agree_appendShared {c : Nat} {xs : List Node} {k : Cell}
    (h : st.Sound aside ({.seq c} + R)) (hk : st.Allocated k) (hne : k ≠ .seq c) :
    Agree st (st.appendShared c xs).1 k := by
  by_cases he : (st.appendShared c xs).2 = c
  · rcases h.appendShared_snd_eq_iff.mp he with rfl | one
    · exact .refl st k
    · cases xs with
      | nil => exact .refl st k
      | cons x xs =>
          simp only [Store.appendShared, Store.ownSeq, if_pos one]
          exact ((extends_shareAll st (x :: xs)).agree k hk).trans
            ((edits_editSeq _ c (· ++ x :: xs)).agree k hne)
  · exact (h.extends_appendShared he).agree k hk

/-- The sequence that a holder moves away from is still counted for the others. -/
theorem Sound.count_appendShared {c : Nat} {xs : List Node} (h : st.Sound aside ({.seq c} + R))
    (hx : st.MayJoin c R xs) (hne : (st.appendShared c xs).2 ≠ c) :
    0 < (st.appendShared c xs).1.count (.seq c) := by
  rw [Ne, h.appendShared_snd_eq_iff, not_or] at hne
  obtain ⟨y, ys, rfl⟩ := List.exists_cons_of_ne_nil hne.1
  have hc : st.Allocated (.seq c) := h.allocated (.root (by simp))
  have inner : ∀ x ∈ st.elements c, ∀ k ∈ x.cells, st.Allocated k :=
    fun x hm k hk => h.grounded.element_allocated hm k hk
  have held := count_shareAll st (st.elements c) (.seq c) inner
  have given := count_addHolders (st.shareAll (st.elements c)) (.list c) (-1) (.seq c) fun k hk =>
    (extends_shareAll st _).allocated k (Multiset.mem_singleton.mp hk ▸ hc)
  have own : (st.ownSeq c).1.count (.seq c) =
      ((st.shareAll (st.elements c)).drop (.list c)).count (.seq c) := by
    rw [h.ownSeq_eq hne.2]
    refine (adds_allocSeq _ _).count_other _ fun e => h.ownSeq_fresh hne.2 ?_
    rw [h.ownSeq_eq hne.2, ← e]
    exact hc
  have joined := count_shareAll (st.ownSeq c).1 (y :: ys) (.seq c) fun x hm k hk =>
    h.ownSeq.ext.allocated k (h.allocated ((hx x hm).1 k hk))
  have edit := (edits_editSeq ((st.ownSeq c).1.shareAll (y :: ys)) (st.ownSeq c).2
    (· ++ y :: ys)).count (.seq c)
  obtain ⟨L, h⟩ := h
  have counted := h.counted (.seq c)
  rw [holdings_add, Multiset.count_add, Multiset.count_singleton_self] at counted
  have two : st.count (.seq c) ≠ 1 := hne.2
  change 0 < (((st.ownSeq c).1.shareAll (y :: ys)).editSeq (st.ownSeq c).2 (· ++ y :: ys)).count _
  rw [edit, joined, own, Store.drop, given, held]
  simp only [Node.cells, Multiset.count_singleton_self]
  omega

/-- What a holder leads to it leads to after an append, except to the sequence it has moved from. -/
theorem Sound.reach_appendShared {c : Nat} {xs : List Node} {k : Cell}
    (h : st.Sound aside ({.seq c} + R)) (hx : st.MayJoin c R xs)
    (hk : Reach st ({.seq c} + R) k) :
    k = .seq c ∨ Reach (st.appendShared c xs).1 ({.seq (st.appendShared c xs).2} + R) k := by
  have w := h.appendShared hx
  induction hk with
  | root hk =>
      rcases Multiset.mem_add.mp hk with hk | hk
      · exact .inl (Multiset.mem_singleton.mp hk)
      · exact .inr (.root (Multiset.mem_add.mpr (.inr hk)))
  | @inside j k hj hin ih =>
      refine .inr ?_
      by_cases hjc : j = .seq c
      · subst hjc
        refine .inside (j := .seq (st.appendShared c xs).2) (.root (by simp)) ?_
        rw [inside, w.elements, cellsOf_append]
        exact Multiset.mem_add.mpr (.inl hin)
      · refine .inside (ih.resolve_left hjc) ?_
        rw [(h.agree_appendShared (h.allocated hj) hjc).inside_eq]
        exact hin

/-- Edit a copy of a sequence that the roots reach, after counting a holder for it. -/
theorem Sound.rewrite_copy {c : Nat} {f : List Node → List Node} (h : st.Sound aside (X + R))
    (hc : st.Visible (X + R) (.list c))
    (hle : cellsOf (f (st.elements c)) ≤ X + cellsOf (st.elements c)) :
    Rewritten st (((st.share (.list c)).ownSeq c).1.editSeq ((st.share (.list c)).ownSeq c).2 f)
      aside ((st.share (.list c)).ownSeq c).2 (f (st.elements c)) R := by
  have g := h.share hc
  have k := Keeps.of_extends h g.ext
  have hk : .seq c ∈ (Node.list c).cells := by simp [Node.cells]
  have e := (g.ext.agree _ (h.allocated (hc _ hk))).elements_eq
  have w := g.sound.rewrite (f := f) (by rw [e]; exact hle)
  rw [e] at w
  refine ⟨w.sound, (k.mono subset_rfl (Multiset.le_add_left _ _)).trans w.keeps, w.elements,
    w.view.trans (k.viewSeq_eq h g.sound (Multiset.le_add_left _ _) fun y hy j hj => ?_)⟩
  have hj' := Multiset.mem_of_le ((cells_le_cellsOf hy).trans hle) hj
  rcases Multiset.mem_add.mp hj' with hX | hE
  · exact .root (Multiset.mem_add.mpr (.inl hX))
  · exact .inside (j := .seq c) (hc _ hk) hE

theorem Sound.requote {x : Node} (h : st.Sound aside (x.cells + R)) :
    Grown st (st.requote x).1 aside (st.requote x).2.cells R := by
  unfold Store.requote
  split
  · exact h.makeQuote
  · exact .refl h

theorem Sound.unquote {x : Node} (h : st.Sound aside R) (hx : st.Visible R x) :
    Grown st (st.unquote x).1 aside (st.unquote x).2.cells R := by
  cases x with
  | quote c => exact h.share hx.quote_payload
  | int _ | bool _ | symbol _ | builtin _ | list _ | lambda _ _ _ => exact h.share hx

theorem Sound.kind_view {x : Node} (h : st.Sound aside R) (hx : st.Visible R x) :
    (st.view x).kind = x.kind := by
  cases x with
  | int _ | bool _ | symbol _ | builtin _ => rfl
  | quote c => rw [h.view_quote hx]; rfl
  | list c => rw [h.view_list hx]; rfl
  | lambda b p k => rw [h.view_lambda hx]; rfl

theorem Sound.needsQuote_view {x : Node} (h : st.Sound aside R) (hx : st.Visible R x) :
    (st.view x).needsQuote = x.needsQuote := by
  cases x with
  | int _ | bool _ | symbol _ | builtin _ => rfl
  | quote c => rw [h.view_quote hx]; rfl
  | list c => rw [h.view_list hx]; rfl
  | lambda b p k => rw [h.view_lambda hx]; rfl

theorem Sound.view_requote {x : Node} (h : st.Sound aside (x.cells + R)) :
    (st.requote x).1.view (st.requote x).2 = (st.view x).requote := by
  unfold Store.requote Datum.requote
  rw [h.needsQuote_view .root]
  split
  · exact h.view_makeQuote
  · rfl

theorem Sound.view_unquote {x : Node} (h : st.Sound aside R) (hx : st.Visible R x) :
    (st.unquote x).1.view (st.unquote x).2 = (st.view x).unquote := by
  have g := h.unquote hx
  cases x with
  | quote c =>
      rw [h.view_quote hx]
      exact g.view_eq h hx.quote_payload .root
  | int _ | bool _ | symbol _ | builtin _ => rfl
  | list c =>
      rw [h.view_list hx]
      exact (g.view_eq h hx .root).trans (h.view_list hx)
  | lambda b p k =>
      rw [h.view_lambda hx]
      exact (g.view_eq h hx .root).trans (h.view_lambda hx)

theorem Sound.quotedList?_view {x : Node} (h : st.Sound aside R) (hx : st.Visible R x) :
    (st.view x).quotedList? = (st.quotedList? x).map fun c => st.viewSeq (st.elements c) := by
  cases x with
  | int _ | bool _ | symbol _ | builtin _ => rfl
  | list c => rw [h.view_list hx]; rfl
  | lambda b p k => rw [h.view_lambda hx]; rfl
  | quote c =>
      have hp := hx.quote_payload
      rw [h.view_quote hx, quotedList?]
      cases hy : st.payload c with
      | int _ | bool _ | symbol _ | builtin _ => rfl
      | quote d => rw [hy] at hp; rw [h.view_quote hp]; rfl
      | list d => rw [hy] at hp; rw [h.view_list hp]; rfl
      | lambda b p k => rw [hy] at hp; rw [h.view_lambda hp]; rfl

theorem Visible.quotedList {x : Node} (hx : st.Visible R x) {c : Nat}
    (hc : st.quotedList? x = some c) : st.Visible R (.list c) := by
  cases x with
  | quote d =>
      have hp := hx.quote_payload
      rw [quotedList?] at hc
      cases hy : st.payload d with
      | list l =>
          simp only [hy, Option.some.injEq] at hc
          rw [hy, hc] at hp
          exact hp
      | int _ | bool _ | symbol _ | builtin _ | quote _ | lambda _ _ _ => simp [hy] at hc
  | int _ | bool _ | symbol _ | builtin _ | list _ | lambda _ _ _ => simp [quotedList?] at hc

mutual
theorem Sound.build {st : Store} {R : Multiset Cell} (h : st.Sound aside R) (d : Datum) :
    Grown st (st.build d).1 aside (st.build d).2.cells R ∧
      (st.build d).1.view (st.build d).2 = d := by
  match d with
  | .int _ | .bool _ | .symbol _ | .builtin _ =>
      exact ⟨.refl (h.reorder (zero_add _).symm), rfl⟩
  | .quote d =>
      obtain ⟨g, hv⟩ := Sound.build h d
      have hq := g.sound.view_makeQuote
      rw [hv] at hq
      exact ⟨g.trans g.sound.makeQuote, hq⟩
  | .list ds =>
      obtain ⟨g, hv⟩ := Sound.buildSeq h ds
      have hl := g.sound.view_makeList
      rw [hv] at hl
      exact ⟨g.trans g.sound.makeList, hl⟩
  | .lambda bound params body =>
      obtain ⟨g, hv⟩ := Sound.buildSeq h bound
      obtain ⟨g', hv'⟩ := Sound.build g.sound body
      have h2 := g'.sound.reorder (add_left_comm _ _ _)
      have hl := h2.view_makeLambda params
      have hb := (Keeps.of_extends g.sound g'.ext).viewSeq_eq g.sound g'.sound
        (Multiset.le_add_left _ _) fun x hx => .of_mem hx
      rw [hv', hb, hv] at hl
      exact ⟨(g.trans g').trans (h2.makeLambda params), hl⟩
termination_by structural d

theorem Sound.buildSeq {st : Store} {R : Multiset Cell} (h : st.Sound aside R) (ds : List Datum) :
    Grown st (st.buildSeq ds).1 aside (cellsOf (st.buildSeq ds).2) R ∧
      (st.buildSeq ds).1.viewSeq (st.buildSeq ds).2 = ds := by
  match ds with
  | [] => exact ⟨.refl (h.reorder (zero_add _).symm), rfl⟩
  | d :: ds =>
      obtain ⟨g, hv⟩ := Sound.build h d
      obtain ⟨g', hv'⟩ := Sound.buildSeq g.sound ds
      have hx := (Keeps.of_extends g.sound g'.ext).view_eq g.sound g'.sound
        (Multiset.le_add_left _ _) .root
      refine ⟨⟨g'.sound.reorder ?_, g.ext.trans g'.ext⟩, ?_⟩
      · rw [Store.buildSeq, cellsOf_cons]
        abel
      · rw [Store.buildSeq]
        exact congrArg₂ List.cons (hx.trans hv) hv'
termination_by structural ds
end

end CellScheme.Store
