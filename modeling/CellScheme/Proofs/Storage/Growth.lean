import CellScheme.Proofs.Storage.Tree

/-!
What the operations of the store do to roots and trees. All but the edits in place leave every
existing cell as it is, so they change no tree; what they make is one more root.
-/

namespace CellScheme.Store

/-- The roots have a ledger that leaves out the cells set aside. -/
def Sound (st : Store) (aside : Set Cell) (R : Multiset Cell) : Prop :=
  ∃ L, st.Ledger aside L R

/-- The second store has the roots `X` beyond the roots `R`, and all cells of the first as they
were. -/
structure Grown (st st' : Store) (aside : Set Cell) (X R : Multiset Cell) : Prop where
  sound : st'.Sound aside (X + R)
  ext : Extends st st'

variable {st st' st'' : Store} {aside aside' : Set Cell} {R R' S X Y : Multiset Cell}

theorem sound_empty : Store.empty.Sound ∅ 0 := by
  have none (k : Cell) : ¬ Store.empty.Allocated k := by
    cases k <;> exact Nat.not_lt_zero _
  have held (k : Cell) : Store.empty.inside k = 0 := inside_of_not_allocated _ (none k)
  have grounded : Store.empty.Grounded := by
    refine ⟨fun {j k} hk => ?_, fun k => .intro k fun j hj => ?_⟩
    · rw [held j] at hk
      exact absurd hk (Multiset.notMem_zero k)
    · rw [Below, held k] at hj
      exact absurd hj (Multiset.notMem_zero j)
  refine ⟨∅, by simp, by simp, by simp, by simp [holdings], fun k => ?_, grounded⟩
  simp [holdings, count_of_not_allocated _ (none k)]

namespace Sound

theorem forget (h : st.Sound aside R) (hs : S ≤ R) : st.Sound aside S := by
  obtain ⟨L, h⟩ := h
  exact ⟨L, h.forget hs⟩

theorem reorder (h : st.Sound aside R) (e : R = S) : st.Sound aside S :=
  e ▸ h

theorem set_less_aside (h : st.Sound aside R) (hs : aside' ⊆ aside) : st.Sound aside' R := by
  obtain ⟨L, h⟩ := h
  exact ⟨L, h.set_less_aside hs⟩

theorem allocated (h : st.Sound aside R) {k : Cell} (hk : Reach st R k) : st.Allocated k := by
  obtain ⟨L, h⟩ := h
  exact h.live k (h.reach_mem hk)

theorem not_aside (h : st.Sound aside R) {k : Cell} (hk : Reach st R k) : k ∉ aside := by
  obtain ⟨L, h⟩ := h
  exact h.apart k (h.reach_mem hk)

theorem aside_allocated (h : st.Sound aside R) {k : Cell} (hk : k ∈ aside) : st.Allocated k := by
  obtain ⟨L, h⟩ := h
  exact h.aside_allocated hk

theorem grounded (h : st.Sound aside R) : st.Grounded := by
  obtain ⟨L, h⟩ := h
  exact h.grounded

theorem view_quote (h : st.Sound aside R) {c : Nat} (hx : st.Visible R (.quote c)) :
    st.view (.quote c) = .quote (st.view (st.payload c)) :=
  h.grounded.view_quote (h.allocated (hx _ (by simp [Node.cells])))

theorem view_list (h : st.Sound aside R) {c : Nat} (hx : st.Visible R (.list c)) :
    st.view (.list c) = .list (st.viewSeq (st.elements c)) :=
  h.grounded.view_list (h.allocated (hx _ (by simp [Node.cells])))

theorem view_lambda (h : st.Sound aside R) {b p k : Nat} (hx : st.Visible R (.lambda b p k)) :
    st.view (.lambda b p k) =
      .lambda (st.viewSeq (st.elements b)) (st.params p) (st.view (st.payload k)) :=
  h.grounded.view_lambda fun j hj => h.allocated (hx j hj)

/-- A tree stays the same if the cells that its node reaches do. -/
theorem view_congr (h : st.Sound aside R) (h' : st'.Sound aside' R') {x : Node}
    (hx : st.Visible R x) (hx' : st'.Visible R' x)
    (ha : ∀ k, Reach st R k → Agree st st' k) : st'.view x = st.view x :=
  h.grounded.view_congr h'.grounded (fun k hk => h.allocated (hx k hk))
    (fun k hk => h'.allocated (hx' k hk)) fun k hk => ha k (Reach.trans hx hk)

end Sound

theorem Visible.quote_payload {c : Nat} (h : st.Visible R (.quote c)) :
    st.Visible R (st.payload c) :=
  .payload (h _ (by simp [Node.cells]))

theorem Visible.list_element {c : Nat} (h : st.Visible R (.list c)) {x : Node}
    (hx : x ∈ st.elements c) : st.Visible R x :=
  .element (h _ (by simp [Node.cells])) hx

theorem Visible.root {x : Node} : st.Visible (x.cells + R) x :=
  .of_le (Multiset.le_add_right _ _)

namespace Grown

theorem refl (h : st.Sound aside (X + R)) : Grown st st aside X R :=
  ⟨h, Extends.refl st⟩

theorem trans (h : Grown st st' aside X R) (h' : Grown st' st'' aside Y S) :
    Grown st st'' aside Y S :=
  ⟨h'.sound, h.ext.trans h'.ext⟩

/-- What was visible stays so. -/
theorem visible (h : Grown st st' aside X R) (hs : st.Sound aside' S) (hle : S ≤ X + R) {x : Node}
    (hx : st.Visible S x) : st'.Visible (X + R) x :=
  (hx.of_agree fun k hk => h.ext.agree k (hs.allocated hk)).mono hle

theorem view_eq (h : Grown st st' aside X R) (hs : st.Sound aside' S) {x : Node}
    (hx : st.Visible S x) (hx' : st'.Visible (X + R) x) : st'.view x = st.view x :=
  hs.view_congr h.sound hx hx' fun k hk => h.ext.agree k (hs.allocated hk)

end Grown

theorem Sound.share (h : st.Sound aside R) {x : Node} (hx : st.Visible R x) :
    Grown st (st.share x) aside x.cells R := by
  obtain ⟨L, h⟩ := h
  exact ⟨⟨L, h.share (h.visible_mem hx)⟩, extends_addHolders st x 1⟩

theorem extends_shareAll (st : Store) (xs : List Node) : Extends st (st.shareAll xs) := by
  induction xs generalizing st with
  | nil => exact Extends.refl st
  | cons x xs ih => exact (extends_addHolders st x 1).trans (ih (st.share x))

theorem Sound.shareAll (h : st.Sound aside R) {xs : List Node} (hx : ∀ x ∈ xs, st.Visible R x) :
    Grown st (st.shareAll xs) aside (cellsOf xs) R := by
  obtain ⟨L, h⟩ := h
  exact ⟨⟨L, h.shareAll fun x hm => h.visible_mem (hx x hm)⟩, extends_shareAll st xs⟩

theorem Sound.drop {x : Node} (h : st.Sound aside (x.cells + R)) :
    Grown st (st.drop x) aside 0 R := by
  obtain ⟨L, h⟩ := h
  exact ⟨⟨L, by rw [zero_add]; exact h.drop⟩, extends_addHolders st x (-1)⟩

theorem extends_dropAll (st : Store) (xs : List Node) : Extends st (xs.foldl Store.drop st) := by
  induction xs generalizing st with
  | nil => exact Extends.refl st
  | cons x xs ih => exact (extends_addHolders st x (-1)).trans (ih (st.drop x))

theorem Sound.dropAll {xs : List Node} (h : st.Sound aside (cellsOf xs + R)) :
    Grown st (xs.foldl Store.drop st) aside 0 R := by
  obtain ⟨L, h⟩ := h
  exact ⟨⟨L, by rw [zero_add]; exact h.dropAll⟩, extends_dropAll st xs⟩

theorem Sound.allocNode {x : Node} (h : st.Sound aside (x.cells + R)) :
    Grown st (st.allocNode x).1 aside {.node (st.allocNode x).2} R := by
  obtain ⟨L, h⟩ := h
  have a := adds_allocNode st x
  have hin : (st.allocNode x).1.inside (.node (st.allocNode x).2) = x.cells :=
    congrArg Node.cells (payload_allocNode st x)
  exact ⟨⟨_, Ledger.add a (hin.symm ▸ h)⟩, a.extends⟩

theorem Ledger.allocSeq {L : Finset Cell} {xs : List Node}
    (h : st.Ledger aside L (cellsOf xs + R)) :
    (st.allocSeq xs).1.Ledger aside (insert (.seq (st.allocSeq xs).2) L)
      ({.seq (st.allocSeq xs).2} + R) := by
  have hin : (st.allocSeq xs).1.inside (.seq (st.allocSeq xs).2) = cellsOf xs :=
    congrArg cellsOf (elements_allocSeq st xs)
  exact Ledger.add (adds_allocSeq st xs) (hin.symm ▸ h)

theorem Sound.allocSeq {xs : List Node} (h : st.Sound aside (cellsOf xs + R)) :
    Grown st (st.allocSeq xs).1 aside {.seq (st.allocSeq xs).2} R := by
  obtain ⟨L, h⟩ := h
  exact ⟨⟨_, h.allocSeq⟩, (adds_allocSeq st xs).extends⟩

theorem Sound.allocNames (h : st.Sound aside R) (ns : List Name) :
    Grown st (st.allocNames ns).1 aside {.names (st.allocNames ns).2} R := by
  obtain ⟨L, h⟩ := h
  have a := adds_allocNames st ns
  have hR : st.Ledger aside L ((st.allocNames ns).1.inside (.names (st.allocNames ns).2) + R) := by
    rw [inside, zero_add]
    exact h
  exact ⟨⟨_, Ledger.add a hR⟩, a.extends⟩

theorem makeQuote_eq (st : Store) (x : Node) :
    st.makeQuote x = ((st.allocNode x).1, .quote (st.allocNode x).2) := rfl

theorem makeList_eq (st : Store) (xs : List Node) :
    st.makeList xs = ((st.allocSeq xs).1, .list (st.allocSeq xs).2) := rfl

theorem Sound.makeQuote {x : Node} (h : st.Sound aside (x.cells + R)) :
    Grown st (st.makeQuote x).1 aside (st.makeQuote x).2.cells R := by
  rw [makeQuote_eq]
  exact h.allocNode

theorem Sound.view_makeQuote {x : Node} (h : st.Sound aside (x.cells + R)) :
    (st.makeQuote x).1.view (st.makeQuote x).2 = .quote (st.view x) := by
  have g := h.allocNode
  rw [makeQuote_eq]
  have hv : (st.allocNode x).1.Visible ({.node (st.allocNode x).2} + R)
      (.quote (st.allocNode x).2) := .root
  have hx := hv.quote_payload
  rw [payload_allocNode] at hx
  rw [g.sound.view_quote hv, payload_allocNode, g.view_eq h .root hx]

theorem Sound.makeList {xs : List Node} (h : st.Sound aside (cellsOf xs + R)) :
    Grown st (st.makeList xs).1 aside (st.makeList xs).2.cells R := by
  rw [makeList_eq]
  exact h.allocSeq

theorem Visible.of_mem {xs : List Node} {x : Node} (hx : x ∈ xs) :
    st.Visible (cellsOf xs + R) x :=
  .of_le ((cells_le_cellsOf hx).trans (Multiset.le_add_right _ _))

theorem Sound.view_makeList {xs : List Node} (h : st.Sound aside (cellsOf xs + R)) :
    (st.makeList xs).1.view (st.makeList xs).2 = .list (st.viewSeq xs) := by
  have g := h.allocSeq
  rw [makeList_eq]
  have hv : (st.allocSeq xs).1.Visible ({.seq (st.allocSeq xs).2} + R)
      (.list (st.allocSeq xs).2) := .root
  rw [g.sound.view_list hv, elements_allocSeq]
  refine congrArg Datum.list (List.map_congr_left fun x hm => g.view_eq h (.of_mem hm) ?_)
  exact hv.list_element (by rw [elements_allocSeq]; exact hm)

theorem makeLambda_eq (st : Store) (bound : List Node) (params : List Name) (body : Node) :
    st.makeLambda bound params body =
      ((((st.allocSeq bound).1.allocNames params).1.allocNode body).1,
        .lambda (st.allocSeq bound).2 ((st.allocSeq bound).1.allocNames params).2
          (((st.allocSeq bound).1.allocNames params).1.allocNode body).2) := rfl

theorem lambda_cells (b p k : Nat) :
    (Node.lambda b p k).cells = {.seq b} + ({.names p} + {.node k}) := by
  rw [Multiset.singleton_add, Multiset.singleton_add]
  rfl

/-- A lambda holds the sequence of its bound arguments beside its other cells. -/
theorem lambda_cells_add (b p k : Nat) (R : Multiset Cell) :
    (Node.lambda b p k).cells + R = {.seq b} + (({.names p} + {.node k}) + R) := by
  rw [lambda_cells, add_assoc]

theorem sound_lambda_iff {b p k : Nat} :
    st.Sound aside ((Node.lambda b p k).cells + R) ↔
      st.Sound aside ({.seq b} + (({.names p} + {.node k}) + R)) := by
  rw [lambda_cells_add]

theorem Sound.makeLambda {bound : List Node} {body : Node}
    (h : st.Sound aside (cellsOf bound + (body.cells + R))) (params : List Name) :
    Grown st (st.makeLambda bound params body).1 aside
      (st.makeLambda bound params body).2.cells R := by
  have g1 := h.allocSeq
  have g2 := g1.sound.allocNames params
  have h2 : ((st.allocSeq bound).1.allocNames params).1.Sound aside
      (body.cells + ({.seq (st.allocSeq bound).2} +
        ({.names ((st.allocSeq bound).1.allocNames params).2} + R))) :=
    g2.sound.reorder (by abel)
  have g3 := h2.allocNode
  rw [makeLambda_eq]
  refine ⟨g3.sound.reorder ?_, (g1.ext.trans g2.ext).trans g3.ext⟩
  rw [lambda_cells]
  abel

theorem Visible.lambda_body {b p k : Nat} (h : st.Visible R (.lambda b p k)) :
    st.Visible R (st.payload k) :=
  .payload (h _ (by simp [Node.cells]))

theorem Visible.lambda_bound {b p k : Nat} (h : st.Visible R (.lambda b p k)) {x : Node}
    (hx : x ∈ st.elements b) : st.Visible R x :=
  .element (h _ (by simp [Node.cells])) hx

theorem Sound.view_makeLambda {bound : List Node} {body : Node}
    (h : st.Sound aside (cellsOf bound + (body.cells + R))) (params : List Name) :
    (st.makeLambda bound params body).1.view (st.makeLambda bound params body).2 =
      .lambda (st.viewSeq bound) params (st.view body) := by
  have g : Grown st (st.makeLambda bound params body).1 aside
    (st.makeLambda bound params body).2.cells R := h.makeLambda params
  have e2 := (adds_allocNames (st.allocSeq bound).1 params).extends
  have e3 := (adds_allocNode ((st.allocSeq bound).1.allocNames params).1 body).extends
  have a1 := ((adds_allocSeq st bound).allocated _).mpr (.inr rfl)
  have a2 := ((adds_allocNames (st.allocSeq bound).1 params).allocated _).mpr (.inr rfl)
  rw [makeLambda_eq] at g ⊢
  have hb := ((e2.trans e3).agree _ a1).elements_eq.trans (elements_allocSeq st bound)
  have hp := (e3.agree _ a2).params_eq.trans (params_allocNames _ params)
  have hk := payload_allocNode ((st.allocSeq bound).1.allocNames params).1 body
  have hv : (((st.allocSeq bound).1.allocNames params).1.allocNode body).1.Visible _
      (.lambda (st.allocSeq bound).2 ((st.allocSeq bound).1.allocNames params).2
        (((st.allocSeq bound).1.allocNames params).1.allocNode body).2) := .root (R := R)
  have hvb := hv.lambda_body
  have hvx := fun x hx => hv.lambda_bound (x := x) hx
  rw [hk] at hvb
  rw [hb] at hvx
  rw [g.sound.view_lambda hv, hb, hp, hk,
    g.view_eq h (.of_le ((Multiset.le_add_right _ _).trans (Multiset.le_add_left _ _))) hvb]
  congr 1
  exact List.map_congr_left fun x hx => g.view_eq h (.of_mem hx) (hvx x hx)

end CellScheme.Store
