import CellScheme.Proofs.Storage.Ledger

/-!
The trees of cells. A store is grounded, so the gas given by the number of cells is enough to read
the tree of any cell that is there, and a tree is made of the trees of its parts. It depends only on
the cells that its node reaches.
-/

namespace CellScheme

theorem mapM_eq_some_iff {α β : Type} {f : α → Option β} {xs : List α} {ys : List β} :
    xs.mapM f = some ys ↔ xs.map f = ys.map some := by
  induction xs generalizing ys with
  | nil => cases ys <;> simp
  | cons x xs ih =>
      cases hx : f x with
      | none => cases ys <;> simp [List.mapM_cons, hx]
      | some y =>
          cases hxs : xs.mapM f with
          | none =>
              have hno : ∀ zs : List β, xs.map f ≠ zs.map some := fun zs hz => by
                rw [ih.mpr hz] at hxs
                cases hxs
              cases ys <;> simp [List.mapM_cons, hx, hxs, hno]
          | some zs =>
              have hz : xs.map f = zs.map some := ih.mp hxs
              cases ys with
              | nil => simp [List.mapM_cons, hx, hxs]
              | cons z ys => simp [List.mapM_cons, hx, hxs, hz,
                  (List.map_injective_iff.mpr (Option.some_injective β)).eq_iff]

theorem mapM_congr_of_mem {α β : Type} {f g : α → Option β} {xs : List α}
    (h : ∀ x ∈ xs, f x = g x) : xs.mapM f = xs.mapM g := by
  induction xs with
  | nil => rfl
  | cons x xs ih =>
      rw [List.mapM_cons, List.mapM_cons, h x (by simp), ih fun y hy => h y (by simp [hy])]

namespace Store

variable {st st' : Store}

theorem view?_quote (st : Store) (gas c : Nat) :
    st.view? (gas + 1) (.quote c) =
      (st.nodes.value? c).bind fun x => (st.view? gas x).map .quote := by
  rw [view?]

theorem view?_list (st : Store) (gas c : Nat) :
    st.view? (gas + 1) (.list c) =
      (st.seqs.value? c).bind fun xs => (xs.mapM (st.view? gas)).map .list := by
  rw [view?]

/-- The tree of a lambda, part by part. -/
theorem view?_lambda (st : Store) (gas b p k : Nat) :
    st.view? (gas + 1) (.lambda b p k) =
      (st.seqs.value? b).bind fun xs => (st.names.value? p).bind fun ns =>
        (st.nodes.value? k).bind fun y => (xs.mapM (st.view? gas)).bind fun bound =>
          (st.view? gas y).map fun body => .lambda bound ns body := by
  rw [view?]
  cases st.seqs.value? b <;> cases st.names.value? p <;> cases st.nodes.value? k <;>
    simp only [Option.bind_some, Option.bind_none]
  rename_i xs ns y
  cases xs.mapM (st.view? gas) <;> cases st.view? gas y <;> rfl

/-- More gas gives the same tree. -/
theorem view?_succ {gas : Nat} {x : Node} {d : Datum} (h : st.view? gas x = some d) :
    st.view? (gas + 1) x = some d := by
  induction gas generalizing x d with
  | zero => cases h
  | succ gas ih =>
      have seq : ∀ {xs : List Node} {ds : List Datum}, xs.mapM (st.view? gas) = some ds →
          xs.mapM (st.view? (gas + 1)) = some ds := by
        intro xs ds hds
        rw [mapM_eq_some_iff] at hds ⊢
        rw [← hds]
        refine List.map_congr_left fun y hy => ?_
        have hy' : st.view? gas y ∈ ds.map some := hds ▸ List.mem_map_of_mem hy
        obtain ⟨e, _, he⟩ := List.mem_map.mp hy'
        rw [← he, ih he.symm]
      cases x with
      | int _ | bool _ | symbol _ | builtin _ => exact h
      | quote c =>
          simp only [view?_quote, Option.bind_eq_some_iff, Option.map_eq_some_iff] at h ⊢
          obtain ⟨y, hy, e, he, rfl⟩ := h
          exact ⟨y, hy, e, ih he, rfl⟩
      | list c =>
          simp only [view?_list, Option.bind_eq_some_iff, Option.map_eq_some_iff] at h ⊢
          obtain ⟨ys, hys, es, hes, rfl⟩ := h
          exact ⟨ys, hys, es, seq hes, rfl⟩
      | lambda b p k =>
          simp only [view?_lambda, Option.bind_eq_some_iff, Option.map_eq_some_iff] at h ⊢
          obtain ⟨xs, hxs, ns, hns, y, hy, es, hes, e, he, rfl⟩ := h
          exact ⟨xs, hxs, ns, hns, y, hy, es, seq hes, e, ih he, rfl⟩

theorem view?_mono {gas gas' : Nat} (hle : gas ≤ gas') {x : Node} {d : Datum}
    (h : st.view? gas x = some d) : st.view? gas' x = some d := by
  induction hle with
  | refl => exact h
  | step _ ih => exact view?_succ ih

/-- The tree of a node depends on the cells that it reaches. -/
theorem view?_congr {gas : Nat} {x : Node} (h : ∀ k, Reach st x.cells k → Agree st st' k) :
    st'.view? gas x = st.view? gas x := by
  induction gas generalizing x with
  | zero => rfl
  | succ gas ih =>
      have part : ∀ k ∈ x.cells, ∀ {y : Node}, y.cells ≤ st.inside k →
          st'.view? gas y = st.view? gas y := fun k hk y hy => ih fun j hj =>
        h j (Reach.trans (fun i hi => .inside (.root hk) (Multiset.mem_of_le hy hi)) hj)
      have seq : ∀ {c : Nat}, .seq c ∈ x.cells → ∀ xs ∈ st.seqs.value? c,
          xs.mapM (st'.view? gas) = xs.mapM (st.view? gas) := by
        intro c hc xs hxs
        have hel : st.elements c = xs := by simp [elements, Option.mem_def.mp hxs]
        refine mapM_congr_of_mem fun y hy => part (.seq c) hc ?_
        exact cells_le_cellsOf (hel ▸ hy)
      have one : ∀ {c : Nat}, .node c ∈ x.cells → ∀ y ∈ st.nodes.value? c,
          st'.view? gas y = st.view? gas y := by
        intro c hc y hy
        have hp : st.payload c = y := by simp [payload, Option.mem_def.mp hy]
        exact part (.node c) hc (le_of_eq (congrArg Node.cells hp.symm))
      cases x with
      | int _ | bool _ | symbol _ | builtin _ => rfl
      | quote c =>
          have hc : Cell.node c ∈ (Node.quote c).cells := by simp [Node.cells]
          have ha : st'.nodes.value? c = st.nodes.value? c := h _ (.root hc)
          rw [view?_quote, view?_quote, ha]
          exact Option.bind_congr fun y hy => congrArg (Option.map Datum.quote) (one hc y hy)
      | list c =>
          have hc : Cell.seq c ∈ (Node.list c).cells := by simp [Node.cells]
          have ha : st'.seqs.value? c = st.seqs.value? c := h _ (.root hc)
          rw [view?_list, view?_list, ha]
          exact Option.bind_congr fun xs hxs => congrArg (Option.map Datum.list) (seq hc xs hxs)
      | lambda b p k =>
          have hb : Cell.seq b ∈ (Node.lambda b p k).cells := by simp [Node.cells]
          have hp : Cell.names p ∈ (Node.lambda b p k).cells := by simp [Node.cells]
          have hk : Cell.node k ∈ (Node.lambda b p k).cells := by simp [Node.cells]
          have hab : st'.seqs.value? b = st.seqs.value? b := h _ (.root hb)
          have hap : st'.names.value? p = st.names.value? p := h _ (.root hp)
          have hak : st'.nodes.value? k = st.nodes.value? k := h _ (.root hk)
          rw [view?_lambda, view?_lambda, hab, hap, hak]
          refine Option.bind_congr fun xs hxs => Option.bind_congr fun ns _ =>
            Option.bind_congr fun y hy => ?_
          rw [seq hb xs hxs, one hk y hy]

open Classical in
/-- The cells with parts that a node reaches. -/
noncomputable def reachSet (st : Store) (x : Node) : Finset Cell :=
  st.cells.filter fun k => k.hasParts ∧ Reach st x.cells k

theorem card_reachSet_le (st : Store) (x : Node) :
    (st.reachSet x).card ≤ st.nodes.size + st.seqs.size := by
  have hsub : st.reachSet x ⊆ (Finset.range st.nodes.size).image Cell.node ∪
      (Finset.range st.seqs.size).image Cell.seq := by
    intro k hk
    simp only [reachSet, Finset.mem_filter] at hk
    have hl := mem_cells.mp hk.1
    cases k with
    | node i => simpa [Allocated] using hl
    | seq i => simpa [Allocated] using hl
    | names i => exact hk.2.1.elim
  calc (st.reachSet x).card
      ≤ ((Finset.range st.nodes.size).image Cell.node ∪
          (Finset.range st.seqs.size).image Cell.seq).card := Finset.card_le_card hsub
    _ ≤ ((Finset.range st.nodes.size).image Cell.node).card +
          ((Finset.range st.seqs.size).image Cell.seq).card := Finset.card_union_le _ _
    _ ≤ (Finset.range st.nodes.size).card + (Finset.range st.seqs.size).card :=
        Nat.add_le_add Finset.card_image_le Finset.card_image_le
    _ = st.nodes.size + st.seqs.size := by simp

namespace Grounded

/-- A part of a node reaches fewer cells than the node. -/
theorem card_reachSet_lt (h : st.Grounded) {x y : Node} {k : Cell} (hk : k ∈ x.cells)
    (ha : st.Allocated k) (hp : k.hasParts) (hy : y.cells ≤ st.inside k) :
    (st.reachSet y).card < (st.reachSet x).card := by
  have hsub : ∀ j, Reach st y.cells j → Reach st x.cells j := fun j hj =>
    Reach.trans (fun i hi => .inside (.root hk) (Multiset.mem_of_le hy hi)) hj
  apply Finset.card_lt_card
  refine ⟨fun j hj => ?_, fun hsup => ?_⟩
  · simp only [reachSet, Finset.mem_filter] at hj ⊢
    exact ⟨hj.1, hj.2.1, hsub j hj.2.2⟩
  · have hmem : k ∈ st.reachSet y := hsup (by
      simp only [reachSet, Finset.mem_filter]
      exact ⟨mem_cells.mpr ha, hp, .root hk⟩)
    simp only [reachSet, Finset.mem_filter] at hmem
    exact h.not_reach k (hmem.2.2.mono (Multiset.subset_of_le hy))

/-- Gas for the cells that a node reaches is enough to read its tree. -/
theorem view?_isSome_of_card (h : st.Grounded) {gas : Nat} {x : Node}
    (hx : ∀ k ∈ x.cells, st.Allocated k) (hgas : (st.reachSet x).card ≤ gas) :
    ∃ d, st.view? (gas + 1) x = some d := by
  induction gas generalizing x with
  | zero =>
      -- Without gas for parts the node has none.
      have none : ∀ k ∈ x.cells, ¬ k.hasParts := by
        intro k hk hp
        have hlt := h.card_reachSet_lt (y := .bool true) hk (hx k hk) hp (Multiset.zero_le _)
        omega
      cases x with
      | int v => exact ⟨.int v, rfl⟩
      | bool b => exact ⟨.bool b, rfl⟩
      | symbol n => exact ⟨.symbol n, rfl⟩
      | builtin n => exact ⟨.builtin n, rfl⟩
      | quote c => exact (none (.node c) (by simp [Node.cells]) trivial).elim
      | list c => exact (none (.seq c) (by simp [Node.cells]) trivial).elim
      | lambda b p k => exact (none (.seq b) (by simp [Node.cells]) trivial).elim
  | succ gas ih =>
      have part : ∀ k ∈ x.cells, k.hasParts → ∀ {y : Node}, y.cells ≤ st.inside k →
          ∃ d, st.view? (gas + 1) y = some d := by
        intro k hk hp y hy
        have hlt := h.card_reachSet_lt hk (hx k hk) hp hy
        exact ih (fun j hj => h.inside_allocated (Multiset.mem_of_le hy hj)) (by omega)
      have seq : ∀ {c : Nat}, .seq c ∈ x.cells → ∀ xs, st.seqs.value? c = some xs →
          ∃ ds, xs.mapM (st.view? (gas + 1)) = some ds := by
        intro c hc xs hxs
        have hel : st.elements c = xs := by simp [elements, hxs]
        refine ⟨xs.map fun y => (st.view? (gas + 1) y).getD default, ?_⟩
        rw [mapM_eq_some_iff, List.map_map]
        refine List.map_congr_left fun y hy => ?_
        obtain ⟨d, hd⟩ := part (.seq c) hc trivial (y := y) (cells_le_cellsOf (hel ▸ hy))
        simp [hd]
      have one : ∀ {c : Nat}, .node c ∈ x.cells → ∀ y, st.nodes.value? c = some y →
          ∃ d, st.view? (gas + 1) y = some d := by
        intro c hc y hy
        have hp : st.payload c = y := by simp [payload, hy]
        exact part (.node c) hc trivial (le_of_eq (congrArg Node.cells hp.symm))
      cases x with
      | int v => exact ⟨.int v, rfl⟩
      | bool b => exact ⟨.bool b, rfl⟩
      | symbol n => exact ⟨.symbol n, rfl⟩
      | builtin n => exact ⟨.builtin n, rfl⟩
      | quote c =>
          have hc : Cell.node c ∈ (Node.quote c).cells := by simp [Node.cells]
          obtain ⟨y, hy⟩ := st.nodes.exists_value?_of_lt (hx _ hc)
          obtain ⟨d, hd⟩ := one hc y hy
          exact ⟨.quote d, by simp [view?_quote, hy, hd]⟩
      | list c =>
          have hc : Cell.seq c ∈ (Node.list c).cells := by simp [Node.cells]
          obtain ⟨xs, hxs⟩ := st.seqs.exists_value?_of_lt (hx _ hc)
          obtain ⟨ds, hds⟩ := seq hc xs hxs
          exact ⟨.list ds, by simp [view?_list, hxs, hds]⟩
      | lambda b p k =>
          have hb : Cell.seq b ∈ (Node.lambda b p k).cells := by simp [Node.cells]
          have hp : Cell.names p ∈ (Node.lambda b p k).cells := by simp [Node.cells]
          have hk : Cell.node k ∈ (Node.lambda b p k).cells := by simp [Node.cells]
          obtain ⟨xs, hxs⟩ := st.seqs.exists_value?_of_lt (hx _ hb)
          obtain ⟨ns, hns⟩ := st.names.exists_value?_of_lt (hx _ hp)
          obtain ⟨y, hy⟩ := st.nodes.exists_value?_of_lt (hx _ hk)
          obtain ⟨ds, hds⟩ := seq hb xs hxs
          obtain ⟨d, hd⟩ := one hk y hy
          exact ⟨.lambda ds ns d, by simp [view?_lambda, hxs, hns, hy, hds, hd]⟩

/-- A node on cells that are there has a tree. -/
theorem view?_eq (h : st.Grounded) {x : Node} (hx : ∀ k ∈ x.cells, st.Allocated k) :
    st.view? st.gas x = some (st.view x) := by
  obtain ⟨d, hd⟩ := h.view?_isSome_of_card hx (st.card_reachSet_le x)
  rw [view, gas, hd]
  rfl

/-- The tree that any amount of gas gives is the tree of the node. -/
theorem view_of_view? (h : st.Grounded) {x : Node} (hx : ∀ k ∈ x.cells, st.Allocated k)
    {gas : Nat} {d : Datum} (hd : st.view? gas x = some d) : st.view x = d := by
  have h1 := view?_mono (Nat.le_max_left st.gas gas) (h.view?_eq hx)
  have h2 := view?_mono (Nat.le_max_right st.gas gas) hd
  exact Option.some.inj (h1.symm.trans h2)

theorem payload_allocated (h : st.Grounded) (c : Nat) :
    ∀ k ∈ (st.payload c).cells, st.Allocated k :=
  fun _ hk => h.inside_allocated (j := .node c) hk

theorem element_allocated (h : st.Grounded) {c : Nat} {x : Node} (hx : x ∈ st.elements c) :
    ∀ k ∈ x.cells, st.Allocated k :=
  fun _ hk => h.inside_allocated (j := .seq c) (Multiset.mem_of_le (cells_le_cellsOf hx) hk)

theorem mapM_view?_eq (h : st.Grounded) (c : Nat) :
    (st.elements c).mapM (st.view? st.gas) = some (st.viewSeq (st.elements c)) := by
  rw [mapM_eq_some_iff, viewSeq, List.map_map]
  exact List.map_congr_left fun y hy => h.view?_eq (h.element_allocated hy)

theorem view_quote (h : st.Grounded) {c : Nat} (hc : st.Allocated (.node c)) :
    st.view (.quote c) = .quote (st.view (st.payload c)) := by
  obtain ⟨y, hy⟩ := st.nodes.exists_value?_of_lt hc
  have hp : st.payload c = y := by simp [payload, hy]
  have hd : st.view? (st.gas + 1) (.quote c) = some (.quote (st.view (st.payload c))) := by
    simp only [view?_quote, hy, Option.bind_some, ← hp, h.view?_eq (h.payload_allocated c)]
    rfl
  exact h.view_of_view? (by simpa [Node.cells] using hc) hd

theorem view_list (h : st.Grounded) {c : Nat} (hc : st.Allocated (.seq c)) :
    st.view (.list c) = .list (st.viewSeq (st.elements c)) := by
  obtain ⟨xs, hxs⟩ := st.seqs.exists_value?_of_lt hc
  have hel : st.elements c = xs := by simp [elements, hxs]
  have hd : st.view? (st.gas + 1) (.list c) = some (.list (st.viewSeq (st.elements c))) := by
    simp only [view?_list, hxs, Option.bind_some, ← hel, h.mapM_view?_eq c]
    rfl
  exact h.view_of_view? (by simpa [Node.cells] using hc) hd

theorem view_lambda (h : st.Grounded) {b p k : Nat}
    (hx : ∀ j ∈ (Node.lambda b p k).cells, st.Allocated j) :
    st.view (.lambda b p k) =
      .lambda (st.viewSeq (st.elements b)) (st.params p) (st.view (st.payload k)) := by
  obtain ⟨xs, hxs⟩ := st.seqs.exists_value?_of_lt (hx (.seq b) (by simp [Node.cells]))
  obtain ⟨ns, hns⟩ := st.names.exists_value?_of_lt (hx (.names p) (by simp [Node.cells]))
  obtain ⟨y, hy⟩ := st.nodes.exists_value?_of_lt (hx (.node k) (by simp [Node.cells]))
  have hel : st.elements b = xs := by simp [elements, hxs]
  have hpa : st.params p = ns := by simp [params, hns]
  have hpy : st.payload k = y := by simp [payload, hy]
  have hd : st.view? (st.gas + 1) (.lambda b p k) =
      some (.lambda (st.viewSeq (st.elements b)) (st.params p) (st.view (st.payload k))) := by
    simp only [view?_lambda, hxs, hns, hy, Option.bind_some, ← hel, ← hpa, ← hpy,
      h.mapM_view?_eq b, h.view?_eq (h.payload_allocated k)]
    rfl
  exact h.view_of_view? hx hd

/-- Stores that agree on what a node reaches show the same tree. -/
theorem view_congr (h : st.Grounded) (h' : st'.Grounded) {x : Node}
    (hx : ∀ k ∈ x.cells, st.Allocated k) (hx' : ∀ k ∈ x.cells, st'.Allocated k)
    (ha : ∀ k, Reach st x.cells k → Agree st st' k) : st'.view x = st.view x :=
  h'.view_of_view? hx' ((view?_congr ha).trans (h.view?_eq hx))

end Grounded

theorem Extends.gas_le (e : Extends st st') : st.gas ≤ st'.gas := by
  have nodes : st.nodes.size ≤ st'.nodes.size :=
    Nat.le_of_not_lt fun hlt => Nat.lt_irrefl _ (e.allocated (.node st'.nodes.size) hlt)
  have seqs : st.seqs.size ≤ st'.seqs.size :=
    Nat.le_of_not_lt fun hlt => Nat.lt_irrefl _ (e.allocated (.seq st'.seqs.size) hlt)
  rw [gas, gas]
  omega

/-- A tree stays the same when nothing but new cells comes. -/
theorem Extends.view_eq (e : Extends st st') (h : st.Grounded) {x : Node}
    (hx : ∀ k ∈ x.cells, st.Allocated k) : st'.view x = st.view x := by
  have reached : ∀ k, Reach st x.cells k → st.Allocated k := by
    intro k hk
    cases hk with
    | root hk => exact hx k hk
    | inside _ hk => exact h.inside_allocated hk
  have same : st'.view? st.gas x = some (st.view x) :=
    (view?_congr fun k hk => e.agree k (reached k hk)).trans (h.view?_eq hx)
  rw [view, view?_mono e.gas_le same]
  rfl

theorem Ledger.view?_eq {aside : Set Cell} {L : Finset Cell} {R : Multiset Cell}
    (h : st.Ledger aside L R) {x : Node} (hx : ∀ k ∈ x.cells, k ∈ L) :
    st.view? st.gas x = some (st.view x) :=
  h.grounded.view?_eq fun k hk => h.live k (hx k hk)

@[simp]
theorem view_int (st : Store) (v : Int64) : st.view (.int v) = .int v := rfl

@[simp]
theorem view_bool (st : Store) (b : Bool) : st.view (.bool b) = .bool b := rfl

@[simp]
theorem view_symbol (st : Store) (n : Name) : st.view (.symbol n) = .symbol n := rfl

@[simp]
theorem view_builtin (st : Store) (n : Name) : st.view (.builtin n) = .builtin n := rfl

@[simp]
theorem length_viewSeq (st : Store) (xs : List Node) : (st.viewSeq xs).length = xs.length :=
  List.length_map _

end Store

end CellScheme
