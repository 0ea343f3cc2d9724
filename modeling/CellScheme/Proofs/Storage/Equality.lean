import CellScheme.Proofs.Storage.Edit
import CellScheme.Proofs.Reading.RoundTrip
import CellScheme.Store.Equality

/-!
The laws of the two equalities. A layer of a comparison looks at the kinds of two nodes and at their
values, and leaves the parts of quotes and lists to relations on cells. If those are equivalences,
so is the layer: this carries both equalities from one amount of gas to the next. Nodes whose cells
can be followed to the end have trees, and on these more gas changes no answer. Without lambdas in
them, equal nodes are those whose trees are equal but for one quote.
-/

namespace CellScheme

namespace Datum

/-- No lambda stands anywhere in the expression. -/
inductive LambdaFree : Datum → Prop where
  | int (v : Int64) : LambdaFree (.int v)
  | bool (b : Bool) : LambdaFree (.bool b)
  | symbol (n : Name) : LambdaFree (.symbol n)
  | builtin (n : Name) : LambdaFree (.builtin n)
  | quote {d : Datum} : LambdaFree d → LambdaFree (.quote d)
  | list {ds : List Datum} : (∀ d ∈ ds, LambdaFree d) → LambdaFree (.list ds)

theorem Readable.lambdaFree {d : Datum} (h : d.Readable) : d.LambdaFree := by
  induction h with
  | int v => exact .int v
  | bool b => exact .bool b
  | symbol _ => exact .symbol _
  | quote _ ih => exact .quote ih
  | list _ ih => exact .list ih

theorem LambdaFree.unquote {d : Datum} (h : d.LambdaFree) : d.unquote.LambdaFree := by
  cases h with
  | quote hd => exact hd
  | int v => exact .int v
  | bool b => exact .bool b
  | symbol n => exact .symbol n
  | builtin n => exact .builtin n
  | list hds => exact .list hds

theorem Readable.unquote {d : Datum} (h : d.Readable) : d.unquote.Readable := by
  cases h with
  | quote hd => exact hd
  | int v => exact .int v
  | bool b => exact .bool b
  | symbol hs => exact .symbol hs
  | list hds => exact .list hds

end Datum

theorem forall₂_trans {α : Type} {r : α → α → Prop} (h : ∀ x y z, r x y → r y z → r x z)
    {xs ys zs : List α} (hxy : List.Forall₂ r xs ys) (hyz : List.Forall₂ r ys zs) :
    List.Forall₂ r xs zs := by
  induction hxy generalizing zs with
  | nil => exact hyz
  | cons hx _ ih =>
      cases hyz with
      | cons hy hyz => exact .cons (h _ _ _ hx hy) (ih hyz)

namespace Store

variable {st : Store}

/-- Cells are the same if they are one cell, or if their contents are the same. -/
def SameCell {α : Type} (contents : Nat → α) (same : α → α → Prop) (c d : Nat) : Prop :=
  c = d ∨ same (contents c) (contents d)

theorem SameCell.equivalence {α : Type} {contents : Nat → α} {same : α → α → Prop}
    (symm : ∀ x y, same x y → same y x) (trans : ∀ x y z, same x y → same y z → same x z) :
    Equivalence (SameCell contents same) := by
  refine ⟨fun _ => .inl rfl, ?_, ?_⟩
  · rintro c d (rfl | h)
    · exact .inl rfl
    · exact .inr (symm _ _ h)
  · rintro c d e (rfl | h) (rfl | h')
    · exact .inl rfl
    · exact .inr h'
    · exact .inr h
    · exact .inr (trans _ _ _ h h')

theorem SameCell.mono {α : Type} {contents : Nat → α} {same same' : α → α → Prop} {c d : Nat}
    (h : SameCell contents same c d) (hs : ∀ {x y}, same x y → same' x y) :
    SameCell contents same' c d :=
  h.imp_right hs

/-- Cells of no elements are the same for every comparison by storage. -/
def SameStorage (st : Store) : Nat → Nat → Prop :=
  SameCell st.elements fun xs ys => xs = [] ∧ ys = []

theorem SameStorage.equivalence (st : Store) : Equivalence st.SameStorage :=
  SameCell.equivalence (fun _ _ h => ⟨h.2, h.1⟩) fun _ _ _ h h' => ⟨h.1, h'.2⟩

/-- Nodes of one kind with the same value, where quotes and lists are compared by relations on their
cells. -/
inductive Alike (st : Store) (quotes lists : Nat → Nat → Prop) : Node → Node → Prop where
  | int (v : Int64) : Alike st quotes lists (.int v) (.int v)
  | bool (b : Bool) : Alike st quotes lists (.bool b) (.bool b)
  | symbol (n : Name) : Alike st quotes lists (.symbol n) (.symbol n)
  | builtin (n : Name) : Alike st quotes lists (.builtin n) (.builtin n)
  | quote {c d : Nat} : quotes c d → Alike st quotes lists (.quote c) (.quote d)
  | list {c d : Nat} : lists c d → Alike st quotes lists (.list c) (.list d)
  | lambda {b b' p k : Nat} : st.SameStorage b b' →
      Alike st quotes lists (.lambda b p k) (.lambda b' p k)

section

variable {quotes lists quotes' lists' : Nat → Nat → Prop}

theorem Alike.mono {x y : Node} (h : st.Alike quotes lists x y)
    (hq : ∀ {c d}, quotes c d → quotes' c d) (hl : ∀ {c d}, lists c d → lists' c d) :
    st.Alike quotes' lists' x y := by
  cases h with
  | int v => exact .int v
  | bool b => exact .bool b
  | symbol n => exact .symbol n
  | builtin n => exact .builtin n
  | quote hc => exact .quote (hq hc)
  | list hc => exact .list (hl hc)
  | lambda hb => exact .lambda hb

theorem Alike.equivalence (hq : Equivalence quotes) (hl : Equivalence lists) :
    Equivalence (st.Alike quotes lists) := by
  have hs := SameStorage.equivalence st
  refine ⟨fun x => ?_, fun h => ?_, fun h h' => ?_⟩
  · cases x with
    | int v => exact .int v
    | bool b => exact .bool b
    | symbol n => exact .symbol n
    | builtin n => exact .builtin n
    | quote c => exact .quote (hq.refl c)
    | list c => exact .list (hl.refl c)
    | lambda b p k => exact .lambda (hs.refl b)
  · cases h with
    | int v => exact .int v
    | bool b => exact .bool b
    | symbol n => exact .symbol n
    | builtin n => exact .builtin n
    | quote hc => exact .quote (hq.symm hc)
    | list hc => exact .list (hl.symm hc)
    | lambda hb => exact .lambda (hs.symm hb)
  · cases h with
    | int _ | bool _ | symbol _ | builtin _ => exact h'
    | quote hc =>
        cases h' with
        | quote hd => exact .quote (hq.trans hc hd)
    | list hc =>
        cases h' with
        | list hd => exact .list (hl.trans hc hd)
    | lambda hb =>
        cases h' with
        | lambda hb' => exact .lambda (hs.trans hb hb')

end

theorem sameProcedure_iff {b p k b' p' k' : Nat} :
    st.sameProcedure b p k b' p' k' = true ↔ k = k' ∧ p = p' ∧ st.SameStorage b b' := by
  simp only [sameProcedure, Bool.and_eq_true, Bool.or_eq_true, beq_iff_eq, List.isEmpty_iff,
    and_assoc]
  rfl

/-- The layer that the comparisons have in common. -/
def alike (st : Store) (quotes lists : Nat → Nat → Bool) : Node → Node → Bool
  | .int v, .int w => v == w
  | .bool b, .bool b' => b == b'
  | .symbol n, .symbol n' => n == n'
  | .builtin n, .builtin n' => n == n'
  | .quote c, .quote d => quotes c d
  | .list c, .list d => lists c d
  | .lambda b p k, .lambda b' p' k' => st.sameProcedure b p k b' p' k'
  | _, _ => false

theorem alike_iff {quotes lists : Nat → Nat → Bool} {x y : Node} :
    st.alike quotes lists x y = true ↔
      st.Alike (fun c d => quotes c d = true) (fun c d => lists c d = true) x y := by
  constructor
  · intro h
    unfold alike at h
    split at h
    · exact eq_of_beq h ▸ .int _
    · exact eq_of_beq h ▸ .bool _
    · exact eq_of_beq h ▸ .symbol _
    · exact eq_of_beq h ▸ .builtin _
    · exact .quote h
    · exact .list h
    · obtain ⟨rfl, rfl, hb⟩ := sameProcedure_iff.mp h
      exact .lambda hb
    · cases h
  · intro h
    cases h with
    | int _ | bool _ | symbol _ | builtin _ => exact beq_self_eq_true _
    | quote hc => exact hc
    | list hc => exact hc
    | lambda hb => exact sameProcedure_iff.mpr ⟨rfl, rfl, hb⟩

theorem all_zip_iff {same : Node → Node → Bool} {xs ys : List Node} :
    (xs.length == ys.length && (xs.zip ys).all fun (x, y) => same x y) = true ↔
      List.Forall₂ (fun x y => same x y = true) xs ys := by
  rw [Bool.and_eq_true, beq_iff_eq, List.all_eq_true, List.forall₂_iff_zip]
  exact and_congr_right fun _ => ⟨fun h _ _ hp => h _ hp, fun h _ hp => h hp⟩

theorem sameData_succ_iff {gas : Nat} {x y : Node} :
    st.sameData (gas + 1) x y = true ↔
      st.Alike (SameCell st.payload fun x y => st.sameData gas x y = true)
        (SameCell st.elements (List.Forall₂ fun x y => st.sameData gas x y = true)) x y := by
  have layer : st.sameData (gas + 1) x y =
      st.alike (fun c d => c == d || st.sameData gas (st.payload c) (st.payload d))
        (fun c d => c == d || ((st.elements c).length == (st.elements d).length &&
          ((st.elements c).zip (st.elements d)).all fun (x, y) => st.sameData gas x y)) x y := by
    cases x <;> cases y <;> rfl
  simp only [layer, alike_iff, Bool.or_eq_true, beq_iff_eq, all_zip_iff]
  rfl

theorem identicalAt_succ_iff {gas : Nat} {x y : Node} :
    st.identicalAt (gas + 1) x y = true ↔
      st.Alike (SameCell st.payload fun x y => st.identicalAt gas x y = true) st.SameStorage
        x y := by
  have layer : st.identicalAt (gas + 1) x y =
      st.alike (fun c d => c == d || st.identicalAt gas (st.payload c) (st.payload d))
        (fun c d => c == d || ((st.elements c).isEmpty && (st.elements d).isEmpty)) x y := by
    cases x <;> cases y <;> first | rfl | exact Bool.or_comm _ _
  simp only [layer, alike_iff, Bool.or_eq_true, Bool.and_eq_true, beq_iff_eq, List.isEmpty_iff]
  rfl

theorem sameData_equivalence (st : Store) (gas : Nat) :
    Equivalence fun x y => st.sameData (gas + 1) x y = true := by
  have layer (gas : Nat)
      (symm : ∀ x y, st.sameData gas x y = true → st.sameData gas y x = true)
      (trans : ∀ x y z, st.sameData gas x y = true → st.sameData gas y z = true →
        st.sameData gas x z = true) :
      Equivalence fun x y => st.sameData (gas + 1) x y = true := by
    simp only [sameData_succ_iff]
    exact Alike.equivalence (SameCell.equivalence symm trans)
      (SameCell.equivalence (fun _ _ h => (h.imp symm).flip) fun _ _ _ => forall₂_trans trans)
  induction gas with
  | zero => exact layer 0 (fun _ _ h => by cases h) fun _ _ _ h => by cases h
  | succ gas ih => exact layer (gas + 1) (fun _ _ => ih.symm) fun _ _ _ => ih.trans

theorem identicalAt_equivalence (st : Store) (gas : Nat) :
    Equivalence fun x y => st.identicalAt (gas + 1) x y = true := by
  have layer (gas : Nat)
      (symm : ∀ x y, st.identicalAt gas x y = true → st.identicalAt gas y x = true)
      (trans : ∀ x y z, st.identicalAt gas x y = true → st.identicalAt gas y z = true →
        st.identicalAt gas x z = true) :
      Equivalence fun x y => st.identicalAt (gas + 1) x y = true := by
    simp only [identicalAt_succ_iff]
    exact Alike.equivalence (SameCell.equivalence symm trans) (SameStorage.equivalence st)
  induction gas with
  | zero => exact layer 0 (fun _ _ h => by cases h) fun _ _ _ h => by cases h
  | succ gas ih => exact layer (gas + 1) (fun _ _ => ih.symm) fun _ _ _ => ih.trans

theorem sameData_self (st : Store) (gas : Nat) (x : Node) : st.sameData (gas + 1) x x = true :=
  (st.sameData_equivalence gas).refl x

theorem SameStorage.elements {same : Node → Node → Prop} {c d : Nat} (h : st.SameStorage c d) :
    SameCell st.elements (List.Forall₂ same) c d := by
  apply SameCell.mono h
  rintro _ _ ⟨rfl, rfl⟩
  exact .nil

theorem sameData_of_identicalAt {gas : Nat} {x y : Node} (h : st.identicalAt gas x y = true) :
    st.sameData gas x y = true := by
  induction gas generalizing x y with
  | zero => cases h
  | succ gas ih =>
      rw [identicalAt_succ_iff] at h
      rw [sameData_succ_iff]
      exact h.mono (fun hc => hc.mono ih) SameStorage.elements

theorem sameData_succ {gas : Nat} {x y : Node} (h : st.sameData gas x y = true) :
    st.sameData (gas + 1) x y = true := by
  induction gas generalizing x y with
  | zero => cases h
  | succ gas ih =>
      rw [sameData_succ_iff] at h ⊢
      exact h.mono (fun hc => hc.mono ih) fun hc => hc.mono fun hs => hs.imp fun _ _ => ih

/-- The cells of a node are initialised, and so are those inside of them, down to the leaves: the
node has a tree. -/
def HasTree (st : Store) (x : Node) : Prop :=
  st.view? st.gas x = some (st.view x)

theorem Sound.hasTree {aside : Set Cell} {R : Multiset Cell} (h : st.Sound aside R) {x : Node}
    (hx : st.Visible R x) : st.HasTree x :=
  h.grounded.view?_eq fun k hk => h.allocated (hx k hk)

/-- One layer of a tree. -/
inductive Unfolds (st : Store) (part : Node → Datum → Prop) : Node → Datum → Prop where
  | int (v : Int64) : Unfolds st part (.int v) (.int v)
  | bool (b : Bool) : Unfolds st part (.bool b) (.bool b)
  | symbol (n : Name) : Unfolds st part (.symbol n) (.symbol n)
  | builtin (n : Name) : Unfolds st part (.builtin n) (.builtin n)
  | quote {c : Nat} {d : Datum} : part (st.payload c) d → Unfolds st part (.quote c) (.quote d)
  | list {c : Nat} {ds : List Datum} : List.Forall₂ part (st.elements c) ds →
      Unfolds st part (.list c) (.list ds)
  | lambda {b p k : Nat} {bound : List Datum} {body : Datum} :
      List.Forall₂ part (st.elements b) bound → part (st.payload k) body →
      Unfolds st part (.lambda b p k) (.lambda bound (st.params p) body)

theorem forall₂_of_mapM {gas : Nat} {xs : List Node} {ds : List Datum}
    (h : xs.mapM (st.view? gas) = some ds) :
    List.Forall₂ (fun x d => st.view? gas x = some d) xs ds := by
  rw [mapM_eq_some_iff, ← List.forall₂_eq_eq_eq, List.forall₂_map_left_iff,
    List.forall₂_map_right_iff] at h
  exact h

theorem unfolds_of_view? {gas : Nat} {x : Node} {d : Datum} (h : st.view? (gas + 1) x = some d) :
    st.Unfolds (fun x d => st.view? gas x = some d) x d := by
  cases x with
  | int v =>
      obtain rfl := Option.some.inj h
      exact .int v
  | bool b =>
      obtain rfl := Option.some.inj h
      exact .bool b
  | symbol n =>
      obtain rfl := Option.some.inj h
      exact .symbol n
  | builtin n =>
      obtain rfl := Option.some.inj h
      exact .builtin n
  | quote c =>
      simp only [view?_quote, Option.bind_eq_some_iff, Option.map_eq_some_iff] at h
      obtain ⟨x, hx, d, hd, rfl⟩ := h
      exact .quote (by simpa [payload, hx] using hd)
  | list c =>
      simp only [view?_list, Option.bind_eq_some_iff, Option.map_eq_some_iff] at h
      obtain ⟨xs, hxs, ds, hds, rfl⟩ := h
      exact .list (by simpa [elements, hxs] using forall₂_of_mapM hds)
  | lambda b p k =>
      simp only [view?_lambda, Option.bind_eq_some_iff, Option.map_eq_some_iff] at h
      obtain ⟨xs, hxs, ns, hns, x, hx, bound, hb, body, hbody, rfl⟩ := h
      obtain rfl : st.params p = ns := by simp [params, hns]
      exact .lambda (by simpa [elements, hxs] using forall₂_of_mapM hb)
        (by simpa [payload, hx] using hbody)

theorem exists_view_of_mem {gas : Nat} {xs : List Node} {ds : List Datum}
    (h : List.Forall₂ (fun x d => st.view? gas x = some d) xs ds) :
    ∀ x ∈ xs, ∃ d, st.view? gas x = some d := by
  induction h with
  | nil => simp
  | cons hx _ ih => exact List.forall_mem_cons.mpr ⟨⟨_, hx⟩, ih⟩

/-- On a node with a tree, relations need to be compared on parts that have trees. -/
theorem Alike.mono_of_view {quotes lists quotes' lists' : Nat → Nat → Prop} {gas : Nat}
    {x y : Node} {d : Datum} (h : st.Alike quotes lists x y)
    (hx : st.view? (gas + 1) x = some d)
    (hq : ∀ c c', (∃ d, st.view? gas (st.payload c) = some d) → quotes c c' → quotes' c c')
    (hl : ∀ c c', (∀ z ∈ st.elements c, ∃ d, st.view? gas z = some d) → lists c c' →
      lists' c c') : st.Alike quotes' lists' x y := by
  have hu := unfolds_of_view? hx
  cases h with
  | int v => exact .int v
  | bool b => exact .bool b
  | symbol n => exact .symbol n
  | builtin n => exact .builtin n
  | lambda hb => exact .lambda hb
  | quote hc =>
      cases hu with
      | quote hd => exact .quote (hq _ _ ⟨_, hd⟩ hc)
  | list hc =>
      cases hu with
      | list hds => exact .list (hl _ _ (exists_view_of_mem hds) hc)

/-- Gas for the tree of the first node is enough to compare it. -/
theorem sameData_of_succ {gas : Nat} {x y : Node} (hx : ∃ d, st.view? gas x = some d)
    (h : st.sameData (gas + 1) x y = true) : st.sameData gas x y = true := by
  induction gas generalizing x y with
  | zero => exact absurd hx (by simp [view?])
  | succ gas ih =>
      obtain ⟨d, hx⟩ := hx
      rw [sameData_succ_iff] at h ⊢
      apply h.mono_of_view hx
      · exact fun c c' hc => Or.imp_right (ih hc)
      · refine fun c c' hc => Or.imp_right fun hs => ?_
        exact ((List.forall₂_and_left _ _).mpr ⟨hc, hs⟩).imp fun _ _ h => ih h.1 h.2

theorem sameData_eq_of_le {gas gas' : Nat} {x : Node} {d : Datum} (hx : st.view? gas x = some d)
    (hle : gas ≤ gas') (y : Node) : st.sameData gas' x y = st.sameData gas x y := by
  induction hle with
  | refl => rfl
  | step hle ih =>
      rw [← ih, Bool.eq_iff_iff]
      exact ⟨sameData_of_succ ⟨d, view?_mono hle hx⟩, sameData_succ⟩

theorem sameData_self_of_view? {gas : Nat} {x : Node} (hx : ∃ d, st.view? gas x = some d) :
    st.sameData gas x x = true := by
  cases gas with
  | zero => exact absurd hx (by simp [view?])
  | succ gas => exact st.sameData_self gas x

/-- Structural equality that goes into the cells of quotes and lists even if they are one. -/
def sameContents (st : Store) : Nat → Node → Node → Bool
  | 0, _, _ => false
  | gas + 1, x, y =>
    st.alike (fun c d => st.sameContents gas (st.payload c) (st.payload d))
      (fun c d => (st.elements c).length == (st.elements d).length &&
        ((st.elements c).zip (st.elements d)).all fun (x, y) => st.sameContents gas x y) x y

theorem sameContents_succ_iff {gas : Nat} {x y : Node} :
    st.sameContents (gas + 1) x y = true ↔
      st.Alike (fun c d => st.sameContents gas (st.payload c) (st.payload d) = true)
        (fun c d => List.Forall₂ (fun x y => st.sameContents gas x y = true) (st.elements c)
          (st.elements d)) x y := by
  rw [sameContents, alike_iff]
  simp only [all_zip_iff]

/-- The shortcut changes no answer on a node that has a tree. -/
theorem sameContents_iff {gas : Nat} {x y : Node} (hx : ∃ d, st.view? gas x = some d) :
    st.sameContents gas x y = true ↔ st.sameData gas x y = true := by
  induction gas generalizing x y with
  | zero => exact Iff.rfl
  | succ gas ih =>
      obtain ⟨d, hx⟩ := hx
      rw [sameContents_succ_iff, sameData_succ_iff]
      have one {z : Node} (hz : ∃ d, st.view? gas z = some d) : st.sameContents gas z z = true :=
        (ih hz).mpr (sameData_self_of_view? hz)
      constructor
      · intro h
        apply h.mono_of_view hx
        · exact fun c c' hc h => .inr ((ih hc).mp h)
        · intro c c' hc hs
          exact .inr (((List.forall₂_and_left _ _).mpr ⟨hc, hs⟩).imp fun _ _ h => (ih h.1).mp h.2)
      · intro h
        apply h.mono_of_view hx
        · rintro c c' hc (rfl | h)
          · exact one hc
          · exact (ih hc).mpr h
        · rintro c c' hc (rfl | hs)
          · exact List.forall₂_same.mpr fun z hz => one (hc z hz)
          · exact ((List.forall₂_and_left _ _).mpr ⟨hc, hs⟩).imp fun _ _ h => (ih h.1).mpr h.2

/-- Elements are the same one by one if and only if their trees are. -/
theorem forall₂_same_iff_eq {same : Node → Node → Prop} {part : Node → Datum → Prop}
    {xs ys : List Node} {ds es : List Datum} (hx : List.Forall₂ part xs ds)
    (hy : List.Forall₂ part ys es)
    (h : ∀ d ∈ ds, ∀ x y e, part x d → part y e → (same x y ↔ d = e)) :
    List.Forall₂ same xs ys ↔ ds = es := by
  induction hx generalizing ys es with
  | nil => cases hy <;> simp
  | cons hd _ ih =>
      cases hy with
      | nil => simp
      | cons he hy =>
          rw [List.forall₂_cons, List.cons.injEq, h _ (by simp) _ _ _ hd he,
            ih hy fun d hd => h d (by simp [hd])]

/-- Without lambdas a node is the same as another if and only if their trees are. -/
theorem sameData_iff_eq {gas : Nat} {x y : Node} {d e : Datum} (hx : st.view? gas x = some d)
    (hy : st.view? gas y = some e) (hd : d.LambdaFree) :
    st.sameData gas x y = true ↔ d = e := by
  induction gas generalizing x y d e with
  | zero => cases hx
  | succ gas ih =>
      have one (heq : x = y) : d = e := Option.some.inj ((heq ▸ hx.symm).trans hy)
      have ux := unfolds_of_view? hx
      have uy := unfolds_of_view? hy
      rw [sameData_succ_iff]
      constructor
      · intro h
        cases h with
        | int _ | bool _ | symbol _ | builtin _ => exact one rfl
        | lambda _ =>
            cases ux
            cases hd
        | quote hc =>
            obtain rfl | hc := hc
            · exact one rfl
            · cases ux with
              | quote hdx =>
                  cases uy with
                  | quote hdy =>
                      cases hd with
                      | quote hd => exact congrArg Datum.quote ((ih hdx hdy hd).mp hc)
        | list hc =>
            obtain rfl | hc := hc
            · exact one rfl
            · cases ux with
              | list hdx =>
                  cases uy with
                  | list hdy =>
                      cases hd with
                      | list hds =>
                          refine congrArg Datum.list ((forall₂_same_iff_eq hdx hdy ?_).mp hc)
                          exact fun d hd x y e hx hy => ih hx hy (hds d hd)
      · rintro rfl
        cases hd with
        | int _ | bool _ | symbol _ | builtin _ =>
            cases ux
            cases uy
            constructor
        | quote hd =>
            cases ux with
            | quote hdx =>
                cases uy with
                | quote hdy => exact .quote (.inr ((ih hdx hdy hd).mpr rfl))
        | list hds =>
            cases ux with
            | list hdx =>
                cases uy with
                | list hdy =>
                    refine .list (.inr ((forall₂_same_iff_eq hdx hdy ?_).mpr rfl))
                    exact fun d hd x y e hx hy => ih hx hy (hds d hd)

theorem HasTree.unfolds {x : Node} (h : st.HasTree x) :
    st.Unfolds (fun x d => st.view? (st.nodes.size + st.seqs.size) x = some d) x (st.view x) :=
  unfolds_of_view? h

/-- Without its outer quote a node has the tree without the outer quote. -/
theorem HasTree.unquote {x : Node} (h : st.HasTree x) :
    st.view? st.gas (st.unquote x).2 = some (st.view x).unquote := by
  have hu := h.unfolds
  rw [HasTree] at h
  generalize st.view x = d at h hu
  cases hu with
  | quote hd => exact view?_succ hd
  | int _ | bool _ | symbol _ | builtin _ | list _ | lambda _ _ => exact h

/-- Two quotes lose a layer each, which leaves one amount of gas less for the comparison; the trees
of the payloads do not need it. -/
theorem equal_eq {x y : Node} (hx : st.HasTree x) :
    st.equal x y = st.sameData st.gas (st.unquote x).2 (st.unquote y).2 := by
  cases x with
  | quote c =>
      cases y with
      | quote d =>
          have hu := hx.unfolds
          generalize st.view (.quote c) = t at hu
          cases hu with
          | quote hc =>
              rw [equal, gas, Bool.eq_iff_iff, sameData_succ_iff]
              constructor
              · intro h
                cases h with
                | quote h =>
                    obtain rfl | h := h
                    · exact st.sameData_self _ _
                    · exact sameData_succ h
              · exact fun h => .quote (.inr (sameData_of_succ ⟨_, hc⟩ h))
      | _ => rfl
  | int _ | bool _ | symbol _ | builtin _ | list _ | lambda _ _ _ => cases y <;> rfl

theorem equal_of_identical {x y : Node} (h : st.identical x y = true) : st.equal x y = true := by
  have hs : st.sameData st.gas x y = true := sameData_of_identicalAt h
  have ha := sameData_succ_iff.mp hs
  cases ha with
  | quote _ | int _ | bool _ | symbol _ | builtin _ | list _ | lambda _ => exact hs

theorem equivalence_equal (st : Store) :
    Equivalence fun x y : { x : Node // st.HasTree x } => st.equal x y = true := by
  have stripped : (fun x y : { x : Node // st.HasTree x } => st.equal x y = true) =
      fun x y => st.sameData st.gas (st.unquote x.1).2 (st.unquote y.1).2 = true := by
    funext x y
    rw [equal_eq x.2]
  rw [stripped]
  exact (st.sameData_equivalence _).comap fun x : { x : Node // st.HasTree x } =>
    (st.unquote x.1).2

theorem payload_addHolders (st : Store) (x : Node) (n : Int) :
    (st.addHolders x n).payload = st.payload := by
  funext c
  exact congrArg (Option.getD · default) (agree_addHolders st x n (.node c))

theorem elements_addHolders (st : Store) (x : Node) (n : Int) :
    (st.addHolders x n).elements = st.elements := by
  funext c
  exact congrArg (Option.getD · []) (agree_addHolders st x n (.seq c))

theorem gas_addHolders (st : Store) (x : Node) (n : Int) : (st.addHolders x n).gas = st.gas := by
  cases x <;> simp [addHolders, gas]

theorem sameData_addHolders (st : Store) (x : Node) (n : Int) (gas : Nat) :
    (st.addHolders x n).sameData gas = st.sameData gas := by
  induction gas with
  | zero => rfl
  | succ gas ih =>
      funext y z
      cases y <;> cases z <;>
        simp only [sameData, sameProcedure, payload_addHolders, elements_addHolders, ih]

theorem identicalAt_addHolders (st : Store) (x : Node) (n : Int) (gas : Nat) :
    (st.addHolders x n).identicalAt gas = st.identicalAt gas := by
  induction gas with
  | zero => rfl
  | succ gas ih =>
      funext y z
      cases y <;> cases z <;>
        simp only [identicalAt, sameProcedure, payload_addHolders, elements_addHolders, ih]

/-- Neither equality looks at counts, so a clone is as good as the node. -/
theorem equal_share (st : Store) (x y z : Node) : (st.share x).equal y z = st.equal y z := by
  cases y <;> cases z <;>
    simp only [share, equal, gas_addHolders, sameData_addHolders, payload_addHolders]

theorem identical_share (st : Store) (x y z : Node) :
    (st.share x).identical y z = st.identical y z := by
  rw [share, identical, identical, gas_addHolders, identicalAt_addHolders]

/-- On nodes with initialised cells, equality and identity are equivalences to which clones make no
difference, and identity implies equality. Equality is the comparison of the nodes without their
outer quotes. Without lambdas that is the comparison without the shortcut for one cell, so equal
nodes are those whose trees are the same without their outer quotes, and readable nodes are equal if
those are printed the same. -/
theorem equality_laws (st : Store) :
    Equivalence (fun x y : { x : Node // st.HasTree x } => st.equal x y = true) ∧
    Equivalence (fun x y : { x : Node // st.HasTree x } => st.identical x y = true) ∧
    (∀ x y z, (st.share x).equal y z = st.equal y z ∧
      (st.share x).identical y z = st.identical y z) ∧
    ∀ x y, st.HasTree x → st.HasTree y →
      (st.identical x y = true → st.equal x y = true) ∧
      (∀ gas ≥ st.gas, st.equal x y = st.sameData gas (st.unquote x).2 (st.unquote y).2) ∧
      ((st.view x).LambdaFree → (st.view y).LambdaFree →
        (∀ gas ≥ st.gas,
          st.equal x y = st.sameContents gas (st.unquote x).2 (st.unquote y).2) ∧
        (st.equal x y = true ↔ (st.view x).unquote = (st.view y).unquote)) ∧
      ((st.view x).Readable → (st.view y).Readable →
        (st.equal x y = true ↔ (st.view x).unquote.print = (st.view y).unquote.print)) := by
  refine ⟨st.equivalence_equal, (st.identicalAt_equivalence _).comap Subtype.val,
    fun x y z => ⟨st.equal_share x y z, st.identical_share x y z⟩, fun x y hx hy => ?_⟩
  have enough {gas : Nat} (hgas : gas ≥ st.gas) :
      st.equal x y = st.sameData gas (st.unquote x).2 (st.unquote y).2 := by
    rw [equal_eq hx, sameData_eq_of_le hx.unquote hgas]
  have trees (h : (st.view x).LambdaFree) :
      st.equal x y = true ↔ (st.view x).unquote = (st.view y).unquote := by
    rw [equal_eq hx]
    exact sameData_iff_eq hx.unquote hy.unquote h.unquote
  refine ⟨equal_of_identical, fun gas hgas => enough hgas, fun h _ => ⟨fun gas hgas => ?_, trees h⟩,
    fun h h' => ?_⟩
  · rw [enough hgas, Bool.eq_iff_iff]
    exact (sameContents_iff ⟨_, view?_mono hgas hx.unquote⟩).symm
  · rw [trees h.lambdaFree, h.unquote.print_eq_iff h'.unquote]

/-- A quoted list and the list, in cells of their own. -/
theorem equality_laws_quoted :
    let a := Store.empty.build (.quote (.list [.int 1, .list []]))
    let b := a.1.build (.list [.int 1, .list []])
    b.1.equal a.2 b.2 = true ∧ b.1.identical a.2 b.2 = false := by
  intro a b
  obtain ⟨ga, _⟩ := sound_empty.build (.quote (.list [.int 1, .list []]))
  obtain ⟨gb, _⟩ := ga.sound.build (.list [.int 1, .list []])
  have ha : b.1.HasTree a.2 :=
    gb.sound.hasTree (gb.visible ga.sound (Multiset.le_add_left _ _) .root)
  have hb : b.1.HasTree b.2 := gb.sound.hasTree .root
  obtain ⟨_, _, _, laws⟩ := equality_laws b.1
  obtain ⟨_, _, _, printed⟩ := laws a.2 b.2 ha hb
  have readable : (Datum.list [.int 1, .list []]).Readable :=
    .list (by simp only [List.forall_mem_cons]; exact ⟨.int 1, .list (by simp), by simp⟩)
  exact ⟨(printed (.quote readable) readable).mpr rfl, rfl⟩

end Store

end CellScheme
