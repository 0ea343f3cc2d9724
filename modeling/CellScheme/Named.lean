import CellScheme.Name

/-!
Values by name: association lists in the order of the names, each name at most once.
-/

namespace CellScheme

structure Named (β : Type) where
  entries : List (Name × β)
deriving Repr, Inhabited

namespace Named

variable {β γ : Type}

def empty : Named β := ⟨[]⟩

def size (t : Named β) : Nat :=
  t.entries.length

def lookup (name : Name) : List (Name × β) → Option β
  | [] => none
  | e :: es => if name = e.1 then some e.2 else lookup name es

def find? (t : Named β) (name : Name) : Option β :=
  lookup name t.entries

def contains (t : Named β) (name : Name) : Bool :=
  (t.find? name).isSome

def insertSorted (name : Name) (v : β) : List (Name × β) → List (Name × β)
  | [] => [(name, v)]
  | e :: es =>
    if name = e.1 then (name, v) :: es
    else if name < e.1 then (name, v) :: e :: es
    else e :: insertSorted name v es

/-- Set the value of a name, in the place of an earlier one. -/
def insert (t : Named β) (name : Name) (v : β) : Named β :=
  ⟨insertSorted name v t.entries⟩

/-- The values of the names that stand for nothing in the other table. -/
def besides (t u : Named β) : Named β :=
  ⟨t.entries.filter fun e => (u.find? e.1).isNone⟩

def erase (t : Named β) (name : Name) : Named β :=
  ⟨t.entries.filter fun e => e.1 ≠ name⟩

def names (t : Named β) : List Name :=
  t.entries.map Prod.fst

def values (t : Named β) : List β :=
  t.entries.map Prod.snd

@[simp]
theorem find?_empty (name : Name) : (empty : Named β).find? name = none := rfl

theorem lookup_insertSorted (name other : Name) (v : β) (es : List (Name × β)) :
    lookup other (insertSorted name v es) =
      if other = name then some v else lookup other es := by
  induction es with
  | nil => rfl
  | cons e es ih =>
      simp only [insertSorted]
      split
      · subst_vars
        simp only [lookup]
        split <;> rfl
      · split
        · rfl
        · simp only [lookup, ih]
          grind

theorem find?_insert (t : Named β) (name other : Name) (v : β) :
    (t.insert name v).find? other = if other = name then some v else t.find? other :=
  lookup_insertSorted name other v t.entries

@[simp]
theorem find?_insert_self (t : Named β) (name : Name) (v : β) :
    (t.insert name v).find? name = some v := by
  simp [find?_insert]

theorem lookup_filter_ne (name other : Name) (es : List (Name × β)) :
    lookup other (es.filter fun e => e.1 ≠ name) =
      if other = name then none else lookup other es := by
  induction es with
  | nil => simp [lookup]
  | cons e es ih =>
      by_cases h : e.1 = name <;> simp only [List.filter_cons, h, lookup] <;> grind [lookup]

theorem find?_erase (t : Named β) (name other : Name) :
    (t.erase name).find? other = if other = name then none else t.find? other :=
  lookup_filter_ne name other t.entries

theorem lookup_append (name : Name) (es fs : List (Name × β)) :
    lookup name (es ++ fs) = (lookup name es).or (lookup name fs) := by
  induction es with
  | nil => rfl
  | cons e es ih =>
      simp only [List.cons_append, lookup, ih]
      split <;> rfl

theorem isSome_lookup_iff {name : Name} {es : List (Name × β)} :
    (lookup name es).isSome ↔ name ∈ es.map Prod.fst := by
  induction es with
  | nil => simp [lookup]
  | cons e es ih =>
      rw [lookup, List.map_cons, List.mem_cons]
      split
      · simp [*]
      · simp [*]

theorem lookup_of_mem {es : List (Name × β)} (h : (es.map Prod.fst).Nodup) {name : Name} {v : β}
    (hv : (name, v) ∈ es) : lookup name es = some v := by
  induction es with
  | nil => cases hv
  | cons e es ih =>
      obtain ⟨he, hes⟩ := List.nodup_cons.mp h
      rw [lookup]
      obtain rfl | hv := List.mem_cons.mp hv
      · exact if_pos rfl
      · rw [if_neg fun hn : name = e.1 => he (hn ▸ List.mem_map_of_mem hv)]
        exact ih hes hv

/-- The value that is given last counts. -/
theorem find?_foldl_insert (ps : List (Name × β)) (t : Named β) (name : Name) :
    (ps.foldl (fun t p => t.insert p.1 p.2) t).find? name =
      (lookup name ps.reverse).or (t.find? name) := by
  induction ps generalizing t with
  | nil => rfl
  | cons p ps ih =>
      rw [List.foldl_cons, ih, find?_insert, List.reverse_cons, lookup_append, Option.or_assoc,
        lookup, lookup]
      split <;> rfl

/-- Each name once, in ascending order. -/
def Sorted (t : Named β) : Prop :=
  t.entries.Pairwise fun a b => a.1 < b.1

theorem sorted_empty : (empty : Named β).Sorted :=
  .nil

theorem mem_insertSorted {name : Name} {v : β} {es : List (Name × β)} {e : Name × β}
    (h : e ∈ insertSorted name v es) : e = (name, v) ∨ e ∈ es := by
  induction es with
  | nil => exact .inl (by simpa [insertSorted] using h)
  | cons d es ih =>
      simp only [insertSorted] at h
      grind

theorem pairwise_insertSorted (name : Name) (v : β) {es : List (Name × β)}
    (h : es.Pairwise fun a b => a.1 < b.1) :
    (insertSorted name v es).Pairwise fun a b => a.1 < b.1 := by
  induction es with
  | nil => exact List.pairwise_singleton _ _
  | cons e es ih =>
      obtain ⟨he, hes⟩ := List.pairwise_cons.mp h
      simp only [insertSorted]
      split
      · rename_i heq
        exact List.pairwise_cons.mpr ⟨fun d hd => heq ▸ he d hd, hes⟩
      · split
        · rename_i hlt
          refine List.pairwise_cons.mpr ⟨fun d hd => ?_, h⟩
          rcases List.mem_cons.mp hd with rfl | hd
          · exact hlt
          · exact Name.lt_trans hlt (he d hd)
        · rename_i hne hlt
          refine List.pairwise_cons.mpr ⟨fun d hd => ?_, ih hes⟩
          rcases mem_insertSorted hd with rfl | hd
          · exact Name.lt_of_not_lt hne hlt
          · exact he d hd

theorem Sorted.insert {t : Named β} (h : t.Sorted) (name : Name) (v : β) :
    (t.insert name v).Sorted :=
  pairwise_insertSorted name v h

theorem Sorted.foldl_insert (ps : List (Name × β)) {t : Named β} (h : t.Sorted) :
    (ps.foldl (fun t p => t.insert p.1 p.2) t).Sorted := by
  induction ps generalizing t with
  | nil => exact h
  | cons p ps ih => exact ih (h.insert p.1 p.2)

theorem Sorted.erase {t : Named β} (h : t.Sorted) (name : Name) : (t.erase name).Sorted :=
  List.Pairwise.filter _ h

theorem Sorted.nodup_names {t : Named β} (h : t.Sorted) : t.names.Nodup := by
  refine List.pairwise_map.mpr (h.imp fun hlt heq => ?_)
  rw [heq] at hlt
  exact Name.lt_irrefl _ hlt

theorem lookup_map (f : β → γ) (name : Name) (es : List (Name × β)) :
    lookup name (es.map fun (n, x) => (n, f x)) = (lookup name es).map f := by
  induction es with
  | nil => rfl
  | cons e es ih =>
      simp only [List.map_cons, lookup, ih]
      split <;> rfl

theorem map_insertSorted (f : β → γ) (name : Name) (v : β) (es : List (Name × β)) :
    (insertSorted name v es).map (fun (n, x) => (n, f x)) =
      insertSorted name (f v) (es.map fun (n, x) => (n, f x)) := by
  induction es with
  | nil => rfl
  | cons e es ih =>
      simp only [List.map_cons, insertSorted]
      split
      · rfl
      · split
        · rfl
        · simp only [List.map_cons, ih]

theorem mem_values_of_lookup {name : Name} {es : List (Name × β)} {v : β}
    (h : lookup name es = some v) : v ∈ es.map Prod.snd := by
  induction es with
  | nil => cases h
  | cons e es ih =>
      rw [lookup] at h
      split at h
      · simp only [Option.some.injEq] at h
        simp [h]
      · simp [ih h]

theorem mem_values_insert {t : Named β} {name : Name} {v w : β}
    (h : w ∈ (t.insert name v).values) : w = v ∨ w ∈ t.values := by
  obtain ⟨e, he, rfl⟩ := List.mem_map.mp h
  rcases mem_insertSorted he with rfl | he
  · exact .inl rfl
  · exact .inr (List.mem_map_of_mem he)

theorem lookup_eq_none_of_lt {name : Name} {es : List (Name × β)} (h : ∀ e ∈ es, name < e.1) :
    lookup name es = none := by
  induction es with
  | nil => rfl
  | cons e es ih =>
      have hlt := h e (by simp)
      rw [lookup, if_neg fun heq : name = e.1 => Name.lt_irrefl e.1 (heq ▸ hlt)]
      exact ih fun d hd => h d (by simp [hd])

theorem countP_insertSorted {es : List (Name × β)} (h : es.Pairwise fun a b => a.1 < b.1)
    (name : Name) (v : β) (p : β → Bool) :
    ((insertSorted name v es).map Prod.snd).countP p +
        (lookup name es).elim 0 (fun w => if p w then 1 else 0) =
      (es.map Prod.snd).countP p + if p v then 1 else 0 := by
  induction es with
  | nil => simp [insertSorted, lookup, List.countP_cons]
  | cons e es ih =>
      obtain ⟨he, hes⟩ := List.pairwise_cons.mp h
      simp only [insertSorted, lookup]
      split
      · simp only [List.map_cons, List.countP_cons, Option.elim_some]
        omega
      · split
        · rename_i hlt
          have later : lookup name es = none :=
            lookup_eq_none_of_lt fun d hd => Name.lt_trans hlt (he d hd)
          simp [List.countP_cons, later]
        · have rest := ih hes
          simp only [List.map_cons, List.countP_cons]
          omega

/-- With an insertion the new value is counted, and the value that had the name no longer. -/
theorem Sorted.countP_insert {t : Named β} (h : t.Sorted) (name : Name) (v : β) (p : β → Bool) :
    (t.insert name v).values.countP p + (t.find? name).elim 0 (fun w => if p w then 1 else 0) =
      t.values.countP p + if p v then 1 else 0 :=
  countP_insertSorted h name v p

end Named

end CellScheme
