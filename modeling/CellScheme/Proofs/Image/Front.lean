import CellScheme.Proofs.Image.Pack

/-!
What a reader takes off the front of some bytes, it takes off the front of any bytes: the bytes
after a value have no part in reading it. So no value is the beginning of another.
-/

namespace CellScheme.Pack

/-- The bytes a reader takes off the front are read as the same value before any other bytes. -/
def Takes {ε α : Type} (read : Bytes → Except ε (α × Bytes)) : Prop :=
  ∀ ⦃bs v rest⦄, read bs = .ok (v, rest) → ∃ used, bs = used ++ rest ∧ Reads read used v

section Readers

variable {δ ε α β : Type} {read other : Bytes → Except ε (α × Bytes)}

theorem Takes.pure (v : α) : Takes (fun bs => (.ok (v, bs) : Except ε (α × Bytes))) := by
  rintro bs _ _ ⟨⟩
  exact ⟨[], rfl, fun _ => rfl⟩

theorem Takes.error (e : ε) : Takes (fun _ => (.error e : Except ε (α × Bytes))) := by
  rintro bs v rest ⟨⟩

theorem Takes.ite {c : Prop} [Decidable c] (h : Takes read) (h' : Takes other) :
    Takes (fun bs => if c then read bs else other bs) := by
  split_ifs
  · exact h
  · exact h'

/-- A reader that looks at the first byte. -/
theorem Takes.lead (hnil : ∀ r, read [] ≠ .ok r) (h : ∀ b, Takes fun bs => read (b :: bs)) :
    Takes read := by
  intro bs v rest hr
  cases bs with
  | nil => exact absurd hr (hnil _)
  | cons b bs =>
      obtain ⟨used, rfl, hu⟩ := h b hr
      exact ⟨b :: used, rfl, fun more => hu more⟩

/-- One reader after another. -/
theorem Takes.next {first : Bytes → Except δ (β × Bytes)} {next : β → Bytes → Except ε (α × Bytes)}
    (h : Takes first) (hnext : ∀ b, Takes (next b))
    (hok : ∀ bs b rest, first bs = .ok (b, rest) → read bs = next b rest)
    (herror : ∀ bs e r, first bs = .error e → read bs ≠ .ok r) : Takes read := by
  intro bs v rest hr
  cases hb : first bs with
  | error e => exact absurd hr (herror bs e _ hb)
  | ok p =>
      obtain ⟨used, rfl, hu⟩ := h hb
      rw [hok _ _ _ hb] at hr
      obtain ⟨used', hused, hu'⟩ := hnext p.1 hr
      refine ⟨used ++ used', by rw [hused, List.append_assoc], fun more => ?_⟩
      rw [List.append_assoc, hok _ _ _ (hu (used' ++ more))]
      exact hu' more

theorem Takes.map (h : Takes read) (f : α → β) :
    Takes (fun bs => (read bs).map fun (a, rest) => (f a, rest)) := by
  refine h.next (fun a => .pure (f a)) (fun bs a rest hr => ?_) fun bs e r hr => ?_
  · simp only [hr, Except.map]
  · simp [hr, Except.map]

/-- More bytes behind are left behind. -/
theorem Takes.append (h : Takes read) {bs rest : Bytes} {v : α} (hr : read bs = .ok (v, rest))
    (more : Bytes) : read (bs ++ more) = .ok (v, rest ++ more) := by
  obtain ⟨used, rfl, hu⟩ := h hr
  rw [List.append_assoc, hu]

end Readers

theorem take_takes (n : Nat) : Takes (take n) := by
  intro bs v rest h
  by_cases hlen : (bs.take n).length = n
  · simp only [take, Bytes.split?, if_pos hlen] at h
    cases h
    refine ⟨bs.take n, (List.take_append_drop n bs).symm, fun more => ?_⟩
    have hr := take_reads (bs.take n) more
    rwa [hlen] at hr
  · simp only [take, Bytes.split?, if_neg hlen] at h
    cases h

/-- A number is the value of the bytes of its width. -/
theorem number_eq_take (width : Nat) :
    number width = fun bs => (take width bs).map fun (front, rest) =>
      (Bytes.ofBigEndian front, rest) := by
  funext bs
  simp only [number, take]
  cases bs.split? width <;> rfl

theorem number_takes (width : Nat) : Takes (number width) := by
  rw [number_eq_take]
  exact (take_takes width).map Bytes.ofBigEndian

theorem counted_takes (width : Nat) : Takes (counted width) := by
  refine (number_takes width).next take_takes (fun bs n rest h => ?_) fun bs e r h => ?_
  · simp only [counted, h]
  · simp [counted, h]

theorem anyInt_takes (wanted : Form) : Takes (anyInt wanted) := by
  refine .lead nofun fun lead => ?_
  unfold anyInt
  repeat' refine .ite ?_ ?_
  any_goals exact .pure _
  any_goals exact .error _
  any_goals exact (number_takes _).map fun v => (v : Int)
  all_goals exact (number_takes _).map (Bytes.signed _)

theorem readInt_takes : Takes readInt := by
  intro bs v rest h
  unfold readInt at h
  split at h
  · cases h
  · rename_i hi
    obtain ⟨used, rfl, hu⟩ := anyInt_takes .int hi
    split at h
    · rename_i hv
      cases h
      refine ⟨used, rfl, fun more => ?_⟩
      simp only [readInt, hu more, hv]
    · cases h

theorem readUint_takes : Takes readUint := by
  refine (anyInt_takes .uint).next
    (fun v => .ite (c := v < 0) (.error (.negative v)) (.pure v.toNat))
    (fun bs v rest h => ?_) fun bs e r h => ?_
  · simp only [readUint, h]
  · simp [readUint, h]

theorem readBool_takes : Takes readBool :=
  .lead nofun fun _ => .ite (.pure false) (.ite (.pure true) (.error _))

theorem readString_takes : Takes readString :=
  .lead nofun fun _ => .ite (take_takes _) (.ite (counted_takes 1) (.ite (counted_takes 2)
    (.ite (counted_takes 4) (.error _))))

theorem readBinary_takes : Takes readBinary :=
  .lead nofun fun _ => .ite (counted_takes 1) (.ite (counted_takes 2)
    (.ite (counted_takes 4) (.error _)))

theorem readArrayHeader_takes : Takes readArrayHeader :=
  .lead nofun fun _ => .ite (.pure _) (.ite (number_takes 2) (.ite (number_takes 4) (.error _)))

theorem readMapHeader_takes : Takes readMapHeader :=
  .lead nofun fun _ => .ite (.pure _) (.ite (number_takes 2) (.ite (number_takes 4) (.error _)))

/-- A binary is no string. -/
theorem readString_of_binary {bs : Bytes} {r : Bytes × Bytes} (h : readBinary bs = .ok r) :
    readString bs = .error (.wrongForm .bin .str) := by
  cases bs with
  | nil => cases h
  | cons lead bs =>
      simp only [readBinary] at h
      split_ifs at h with h₁ h₂ h₃
      · exact h₁ ▸ rfl
      · exact h₂ ▸ rfl
      · exact h₃ ▸ rfl

theorem readKey_takes : Takes readKey := by
  intro bs v rest h
  unfold readKey at h
  split at h
  · obtain ⟨used, rfl, hu⟩ := readBinary_takes h
    refine ⟨used, rfl, fun more => ?_⟩
    simp only [readKey, readString_of_binary (hu more)]
    exact hu more
  · obtain ⟨used, rfl, hu⟩ := readString_takes h
    refine ⟨used, rfl, fun more => ?_⟩
    simp only [readKey, hu more]

theorem skipHead_takes : Takes skipHead := by
  refine .lead nofun fun lead => ?_
  simp only [skipHead]
  cases Layout.ofLead lead with
  | invalid => exact .error _
  | fixed size => exact (take_takes size).map fun _ => 0
  | sized width extra =>
      refine (number_takes width).next (fun n => (take_takes (n + extra)).map fun _ => 0)
        (fun bs n rest h => ?_) fun bs e r h => ?_
      · simp only [h]
      · simp only [h]
        exact nofun
  | values count => exact .pure count
  | sizedValues width factor => exact (number_takes width).map (factor * ·)

theorem skipHead_length {bs rest : Bytes} {inside : Nat} (h : skipHead bs = .ok (inside, rest)) :
    rest.length < bs.length := by
  obtain ⟨used, rfl, hu⟩ := skipHead_takes h
  cases used with
  | nil => exact absurd (hu []) nofun
  | cons b used =>
      rw [List.length_append, List.length_cons]
      omega

/-- The fuel is enough if there is as much of it as there are bytes. -/
theorem skipValues_fuel {fuel : Nat} {bs : Bytes} (h : bs.length ≤ fuel) (count : Nat) :
    skipValues fuel count bs = skipValues bs.length count bs := by
  induction fuel using Nat.strongRecOn generalizing bs count with
  | _ fuel ih =>
    cases count with
    | zero => simp only [skipValues]
    | succ count =>
      cases bs with
      | nil => cases fuel <;> rfl
      | cons b bs =>
        obtain ⟨fuel, rfl⟩ : ∃ k, fuel = k + 1 := ⟨fuel - 1, by rw [List.length_cons] at h; omega⟩
        rw [List.length_cons] at h ⊢
        rw [skipValues, skipValues]
        cases hh : skipHead (b :: bs) with
        | error e => rfl
        | ok p =>
          have hlen := skipHead_length hh
          rw [List.length_cons] at hlen
          dsimp only
          rw [ih fuel (by omega) (by omega), ← ih bs.length (by omega) (by omega)]

/-- Skip this many values, with fuel for all the bytes. -/
def skipMany (count : Nat) (bs : Bytes) : Except Error Bytes :=
  skipValues bs.length count bs

theorem skip_eq_skipMany (bs : Bytes) : skip bs = skipMany 1 bs :=
  skipValues_fuel (by omega) 1

@[simp]
theorem skipMany_zero (bs : Bytes) : skipMany 0 bs = .ok bs := by
  rw [skipMany, skipValues]

theorem skipMany_succ {bs rest : Bytes} {inside : Nat} (h : skipHead bs = .ok (inside, rest))
    (count : Nat) : skipMany (count + 1) bs = skipMany (inside + count) rest := by
  have hlen := skipHead_length h
  obtain ⟨k, hk⟩ : ∃ k, bs.length = k + 1 := ⟨bs.length - 1, by omega⟩
  rw [skipMany, hk, skipValues, h]
  exact skipValues_fuel (by omega) _

/-- What is skipped is skipped before any bytes, and each value takes one byte at least. -/
theorem skipMany_takes {count : Nat} {bs rest : Bytes} (h : skipMany count bs = .ok rest) :
    ∃ used, bs = used ++ rest ∧ count ≤ used.length ∧
      ∀ more, skipMany count (used ++ more) = .ok more := by
  induction hn : bs.length using Nat.strongRecOn generalizing bs count with
  | _ n ih =>
    cases count with
    | zero =>
      rw [skipMany_zero] at h
      cases h
      exact ⟨[], rfl, by simp, by simp⟩
    | succ count =>
      cases hh : skipHead bs with
      | error e =>
        rw [skipMany] at h
        cases hbs : bs.length <;> rw [hbs] at h <;> simp [skipValues, hh] at h
      | ok p =>
        rw [skipMany_succ hh] at h
        have hlen := skipHead_length hh
        obtain ⟨used', hused, hcount, hskip⟩ := ih p.2.length (by omega) h rfl
        obtain ⟨used, rfl, hu⟩ := skipHead_takes hh
        have hpos := skipHead_length (hu [])
        refine ⟨used ++ used', by rw [hused, List.append_assoc], ?_, fun more => ?_⟩
        · rw [List.length_append] at hpos ⊢
          simp only [List.length_nil] at hpos
          omega
        · rw [List.append_assoc, skipMany_succ (hu _), hskip]

theorem skip_takes : Takes fun bs => (skip bs).map fun rest => ((), rest) := by
  intro bs v rest h
  cases hs : skip bs with
  | error e => simp [hs, Except.map] at h
  | ok r =>
      simp only [hs, Except.map, Except.ok.injEq, Prod.mk.injEq] at h
      obtain ⟨-, rfl⟩ := h
      rw [skip_eq_skipMany] at hs
      obtain ⟨used, rfl, -, hu⟩ := skipMany_takes hs
      refine ⟨used, rfl, fun more => ?_⟩
      simp only [skip_eq_skipMany, hu more, Except.map]

/-- The reader takes the head of a value, which has this many values inside it. -/
def Heads {α : Type} (read : Bytes → Result α) (inside : α → Nat) : Prop :=
  ∀ ⦃bs v rest⦄, read bs = .ok (v, rest) → skipHead bs = .ok (inside v, rest)

/-- The same for what stands behind the lead byte of a value. -/
def HeadsBehind {α : Type} (lead : UInt8) (read : Bytes → Result α) (inside : α → Nat) : Prop :=
  ∀ ⦃bs v rest⦄, read bs = .ok (v, rest) → skipHead (lead :: bs) = .ok (inside v, rest)

theorem Heads.lead {α : Type} {read : Bytes → Result α} {inside : α → Nat}
    (hnil : ∀ r, read [] ≠ .ok r)
    (h : ∀ lead, HeadsBehind lead (fun bs => read (lead :: bs)) inside) : Heads read inside := by
  intro bs v rest hr
  cases bs with
  | nil => exact absurd hr (hnil _)
  | cons lead bs => exact h lead hr

namespace HeadsBehind

variable {α : Type} {lead : UInt8} {read other : Bytes → Result α} {inside : α → Nat}
  {width : Nat}

theorem ite {c : Prop} [Decidable c] (h : c → HeadsBehind lead read inside)
    (h' : ¬ c → HeadsBehind lead other inside) :
    HeadsBehind lead (fun bs => if c then read bs else other bs) inside := by
  split_ifs with hc
  · exact h hc
  · exact h' hc

theorem error (e : Error) : HeadsBehind lead (fun _ => .error e) inside := by
  rintro bs v rest ⟨⟩

theorem take (hl : Layout.ofLead lead = .fixed width) :
    HeadsBehind lead (take width) fun _ => 0 := by
  intro bs v rest h
  simp only [skipHead, hl, h, Except.map]

/-- A value that is its lead byte. -/
theorem nothing (hl : Layout.ofLead lead = .fixed 0) (v : α) :
    HeadsBehind lead (fun bs => .ok (v, bs)) fun _ => 0 := by
  rintro bs _ _ ⟨⟩
  exact take hl (by simp [Pack.take, Bytes.split?] : Pack.take 0 bs = .ok ([], bs))

theorem number (hl : Layout.ofLead lead = .fixed width) (f : Nat → α) :
    HeadsBehind lead (fun bs => (number width bs).map fun (n, rest) => (f n, rest))
      fun _ => 0 := by
  intro bs v rest h
  rw [number_eq_take] at h
  cases ht : Pack.take width bs with
  | error e => simp [ht, Except.map] at h
  | ok r =>
      simp only [ht, Except.map, Except.ok.injEq, Prod.mk.injEq] at h
      exact h.2 ▸ take hl ht

theorem counted (hl : Layout.ofLead lead = .sized width 0) :
    HeadsBehind lead (counted width) fun _ => 0 := by
  intro bs v rest h
  unfold Pack.counted at h
  split at h
  · cases h
  · rename_i hn
    simp only [skipHead, hl, hn, Nat.add_zero, h, Except.map]

theorem values {n : Nat} (hl : Layout.ofLead lead = .values n) :
    HeadsBehind lead (fun bs => .ok (n, bs)) id := by
  rintro bs _ _ ⟨⟩
  simp only [skipHead, hl, id]

theorem countedValues (hl : Layout.ofLead lead = .sizedValues width 1) :
    HeadsBehind lead (Pack.number width) id := by
  intro bs n rest h
  simp only [skipHead, hl, h, Except.map, Nat.one_mul, id]

end HeadsBehind

/-- The layout that a lead byte of this number has. -/
theorem layout_of_toNat {lead : UInt8} {n : Nat} {l : Layout} (h : lead.toNat = n)
    (hl : Layout.ofLead (UInt8.ofNat n) = l) : Layout.ofLead lead = l := by
  rw [← hl, ← h, UInt8.ofNat_toNat]

theorem layout_small {lead : UInt8} (h : lead.toNat < 0x80) : Layout.ofLead lead = .fixed 0 := by
  simp only [Layout.ofLead, if_pos h]

theorem layout_negative {lead : UInt8} (h : 0xE0 ≤ lead.toNat) :
    Layout.ofLead lead = .fixed 0 := by
  unfold Layout.ofLead
  simp only [if_neg (by omega : ¬ lead.toNat < 0x80), if_neg (by omega : ¬ lead.toNat < 0x90),
    if_neg (by omega : ¬ lead.toNat < 0xA0), if_neg (by omega : ¬ lead.toNat < 0xC0)]
  split <;> first | rfl | omega

theorem layout_array {lead : UInt8} (h : 0x90 ≤ lead.toNat ∧ lead.toNat < 0xA0) :
    Layout.ofLead lead = .values (lead.toNat - 0x90) := by
  simp only [Layout.ofLead, if_neg (by omega : ¬ lead.toNat < 0x80),
    if_neg (by omega : ¬ lead.toNat < 0x90), if_pos h.2]

theorem layout_string {lead : UInt8} (h : 0xA0 ≤ lead.toNat ∧ lead.toNat < 0xC0) :
    Layout.ofLead lead = .fixed (lead.toNat - 0xA0) := by
  simp only [Layout.ofLead, if_neg (by omega : ¬ lead.toNat < 0x80),
    if_neg (by omega : ¬ lead.toNat < 0x90), if_neg (by omega : ¬ lead.toNat < 0xA0), if_pos h.2]

theorem anyInt_heads (wanted : Form) : Heads (anyInt wanted) fun _ => 0 := by
  refine .lead nofun fun lead => ?_
  refine .ite (fun h => .nothing (layout_small h) _) fun _ => ?_
  refine .ite (fun h => .nothing (layout_negative h) _) fun _ => ?_
  refine .ite (fun h => .number (layout_of_toNat h rfl) _) fun _ => ?_
  refine .ite (fun h => .number (layout_of_toNat h rfl) _) fun _ => ?_
  refine .ite (fun h => .number (layout_of_toNat h rfl) _) fun _ => ?_
  refine .ite (fun h => .number (layout_of_toNat h rfl) _) fun _ => ?_
  refine .ite (fun h => .number (layout_of_toNat h rfl) _) fun _ => ?_
  refine .ite (fun h => .number (layout_of_toNat h rfl) _) fun _ => ?_
  refine .ite (fun h => .number (layout_of_toNat h rfl) _) fun _ => ?_
  exact .ite (fun h => .number (layout_of_toNat h rfl) _) fun _ => .error _

theorem readInt_heads : Heads readInt fun _ => 0 := by
  intro bs v rest h
  unfold readInt at h
  split at h
  · cases h
  · rename_i hi
    split at h
    · cases h
      exact anyInt_heads .int hi
    · cases h

theorem readBool_heads : Heads readBool fun _ => 0 :=
  .lead nofun fun _ => .ite (fun h => .nothing (h ▸ rfl) false) fun _ =>
    .ite (fun h => .nothing (h ▸ rfl) true) fun _ => .error _

theorem readString_heads : Heads readString fun _ => 0 := by
  refine .lead nofun fun lead => ?_
  refine .ite (fun h => .take (layout_string h)) fun _ => ?_
  refine .ite (fun h => .counted (layout_of_toNat h rfl)) fun _ => ?_
  refine .ite (fun h => .counted (layout_of_toNat h rfl)) fun _ => ?_
  exact .ite (fun h => .counted (layout_of_toNat h rfl)) fun _ => .error _

theorem readArrayHeader_heads : Heads readArrayHeader id := by
  refine .lead nofun fun lead => ?_
  refine .ite (fun h => .values (layout_array h)) fun _ => ?_
  refine .ite (fun h => .countedValues (layout_of_toNat h rfl)) fun _ => ?_
  exact .ite (fun h => .countedValues (layout_of_toNat h rfl)) fun _ => .error _

/-- Skipping so many values takes these bytes and leaves so many values to skip after them. -/
def Skips (count : Nat) (bs : Bytes) (unread : Nat) : Prop :=
  ∀ more rest, skipMany (count + more) (bs ++ rest) = skipMany (unread + more) rest

theorem Heads.skips {α : Type} {read : Bytes → Result α} {inside : α → Nat} {bs : Bytes} {v : α}
    (h : Heads read inside) (hr : Reads read bs v) : Skips 1 bs (inside v) := by
  intro more rest
  rw [Nat.add_comm 1, skipMany_succ (h (hr rest))]

namespace Skips

variable {n m k u u' : Nat} {bs bs' : Bytes}

/-- Values one after the other. -/
theorem beside (h : Skips n bs u) (h' : Skips m bs' u') : Skips (n + m) (bs ++ bs') (u + u') := by
  intro more rest
  calc skipMany (n + m + more) (bs ++ bs' ++ rest)
    _ = skipMany (n + (m + more)) (bs ++ (bs' ++ rest)) := by rw [Nat.add_assoc, List.append_assoc]
    _ = skipMany (u + (m + more)) (bs' ++ rest) := h _ _
    _ = skipMany (m + (u + more)) (bs' ++ rest) := by rw [Nat.add_left_comm]
    _ = skipMany (u' + (u + more)) rest := h' _ _
    _ = skipMany (u + u' + more) rest := by rw [Nat.add_left_comm, Nat.add_assoc]

/-- The first of the values inside another one. -/
theorem inside (h : Skips n bs (m + k)) (h' : Skips m bs' u) : Skips n (bs ++ bs') (u + k) := by
  intro more rest
  rw [List.append_assoc, h, Nat.add_assoc, h', Nat.add_assoc]

/-- All the values inside another one. -/
theorem fill (h : Skips n bs m) (h' : Skips m bs' u) : Skips n (bs ++ bs') u :=
  h.inside (k := 0) h'

theorem flatMap {α : Type} {ps : List α} {bytes : α → Bytes} {unread : α → Nat}
    (h : ∀ p ∈ ps, Skips 1 (bytes p) (unread p)) :
    Skips ps.length (ps.flatMap bytes) (ps.map unread).sum := by
  induction ps with
  | nil => exact fun _ _ => rfl
  | cons p ps ih =>
      rw [List.forall_mem_cons] at h
      rw [List.length_cons, Nat.add_comm, List.flatMap_cons, List.map_cons, List.sum_cons]
      exact h.1.beside (ih h.2)

/-- Skipping stops where reading stopped only if no value was left unread. -/
theorem skip_iff (h : Skips 1 bs u) (rest : Bytes) : skip (bs ++ rest) = .ok rest ↔ u = 0 := by
  rw [skip_eq_skipMany, h 0 rest, Nat.add_zero]
  constructor
  · intro hs
    obtain ⟨used, hused, hlen, -⟩ := skipMany_takes hs
    have hnil : used = [] := List.append_left_eq_self.mp hused.symm
    simpa [hnil] using hlen
  · rintro rfl
    exact skipMany_zero rest

end Skips

end CellScheme.Pack
