import CellScheme.Image.Definitions
import CellScheme.Proofs.Image.Front

/-!
How the bytes of an expression are laid out. Reading an expression takes a node array with all the
values in it, provided that no node declares more fields than its kind has: the reader takes the
fields that it knows, and those that are declared beyond them stay in front of what is read next.
-/

namespace CellScheme

open Pack (Reads Takes Skips)

theorem Pack.Reads.lift {α : Type} {read : Bytes → Pack.Result α} {bs : Bytes} {v : α}
    (h : Reads read bs v) : Reads (fun bs => Datum.lift (read bs)) bs v := by
  intro rest
  simp only [Datum.lift, h rest]
  rfl

theorem Pack.Takes.of_lift {α : Type} {read : Bytes → Pack.Result α} (h : Takes read)
    {bs rest : Bytes} {v : α} (hr : Datum.lift (read bs) = .ok (v, rest)) :
    ∃ used, bs = used ++ rest ∧ Reads read used v := by
  cases hb : read bs with
  | error e => simp [Datum.lift, hb, Except.mapError] at hr
  | ok p =>
      simp only [Datum.lift, hb, Except.mapError, Except.ok.injEq] at hr
      exact h (hr ▸ hb)

/-- A value with the bytes that it was read from. They declare `unread` values that they do not
have. -/
structure Piece (α : Type) where
  value : α
  unread : Nat
  bytes : Bytes

namespace Datum

/-- The head of a node: an array header that declares this many fields, and the tag. -/
def Head (fields : Nat) (k : Kind) (bs : Bytes) : Prop :=
  ∃ header tag, bs = header ++ tag ∧ Reads Pack.readArrayHeader header fields ∧
    Reads Pack.readInt tag k.tag

/-- The bytes are those of the tree, and its nodes declare `unread` fields in all which the bytes
do not have. -/
inductive Laid : Datum → Nat → Bytes → Prop where
  | int {e : Nat} {head bs : Bytes} {v : Int64} :
      Head (2 + e) .int head → Reads Pack.readInt bs v → Laid (.int v) e (head ++ bs)
  | bool {e : Nat} {head bs : Bytes} {b : Bool} :
      Head (2 + e) .bool head → Reads Pack.readBool bs b → Laid (.bool b) e (head ++ bs)
  | symbol {e : Nat} {head bs s : Bytes} :
      Head (2 + e) .symbol head → Reads Pack.readString bs s → Laid (.symbol ⟨s⟩) e (head ++ bs)
  | builtin {e : Nat} {head bs s : Bytes} :
      Head (2 + e) .builtin head → Reads Pack.readString bs s → Laid (.builtin ⟨s⟩) e (head ++ bs)
  | quote {e u : Nat} {head bs : Bytes} {d : Datum} :
      Head (2 + e) .quote head → Laid d u bs → Laid (.quote d) (u + e) (head ++ bs)
  | list {e : Nat} {head count : Bytes} {ps : List (Piece Datum)} :
      Head (2 + e) .list head → Reads Pack.readArrayHeader count ps.length →
      (∀ p ∈ ps, Laid p.value p.unread p.bytes) →
        Laid (.list (ps.map Piece.value)) ((ps.map Piece.unread).sum + e)
          (head ++ (count ++ ps.flatMap Piece.bytes))
  | lambda {u : Nat} {head count paramCount names bs : Bytes} {ps : List (Piece Datum)}
      {params : List Name} {body : Datum} :
      Head 4 .lambda head → Reads Pack.readArrayHeader count ps.length →
      (∀ p ∈ ps, Laid p.value p.unread p.bytes) →
      Reads Pack.readArrayHeader paramCount params.length →
      Reads (unpackNames params.length) names params → Laid body u bs →
      ps.length ≤ params.length →
        Laid (.lambda (ps.map Piece.value) params body) ((ps.map Piece.unread).sum + u)
          (head ++ ((count ++ ps.flatMap Piece.bytes) ++ ((paramCount ++ names) ++ bs)))

/-- What follows the head of a node is read by its kind. -/
def unpackField (fuel fields : Nat) (k : Kind) (bs : Bytes) : Unpacked Datum :=
  match k with
  | .int => (lift (Pack.readInt bs)).map fun (v, rest) => (.int v, rest)
  | .bool => (lift (Pack.readBool bs)).map fun (b, rest) => (.bool b, rest)
  | .symbol => (lift (Pack.readString bs)).map fun (s, rest) => (.symbol ⟨s⟩, rest)
  | .builtin => (lift (Pack.readString bs)).map fun (s, rest) => (.builtin ⟨s⟩, rest)
  | .quote => (unpackFuel fuel bs).map fun (d, rest) => (.quote d, rest)
  | .list => (unpackArray fuel bs).map fun (ds, rest) => (.list ds, rest)
  | .lambda => if fields = 4 then unpackLambda fuel bs else .error (.lambdaFields fields)

theorem find?_tag (k : Kind) : (Kind.all.find? fun k' => k'.tag == k.tag) = some k := by
  cases k <;> rfl

theorem unpackFuel_head {fields : Nat} {k : Kind} {head : Bytes} (h : Head fields k head)
    (hf : 2 ≤ fields) (fuel : Nat) (bs : Bytes) :
    unpackFuel (fuel + 1) (head ++ bs) = unpackField fuel fields k bs := by
  obtain ⟨header, tag, rfl, hh, ht⟩ := h
  simp only [List.append_assoc, unpackFuel, hh.lift _, if_neg (Nat.not_lt.mpr hf), ht.lift bs,
    find?_tag]
  cases k <;> rfl

theorem exists_head {fuel : Nat} {bs rest : Bytes} {d : Datum}
    (h : unpackFuel (fuel + 1) bs = .ok (d, rest)) :
    ∃ e k head bs', bs = head ++ bs' ∧ Head (2 + e) k head ∧
      unpackField fuel (2 + e) k bs' = .ok (d, rest) := by
  have hread := h
  rw [unpackFuel] at h
  split at h
  · cases h
  · rename_i fields _ hfields
    split at h
    · cases h
    · rename_i hf
      split at h
      · cases h
      · rename_i tag bs' htag
        obtain ⟨header, rfl, hh⟩ := Pack.readArrayHeader_takes.of_lift hfields
        obtain ⟨tagBytes, rfl, ht⟩ := Pack.readInt_takes.of_lift htag
        obtain ⟨e, rfl⟩ : ∃ e, fields = 2 + e := ⟨fields - 2, by omega⟩
        cases hk : Kind.all.find? fun k => k.tag == tag with
        | none => simp [hk] at h
        | some k =>
            have heq : k.tag = tag := by simpa using List.find?_some hk
            have hhead : Head (2 + e) k (header ++ tagBytes) :=
              ⟨header, tagBytes, rfl, hh, heq ▸ ht⟩
            rw [← List.append_assoc, unpackFuel_head hhead (by omega)] at hread
            exact ⟨e, k, header ++ tagBytes, bs', by simp, hhead, hread⟩

theorem eq_ok_of_map {ε α β : Type} {f : α → β} {r : Except ε α} {b : β} (h : r.map f = .ok b) :
    ∃ a, r = .ok a ∧ f a = b := by
  cases r with
  | error e => cases h
  | ok a => exact ⟨a, rfl, Except.ok.inj h⟩

/-- What this reader takes is laid out. -/
def Lays (read : Bytes → Unpacked Datum) : Prop :=
  ∀ ⦃bs d rest⦄, read bs = .ok (d, rest) → ∃ u used, bs = used ++ rest ∧ Laid d u used

theorem unpackNames_takes (n : Nat) : Takes (unpackNames n) := by
  induction n with
  | zero => exact .pure []
  | succ n ih =>
      intro bs v rest h
      rw [unpackNames] at h
      split at h
      · cases h
      · rename_i s _ hs
        obtain ⟨⟨names, _⟩, hn, heq⟩ := eq_ok_of_map h
        obtain ⟨used, rfl, hu⟩ := Pack.readString_takes.of_lift hs
        obtain ⟨used', rfl, hu'⟩ := ih hn
        cases heq
        refine ⟨used ++ used', by simp, fun more => ?_⟩
        simp only [List.append_assoc, unpackNames, hu.lift _, hu' more, Except.map]

theorem length_unpackNames {n : Nat} {bs rest : Bytes} {names : List Name}
    (h : unpackNames n bs = .ok (names, rest)) : names.length = n := by
  induction n generalizing bs names with
  | zero => cases h; rfl
  | succ n ih =>
      rw [unpackNames] at h
      split at h
      · cases h
      · obtain ⟨⟨names, _⟩, hn, heq⟩ := eq_ok_of_map h
        cases heq
        rw [List.length_cons, ih hn]

theorem unpackSeq_lays {fuel : Nat} (h : ∀ k < fuel, Lays (unpackFuel k)) {n : Nat}
    {bs rest : Bytes} {ds : List Datum} (hr : unpackSeq fuel n bs = .ok (ds, rest)) :
    ∃ ps : List (Piece Datum), ps.length = n ∧ ds = ps.map Piece.value ∧
      bs = ps.flatMap Piece.bytes ++ rest ∧ ∀ p ∈ ps, Laid p.value p.unread p.bytes := by
  induction n generalizing fuel bs ds with
  | zero =>
      rw [unpackSeq] at hr
      cases hr
      exact ⟨[], rfl, rfl, rfl, by simp⟩
  | succ n ih =>
      cases fuel with
      | zero => cases hr
      | succ fuel =>
          rw [unpackSeq] at hr
          split at hr
          · cases hr
          · rename_i d _ hd
            have below : ∀ k < fuel, Lays (unpackFuel k) := fun k hk => h k (by omega)
            obtain ⟨⟨ds, _⟩, hds, heq⟩ := eq_ok_of_map hr
            cases heq
            obtain ⟨u, used, rfl, hu⟩ := h fuel (by omega) hd
            obtain ⟨ps, rfl, rfl, rfl, hps⟩ := ih below hds
            refine ⟨⟨d, u, used⟩ :: ps, rfl, rfl, by simp, ?_⟩
            exact List.forall_mem_cons.mpr ⟨hu, hps⟩

theorem unpackArray_lays {fuel : Nat} (h : ∀ k < fuel, Lays (unpackFuel k))
    {bs rest : Bytes} {ds : List Datum} (hr : unpackArray fuel bs = .ok (ds, rest)) :
    ∃ (ps : List (Piece Datum)) (count : Bytes), Reads Pack.readArrayHeader count ps.length ∧
      ds = ps.map Piece.value ∧ bs = count ++ ps.flatMap Piece.bytes ++ rest ∧
        ∀ p ∈ ps, Laid p.value p.unread p.bytes := by
  cases fuel with
  | zero => cases hr
  | succ fuel =>
      rw [unpackArray] at hr
      split at hr
      · cases hr
      · rename_i n _ hn
        obtain ⟨count, rfl, hc⟩ := Pack.readArrayHeader_takes.of_lift hn
        obtain ⟨ps, rfl, rfl, rfl, hps⟩ := unpackSeq_lays (fun k hk => h k (by omega)) hr
        exact ⟨ps, count, hc, rfl, by simp, hps⟩

theorem unpackLambda_lays {fuel : Nat} (h : ∀ k < fuel, Lays (unpackFuel k)) {head : Bytes}
    (hhead : Head 4 .lambda head) {bs rest : Bytes} {d : Datum}
    (hr : unpackLambda fuel bs = .ok (d, rest)) :
    ∃ u used, bs = used ++ rest ∧ Laid d u (head ++ used) := by
  cases fuel with
  | zero => cases hr
  | succ fuel =>
      rw [unpackLambda] at hr
      split at hr
      · cases hr
      · rename_i hbound
        split at hr
        · cases hr
        · rename_i n _ hn
          split at hr
          · cases hr
          · rename_i params _ hparams
            split at hr
            · cases hr
            · rename_i body _ hbody
              split at hr
              · cases hr
              · rename_i hlen
                cases hr
                obtain ⟨ps, count, hc, rfl, rfl, hps⟩ :=
                  unpackArray_lays (fun k hk => h k (by omega)) hbound
                obtain ⟨paramCount, rfl, hp⟩ := Pack.readArrayHeader_takes.of_lift hn
                obtain rfl := length_unpackNames hparams
                obtain ⟨names, rfl, hnames⟩ := unpackNames_takes _ hparams
                obtain ⟨u, used, rfl, hu⟩ := h fuel (by omega) hbody
                rw [List.length_map] at hlen
                exact ⟨_, _, by simp, .lambda hhead hc hps hp hnames hu (Nat.not_lt.mp hlen)⟩

theorem unpackFuel_lays (fuel : Nat) : Lays (unpackFuel fuel) := by
  induction fuel using Nat.strongRecOn with
  | _ fuel ih =>
      intro bs d rest h
      cases fuel with
      | zero => cases h
      | succ fuel =>
          obtain ⟨e, k, head, bs, rfl, hhead, hfield⟩ := exists_head h
          have below : ∀ k < fuel, Lays (unpackFuel k) := fun k hk => ih k (by omega)
          cases k with
          | int =>
              obtain ⟨⟨v, _⟩, hv, heq⟩ := eq_ok_of_map hfield
              obtain ⟨used, rfl, hu⟩ := Pack.readInt_takes.of_lift hv
              cases heq
              exact ⟨e, head ++ used, by simp, .int hhead hu⟩
          | bool =>
              obtain ⟨⟨b, _⟩, hb, heq⟩ := eq_ok_of_map hfield
              obtain ⟨used, rfl, hu⟩ := Pack.readBool_takes.of_lift hb
              cases heq
              exact ⟨e, head ++ used, by simp, .bool hhead hu⟩
          | symbol =>
              obtain ⟨⟨s, _⟩, hs, heq⟩ := eq_ok_of_map hfield
              obtain ⟨used, rfl, hu⟩ := Pack.readString_takes.of_lift hs
              cases heq
              exact ⟨e, head ++ used, by simp, .symbol hhead hu⟩
          | builtin =>
              obtain ⟨⟨s, _⟩, hs, heq⟩ := eq_ok_of_map hfield
              obtain ⟨used, rfl, hu⟩ := Pack.readString_takes.of_lift hs
              cases heq
              exact ⟨e, head ++ used, by simp, .builtin hhead hu⟩
          | quote =>
              obtain ⟨⟨d, _⟩, hd, heq⟩ := eq_ok_of_map hfield
              obtain ⟨u, used, rfl, hu⟩ := ih fuel (by omega) hd
              cases heq
              exact ⟨u + e, head ++ used, by simp, .quote hhead hu⟩
          | list =>
              obtain ⟨⟨ds, _⟩, hds, heq⟩ := eq_ok_of_map hfield
              obtain ⟨ps, count, hc, rfl, rfl, hps⟩ := unpackArray_lays below hds
              cases heq
              exact ⟨_, head ++ (count ++ ps.flatMap Piece.bytes), by simp, .list hhead hc hps⟩
          | lambda =>
              simp only [unpackField] at hfield
              split_ifs at hfield with hfour
              obtain ⟨u, used, rfl, hu⟩ := unpackLambda_lays below (hfour ▸ hhead) hfield
              exact ⟨u, head ++ used, by simp, hu⟩

theorem length_pos_of_reads {α : Type} {read : Bytes → Pack.Result α} {bs : Bytes} {v : α}
    (h : Reads read bs v) (hnil : ∀ r, read [] ≠ .ok r) : 0 < bs.length := by
  refine List.length_pos_iff.mpr ?_
  rintro rfl
  exact hnil _ (h [])

/-- A sequence has no more elements than bytes, if each has a byte. -/
theorem length_le_flatMap {α : Type} {write : α → Bytes} {as : List α}
    (h : ∀ a ∈ as, 0 < (write a).length) : as.length ≤ (as.flatMap write).length := by
  induction as with
  | nil => exact Nat.zero_le _
  | cons a as ih =>
      rw [List.forall_mem_cons] at h
      have others := ih h.2
      rw [List.flatMap_cons, List.length_append, List.length_cons]
      omega

theorem Head.two_le_length {fields : Nat} {k : Kind} {head : Bytes} (h : Head fields k head) :
    2 ≤ head.length := by
  obtain ⟨header, tag, rfl, hh, ht⟩ := h
  have hheader := length_pos_of_reads hh nofun
  have htag := length_pos_of_reads ht nofun
  rw [List.length_append]
  omega

/-- With a byte's worth of fuel for each byte, and more, the bytes are read as the tree. -/
def ReadBack (d : Datum) (bs : Bytes) : Prop :=
  ∀ fuel, bs.length ≤ fuel → Reads (unpackFuel fuel) bs d

theorem ReadBack.length_pos {d : Datum} {bs : Bytes} (h : ReadBack d bs) : 0 < bs.length := by
  refine Nat.pos_of_ne_zero fun hlen => ?_
  exact absurd (h 0 hlen.le []) nofun

/-- A node is read back if the reader of what follows its head reads it back. -/
theorem readBack_of_head {d : Datum} {fields : Nat} {k : Kind} {head bs : Bytes}
    (hhead : Head fields k head) (hf : 2 ≤ fields)
    (h : ∀ fuel, bs.length < fuel → Reads (unpackField fuel fields k) bs d) :
    ReadBack d (head ++ bs) := by
  intro fuel hfuel rest
  have hlen := hhead.two_le_length
  rw [List.length_append] at hfuel
  obtain ⟨fuel, rfl⟩ : ∃ k, fuel = k + 1 := ⟨fuel - 1, by omega⟩
  rw [List.append_assoc, unpackFuel_head hhead hf, h fuel (by omega) rest]

theorem unpackSeq_reads {ps : List (Piece Datum)} (h : ∀ p ∈ ps, ReadBack p.value p.bytes)
    {fuel : Nat} (hf : (ps.flatMap Piece.bytes).length < fuel) :
    Reads (unpackSeq fuel ps.length) (ps.flatMap Piece.bytes) (ps.map Piece.value) := by
  induction ps generalizing fuel with
  | nil =>
      intro rest
      simp only [List.length_nil, unpackSeq, List.flatMap_nil, List.nil_append, List.map_nil]
  | cons p ps ih =>
      rw [List.forall_mem_cons] at h
      rw [List.flatMap_cons, List.length_append] at hf
      have hpos := h.1.length_pos
      obtain ⟨fuel, rfl⟩ : ∃ k, fuel = k + 1 := ⟨fuel - 1, by omega⟩
      have hp := h.1 fuel (by omega)
      have hps := ih h.2 (by omega : _ < fuel)
      intro rest
      simp only [List.flatMap_cons, List.append_assoc, List.length_cons, unpackSeq, hp _, hps rest,
        Except.map, List.map_cons]

theorem unpackArray_reads {ps : List (Piece Datum)} (h : ∀ p ∈ ps, ReadBack p.value p.bytes)
    {count : Bytes} (hc : Reads Pack.readArrayHeader count ps.length) {fuel : Nat}
    (hf : (count ++ ps.flatMap Piece.bytes).length < fuel) :
    Reads (unpackArray fuel) (count ++ ps.flatMap Piece.bytes) (ps.map Piece.value) := by
  have hpos := length_pos_of_reads hc nofun
  rw [List.length_append] at hf
  obtain ⟨fuel, rfl⟩ : ∃ k, fuel = k + 1 := ⟨fuel - 1, by omega⟩
  have hps := unpackSeq_reads h (by omega : _ < fuel)
  intro rest
  simp only [List.append_assoc, unpackArray, hc.lift _, hps rest]

theorem unpackLambda_reads {ps : List (Piece Datum)} (h : ∀ p ∈ ps, ReadBack p.value p.bytes)
    {count paramCount names bs : Bytes} {params : List Name} {body : Datum}
    (hc : Reads Pack.readArrayHeader count ps.length)
    (hp : Reads Pack.readArrayHeader paramCount params.length)
    (hn : Reads (unpackNames params.length) names params) (hb : ReadBack body bs)
    (hlen : ps.length ≤ params.length) {fuel : Nat}
    (hf : ((count ++ ps.flatMap Piece.bytes) ++ ((paramCount ++ names) ++ bs)).length < fuel) :
    Reads (unpackLambda fuel) ((count ++ ps.flatMap Piece.bytes) ++ ((paramCount ++ names) ++ bs))
      (.lambda (ps.map Piece.value) params body) := by
  have hpos := length_pos_of_reads hp nofun
  simp only [List.length_append] at hf
  obtain ⟨fuel, rfl⟩ : ∃ k, fuel = k + 1 := ⟨fuel - 1, by omega⟩
  have hbound : Reads (unpackArray fuel) _ _ :=
    unpackArray_reads h hc (by rw [List.length_append]; omega)
  have hbody := hb fuel (by omega)
  intro rest
  simp only [List.append_assoc, unpackLambda]
  rw [← List.append_assoc count, hbound]
  simp only [hp.lift _, hn _, hbody rest, List.length_map, if_neg (Nat.not_lt.mpr hlen)]

theorem Laid.readBack {d : Datum} {u : Nat} {bs : Bytes} (h : Laid d u bs) : ReadBack d bs := by
  induction h with
  | int hh hr => exact readBack_of_head hh (by omega) fun _ _ => hr.lift.map Datum.int
  | bool hh hr => exact readBack_of_head hh (by omega) fun _ _ => hr.lift.map Datum.bool
  | symbol hh hr =>
      exact readBack_of_head hh (by omega) fun _ _ => hr.lift.map fun s => Datum.symbol ⟨s⟩
  | builtin hh hr =>
      exact readBack_of_head hh (by omega) fun _ _ => hr.lift.map fun s => Datum.builtin ⟨s⟩
  | quote hh _ ih =>
      exact readBack_of_head hh (by omega) fun fuel hf => (ih fuel hf.le).map Datum.quote
  | list hh hc _ ih =>
      exact readBack_of_head hh (by omega) fun fuel hf =>
        (unpackArray_reads ih hc hf).map Datum.list
  | lambda hh hc _ hp hn _ hlen ihs ih =>
      exact readBack_of_head hh (by omega) fun fuel hf => unpackLambda_reads ihs hc hp hn ih hlen hf

theorem unpack_eq_ok_iff {bs rest : Bytes} {d : Datum} :
    unpack bs = .ok (d, rest) ↔ ∃ u used, bs = used ++ rest ∧ Laid d u used := by
  constructor
  · exact fun h => unpackFuel_lays _ h
  · rintro ⟨u, used, rfl, h⟩
    exact h.readBack _ (by rw [List.length_append]; omega) rest

theorem Head.skips {e : Nat} {k : Kind} {head : Bytes} (h : Head (2 + e) k head) :
    Skips 1 head (1 + e) := by
  obtain ⟨header, tag, rfl, hh, ht⟩ := h
  have hheader : Skips 1 header (1 + (1 + e)) := by
    rw [← Nat.add_assoc]
    exact Pack.readArrayHeader_heads.skips hh
  have htag : Skips 1 tag 0 := Pack.readInt_heads.skips ht
  rw [← Nat.zero_add (1 + e)]
  exact hheader.inside htag

theorem skipMany_names {n : Nat} {bs rest : Bytes} {names : List Name}
    (h : unpackNames n bs = .ok (names, rest)) (more : Nat) :
    Pack.skipMany (n + more) bs = Pack.skipMany more rest := by
  induction n generalizing bs names with
  | zero =>
      cases h
      rw [Nat.zero_add]
  | succ n ih =>
      rw [unpackNames] at h
      split at h
      · cases h
      · rename_i hs
        obtain ⟨⟨names, _⟩, hn, heq⟩ := eq_ok_of_map h
        cases heq
        obtain ⟨used, rfl, hu⟩ := Pack.readString_takes.of_lift hs
        have hskip := Pack.readString_heads.skips hu (n + more)
        rw [Nat.add_right_comm, Nat.add_comm (n + more), hskip, Nat.zero_add, ih hn]

theorem unpackNames_skips {n : Nat} {bs : Bytes} {names : List Name}
    (h : Reads (unpackNames n) bs names) : Skips n bs 0 := by
  intro more rest
  rw [skipMany_names (h rest), Nat.zero_add]

theorem Laid.skips {d : Datum} {u : Nat} {bs : Bytes} (h : Laid d u bs) : Skips 1 bs u := by
  -- each node takes the first of the fields that it declares and leaves the others
  induction h with
  | @int e _ _ _ hh hr =>
      rw [← Nat.zero_add e]
      exact hh.skips.inside (Pack.readInt_heads.skips hr)
  | @bool e _ _ _ hh hr =>
      rw [← Nat.zero_add e]
      exact hh.skips.inside (Pack.readBool_heads.skips hr)
  | @symbol e _ _ _ hh hr | @builtin e _ _ _ hh hr =>
      rw [← Nat.zero_add e]
      exact hh.skips.inside (Pack.readString_heads.skips hr)
  | quote hh _ ih => exact hh.skips.inside ih
  | list hh hc _ ih =>
      have hcount := Pack.readArrayHeader_heads.skips hc
      exact hh.skips.inside (hcount.fill (Skips.flatMap ih))
  | lambda hh hc _ hp hn _ _ ihs ih =>
      have hcount := Pack.readArrayHeader_heads.skips hc
      have hparams := Pack.readArrayHeader_heads.skips hp
      have hbound := hcount.fill (Skips.flatMap ihs)
      have hnames := hparams.fill (unpackNames_skips hn)
      have hfields := hbound.beside (hnames.beside ih)
      rw [Nat.zero_add] at hfields
      exact (Head.skips hh).fill hfields

end Datum

/-- The bytes are those of a definition: a header for two fields, the name and the tree. -/
def LaidDefinition (p : Name × Datum) (unread : Nat) (bs : Bytes) : Prop :=
  ∃ header name tree, bs = header ++ (name ++ tree) ∧ Reads Pack.readArrayHeader header 2 ∧
    Reads Pack.readString name p.1.bytes ∧ Datum.Laid p.2 unread tree

/-- The bytes are those of the definitions, whose nodes declare `unread` fields in all which the
bytes do not have. -/
def LaidDefinitions (defs : List (Name × Datum)) (unread : Nat) (bs : Bytes) : Prop :=
  ∃ (count : Bytes) (ps : List (Piece (Name × Datum))), bs = count ++ ps.flatMap Piece.bytes ∧
    Reads Pack.readArrayHeader count ps.length ∧ defs = ps.map Piece.value ∧
      unread = (ps.map Piece.unread).sum ∧ ∀ p ∈ ps, LaidDefinition p.value p.unread p.bytes

theorem LaidDefinition.skips {p : Name × Datum} {u : Nat} {bs : Bytes}
    (h : LaidDefinition p u bs) : Skips 1 bs u := by
  obtain ⟨header, name, tree, rfl, hh, hn, ht⟩ := h
  have hfields := (Pack.readString_heads.skips hn).beside ht.skips
  rw [Nat.zero_add] at hfields
  exact (Pack.readArrayHeader_heads.skips hh).fill hfields

theorem LaidDefinitions.skips {defs : List (Name × Datum)} {u : Nat} {bs : Bytes}
    (h : LaidDefinitions defs u bs) : Skips 1 bs u := by
  obtain ⟨count, ps, rfl, hc, rfl, rfl, hps⟩ := h
  exact (Pack.readArrayHeader_heads.skips hc).fill (.flatMap fun p hp => (hps p hp).skips)

theorem unpackPairs_lays {n : Nat} {bs rest : Bytes} {defs : List (Name × Datum)}
    (h : unpackPairs n bs = .ok (defs, rest)) :
    ∃ ps : List (Piece (Name × Datum)), ps.length = n ∧ defs = ps.map Piece.value ∧
      bs = ps.flatMap Piece.bytes ++ rest ∧ ∀ p ∈ ps, LaidDefinition p.value p.unread p.bytes := by
  induction n generalizing bs defs with
  | zero =>
      cases h
      exact ⟨[], rfl, rfl, rfl, by simp⟩
  | succ n ih =>
      rw [unpackPairs] at h
      split at h
      · cases h
      · rename_i hfields
        split at h
        · cases h
        · rename_i htwo
          split at h
          · cases h
          · rename_i name _ hname
            split at h
            · cases h
            · rename_i d _ hd
              obtain ⟨⟨defs, _⟩, hdefs, heq⟩ := Datum.eq_ok_of_map h
              cases heq
              obtain ⟨header, rfl, hh⟩ := Pack.readArrayHeader_takes.of_lift hfields
              obtain ⟨nameBytes, rfl, hn⟩ := Pack.readString_takes.of_lift hname
              obtain ⟨u, tree, rfl, ht⟩ := Datum.unpack_eq_ok_iff.mp hd
              obtain ⟨ps, rfl, rfl, rfl, hps⟩ := ih hdefs
              rw [not_not.mp htwo] at hh
              refine ⟨⟨(⟨name⟩, d), u, header ++ (nameBytes ++ tree)⟩ :: ps, rfl, rfl, by simp, ?_⟩
              exact List.forall_mem_cons.mpr ⟨⟨header, nameBytes, tree, rfl, hh, hn, ht⟩, hps⟩

/-- Definitions in front are read, and then what comes after them. -/
theorem unpackPairs_append {ps : List (Piece (Name × Datum))}
    (h : ∀ p ∈ ps, LaidDefinition p.value p.unread p.bytes) (n : Nat) (rest : Bytes) :
    unpackPairs (ps.length + n) (ps.flatMap Piece.bytes ++ rest) =
      (unpackPairs n rest).map fun r => (ps.map Piece.value ++ r.1, r.2) := by
  induction ps with
  | nil =>
      rw [List.length_nil, Nat.zero_add, List.flatMap_nil, List.nil_append]
      cases unpackPairs n rest <;> rfl
  | cons p ps ih =>
      rw [List.forall_mem_cons] at h
      obtain ⟨header, name, tree, hbytes, hh, hn, ht⟩ := h.1
      have htree : Reads Datum.unpack tree p.value.2 := fun rest =>
        Datum.unpack_eq_ok_iff.mpr ⟨p.unread, tree, rfl, ht⟩
      simp only [List.flatMap_cons, hbytes, List.append_assoc, List.length_cons,
        Nat.add_right_comm _ 1 n, unpackPairs, hh.lift _, hn.lift _, htree _, ne_eq,
        not_true_eq_false, if_false, ih h.2]
      cases unpackPairs n rest <;> rfl

theorem unpackDefinitions_eq_ok_iff {bs rest : Bytes} {defs : List (Name × Datum)} :
    unpackDefinitions bs = .ok (defs, rest) ↔
      ∃ u used, bs = used ++ rest ∧ LaidDefinitions defs u used := by
  constructor
  · intro h
    unfold unpackDefinitions at h
    split at h
    · cases h
    · rename_i hn
      obtain ⟨count, rfl, hc⟩ := Pack.readArrayHeader_takes.of_lift hn
      obtain ⟨ps, rfl, rfl, rfl, hps⟩ := unpackPairs_lays h
      exact ⟨_, _, by rw [List.append_assoc], count, ps, rfl, hc, rfl, rfl, hps⟩
  · rintro ⟨u, used, rfl, count, ps, rfl, hc, rfl, rfl, hps⟩
    have hread := unpackPairs_append hps 0 rest
    rw [Nat.add_zero] at hread
    simp only [List.append_assoc, unpackDefinitions, hc.lift _, hread, unpackPairs, Except.map,
      List.append_nil]

/-- What is read is one whole value, namely the one that skipping takes, exactly if no node in it
declares more fields than its kind has; so also for the definitions of an image, which are read
whatever bytes follow them. -/
theorem reading_whole_iff (bs : Bytes) :
    (∀ d rest, Datum.unpack bs = .ok (d, rest) → ∃ unread used, bs = used ++ rest ∧
      Datum.Laid d unread used ∧ (Pack.skip bs = .ok rest ↔ unread = 0)) ∧
    (∀ defs rest, unpackDefinitions bs = .ok (defs, rest) → ∃ unread used, bs = used ++ rest ∧
      LaidDefinitions defs unread used ∧ (Pack.skip bs = .ok rest ↔ unread = 0) ∧
        ∀ more, unpackDefinitions (used ++ more) = .ok (defs, more)) := by
  constructor
  · intro d rest h
    obtain ⟨u, used, rfl, hu⟩ := Datum.unpack_eq_ok_iff.mp h
    exact ⟨u, used, rfl, hu, hu.skips.skip_iff rest⟩
  · intro defs rest h
    obtain ⟨u, used, rfl, hu⟩ := unpackDefinitions_eq_ok_iff.mp h
    refine ⟨u, used, rfl, hu, hu.skips.skip_iff rest, fun more => ?_⟩
    exact unpackDefinitions_eq_ok_iff.mpr ⟨u, used, rfl, hu⟩

set_option maxRecDepth 1000 in
/-- Two definitions, of which the first has a field too many, are read as two others, and the
second definition is left over. -/
theorem field_read_as_definition :
    let bs : Bytes := [0x92, 0x92, 0xA1, 0x61, 0x93, 0x00, 0x01, 0x92, 0xA1, 0x62, 0x92, 0x00, 0x02,
      0x92, 0xA1, 0x63, 0x92, 0x00, 0x03]
    unpackDefinitions bs = .ok ([(⟨[0x61]⟩, .int 1), (⟨[0x62]⟩, .int 2)],
      [0x92, 0xA1, 0x63, 0x92, 0x00, 0x03]) ∧ Pack.skip bs = .ok [] :=
  ⟨rfl, by decide +kernel⟩

end CellScheme
