import CellScheme.Proofs.Image.Layout

/-!
What reading takes. A value that has been read has taken a byte for each of its elements at least,
and what is left is the end of the bytes.
-/

namespace CellScheme

open Pack (Reads Takes)
open Datum (Unpacked lift)

/-- Go on behind a value that has been read. -/
def readThen {α β : Type} (r : Unpacked α) (next : α → Bytes → Unpacked β) : Unpacked β :=
  match r with
  | .error e => .error e
  | .ok (v, rest) => next v rest

namespace Datum

/-- A procedure, unless it binds more arguments than it has parameters. -/
def bindLambda (bound : List Datum) (params : List Name) (body : Datum) (rest : Bytes) :
    Unpacked Datum :=
  if params.length < bound.length then .error (.overbound bound.length params.length)
  else .ok (.lambda bound params body, rest)

theorem unpackSeq_succ (fuel n : Nat) (bs : Bytes) :
    unpackSeq (fuel + 1) (n + 1) bs = readThen (unpackFuel fuel bs) fun d bs =>
      (unpackSeq fuel n bs).map fun (ds, rest) => (d :: ds, rest) := by
  rw [unpackSeq]
  cases unpackFuel fuel bs <;> rfl

theorem unpackArray_succ (fuel : Nat) (bs : Bytes) :
    unpackArray (fuel + 1) bs =
      readThen (lift (Pack.readArrayHeader bs)) fun n bs => unpackSeq fuel n bs := by
  rw [unpackArray]
  cases lift (Pack.readArrayHeader bs) <;> rfl

theorem unpackLambda_succ (fuel : Nat) (bs : Bytes) :
    unpackLambda (fuel + 1) bs =
      readThen (unpackArray fuel bs) fun bound bs =>
        readThen (lift (Pack.readArrayHeader bs)) fun n bs =>
          readThen (unpackNames n bs) fun params bs =>
            readThen (unpackFuel fuel bs) fun body bs => bindLambda bound params body bs := by
  rw [unpackLambda]
  cases unpackArray fuel bs with
  | error e => rfl
  | ok p =>
      simp only [readThen]
      cases lift (Pack.readArrayHeader p.2) with
      | error e => rfl
      | ok q =>
          simp only
          cases unpackNames q.1 q.2 with
          | error e => rfl
          | ok r =>
              simp only
              cases unpackFuel fuel r.2 <;> rfl

theorem unpackFuel_succ (fuel : Nat) (bs : Bytes) :
    unpackFuel (fuel + 1) bs =
      readThen (lift (Pack.readArrayHeader bs)) fun fields bs =>
        if fields < 2 then .error (.nodeFields fields)
        else
          readThen (lift (Pack.readInt bs)) fun tag bs =>
            match Kind.all.find? fun k => k.tag == tag with
            | none => .error (.unknownTag tag)
            | some k => unpackField fuel fields k bs := by
  rw [unpackFuel]
  cases lift (Pack.readArrayHeader bs) with
  | error e => rfl
  | ok p =>
      simp only [readThen]
      split
      · rfl
      · cases lift (Pack.readInt p.2) with
        | error e => rfl
        | ok q =>
            simp only
            cases Kind.all.find? fun k => k.tag == q.1 with
            | none => rfl
            | some k => cases k <;> rfl

end Datum

theorem unpackPairs_succ (n : Nat) (bs : Bytes) :
    unpackPairs (n + 1) bs =
      readThen (lift (Pack.readArrayHeader bs)) fun fields bs =>
        if fields ≠ 2 then .error (.definitionFields fields)
        else
          readThen (lift (Pack.readString bs)) fun name bs =>
            readThen (Datum.unpack bs) fun d bs =>
              (unpackPairs n bs).map fun (ds, rest) => ((⟨name⟩, d) :: ds, rest) := by
  rw [unpackPairs]
  cases lift (Pack.readArrayHeader bs) with
  | error e => rfl
  | ok p =>
      simp only [readThen]
      split
      · rfl
      · cases lift (Pack.readString p.2) with
        | error e => rfl
        | ok q =>
            simp only
            cases Datum.unpack q.2 <;> rfl

namespace Pack

theorem readArrayHeader_nil (r : Nat × Bytes) : readArrayHeader [] ≠ .ok r := by
  intro h
  cases h

theorem readInt_nil (r : Int64 × Bytes) : readInt [] ≠ .ok r := by
  intro h
  cases h

theorem readBool_nil (r : Bool × Bytes) : readBool [] ≠ .ok r := by
  intro h
  cases h

theorem readString_nil (r : Bytes × Bytes) : readString [] ≠ .ok r := by
  intro h
  cases h

end Pack

theorem readThen_eq_ok {α β : Type} {r : Unpacked α} {next : α → Bytes → Unpacked β}
    {p : β × Bytes} (h : readThen r next = .ok p) :
    ∃ v rest, r = .ok (v, rest) ∧ next v rest = .ok p := by
  cases r with
  | error e => cases h
  | ok q => exact ⟨q.1, q.2, rfl, h⟩

namespace Datum

theorem lift_consumes {α : Type} {read : Bytes → Pack.Result α} (h : Takes read)
    (hnil : ∀ r, read [] ≠ .ok r) {bs rest : Bytes} {v : α} (hr : lift (read bs) = .ok (v, rest)) :
    rest <:+ bs ∧ 1 + rest.length ≤ bs.length := by
  obtain ⟨used, rfl, hu⟩ := h.of_lift hr
  have hpos := length_pos_of_reads hu hnil
  refine ⟨List.suffix_append _ _, ?_⟩
  rw [List.length_append]
  omega

variable {fuel n : Nat} {bs rest : Bytes}

theorem unpackFuel_consumes {d : Datum} (h : unpackFuel fuel bs = .ok (d, rest)) :
    rest <:+ bs ∧ rest.length < bs.length := by
  obtain ⟨u, used, rfl, hu⟩ := unpackFuel_lays fuel h
  have hpos := hu.readBack.length_pos
  refine ⟨List.suffix_append _ _, ?_⟩
  rw [List.length_append]
  omega

theorem unpackNames_consumes {names : List Name} (h : unpackNames n bs = .ok (names, rest)) :
    rest <:+ bs ∧ names.length + rest.length ≤ bs.length := by
  induction n generalizing bs names with
  | zero =>
      cases h
      exact ⟨List.suffix_rfl, (Nat.zero_add _).le⟩
  | succ n ih =>
      rw [unpackNames] at h
      split at h
      · cases h
      · rename_i hs
        obtain ⟨⟨names, _⟩, hn, heq⟩ := eq_ok_of_map h
        cases heq
        obtain ⟨front, first⟩ := lift_consumes Pack.readString_takes Pack.readString_nil hs
        obtain ⟨left, others⟩ := ih hn
        exact ⟨left.trans front, by rw [List.length_cons]; omega⟩

theorem unpackArray_consumes {ds : List Datum} (h : unpackArray fuel bs = .ok (ds, rest)) :
    rest <:+ bs ∧ ds.length + rest.length < bs.length := by
  obtain ⟨ps, count, hc, rfl, rfl, hps⟩ := unpackArray_lays (fun k _ => unpackFuel_lays k) h
  have header := length_pos_of_reads hc Pack.readArrayHeader_nil
  have elements := length_le_flatMap fun p hp => (hps p hp).readBack.length_pos
  refine ⟨List.suffix_append _ _, ?_⟩
  rw [List.length_map, List.length_append, List.length_append]
  omega

theorem unpackLambda_consumes {d : Datum} (h : unpackLambda fuel bs = .ok (d, rest)) :
    ∃ bound params body, d = .lambda bound params body ∧ rest <:+ bs ∧
      bound.length + params.length + rest.length < bs.length := by
  cases fuel with
  | zero => cases h
  | succ fuel =>
      rw [unpackLambda_succ] at h
      obtain ⟨bound, _, hb, h⟩ := readThen_eq_ok h
      obtain ⟨n, _, hn, h⟩ := readThen_eq_ok h
      obtain ⟨params, _, hp, h⟩ := readThen_eq_ok h
      obtain ⟨body, _, hk, h⟩ := readThen_eq_ok h
      rw [bindLambda] at h
      split at h
      · cases h
      · cases h
        obtain ⟨s₁, l₁⟩ := unpackArray_consumes hb
        obtain ⟨s₂, l₂⟩ := lift_consumes Pack.readArrayHeader_takes Pack.readArrayHeader_nil hn
        obtain ⟨s₃, l₃⟩ := unpackNames_consumes hp
        obtain ⟨s₄, l₄⟩ := unpackFuel_consumes hk
        exact ⟨bound, params, body, rfl, ((s₄.trans s₃).trans s₂).trans s₁, by omega⟩

end Datum

theorem unpackDefinitions_consumes {bs rest : Bytes} {defs : List (Name × Datum)}
    (h : unpackDefinitions bs = .ok (defs, rest)) :
    rest <:+ bs ∧ defs.length + rest.length < bs.length := by
  obtain ⟨_, _, rfl, count, ps, rfl, hc, rfl, rfl, hps⟩ := unpackDefinitions_eq_ok_iff.mp h
  have header := Datum.length_pos_of_reads hc Pack.readArrayHeader_nil
  have definitions : ps.length ≤ (ps.flatMap Piece.bytes).length := by
    refine Datum.length_le_flatMap fun p hp => ?_
    obtain ⟨front, _, _, hbytes, hh, _, _⟩ := hps p hp
    have := Datum.length_pos_of_reads hh Pack.readArrayHeader_nil
    rw [hbytes, List.length_append]
    omega
  refine ⟨List.suffix_append _ _, ?_⟩
  rw [List.length_map, List.length_append, List.length_append]
  omega

end CellScheme
