import CellScheme.Proofs.Image.Consumption

/-!
Reading makes progress. Whatever counts the bytes announce, reading comes to an end after at most
one node for each byte, since a node takes two bytes before it reads another; what has been read has
a byte for each of its elements; and a count that exceeds the bytes behind it makes reading fail.
The number of fields of a node is no such count, unless the node is a procedure: it is not compared
with anything.
-/

namespace CellScheme

open Pack (Reads Takes)
open Datum (Unpacked lift)

/-- What a reader passes on its way. -/
inductive Waypoint where
  | node
  /-- The number of values that are to follow, and the number of bytes that do. -/
  | count (announced available : Nat)
deriving DecidableEq, Repr

namespace Waypoint

def isNode : Waypoint → Bool
  | node => true
  | count _ _ => false

/-- More is announced than there is. -/
def Overdraws : Waypoint → Prop
  | node => False
  | count announced available => available < announced

end Waypoint

/-- The number of nodes that are begun. -/
def nodes (log : List Waypoint) : Nat :=
  log.countP Waypoint.isNode

theorem nodes_append (log log' : List Waypoint) : nodes (log ++ log') = nodes log + nodes log' :=
  List.countP_append

/-- A result with the way to it, or nothing where the fuel is used up. -/
abbrev Charted (α : Type) := Option (List Waypoint × Unpacked α)

namespace Charted

variable {α β : Type}

/-- A result without a way to it. -/
def silent (r : Unpacked α) : Charted α :=
  some ([], r)

def note (m : Waypoint) (t : Charted α) : Charted α :=
  t.map fun (log, r) => (m :: log, r)

/-- Go on behind a value that has been read, with the ways of both. -/
def next (t : Charted α) (f : α → Bytes → Charted β) : Charted β :=
  match t with
  | none => none
  | some (log, .error e) => some (log, .error e)
  | some (log, .ok (v, rest)) => (f v rest).map fun (log', r) => (log ++ log', r)

end Charted

namespace Datum

mutual
/-- `unpackFuel` with its way. Without fuel there is no result. -/
def chartFuel : Nat → Bytes → Charted Datum
  | 0, _ => none
  | fuel + 1, bs =>
    .note .node <| (Charted.silent (lift (Pack.readArrayHeader bs))).next fun fields fieldBytes =>
      if fields < 2 then .silent (.error (.nodeFields fields))
      else
        (Charted.silent (lift (Pack.readInt fieldBytes))).next fun tag bs =>
          match Kind.all.find? fun k => k.tag == tag with
          | none => .silent (.error (.unknownTag tag))
          | some .quote => (chartFuel fuel bs).next fun d rest => .silent (.ok (.quote d, rest))
          | some .list => (chartArray fuel bs).next fun ds rest => .silent (.ok (.list ds, rest))
          | some .lambda =>
            .note (.count fields fieldBytes.length) <|
              if fields = 4 then chartLambda fuel bs else .silent (.error (.lambdaFields fields))
          | some k => .silent (unpackField fuel fields k bs)

def chartArray : Nat → Bytes → Charted (List Datum)
  | 0, _ => none
  | fuel + 1, bs =>
    (Charted.silent (lift (Pack.readArrayHeader bs))).next fun n bs =>
      .note (.count n bs.length) (chartSeq fuel n bs)

def chartSeq : Nat → Nat → Bytes → Charted (List Datum)
  | _, 0, bs => .silent (.ok ([], bs))
  | 0, _ + 1, _ => none
  | fuel + 1, n + 1, bs =>
    (chartFuel fuel bs).next fun d bs =>
      (chartSeq fuel n bs).next fun ds rest => .silent (.ok (d :: ds, rest))

def chartLambda : Nat → Bytes → Charted Datum
  | 0, _ => none
  | fuel + 1, bs =>
    (chartArray fuel bs).next fun bound bs =>
      (Charted.silent (lift (Pack.readArrayHeader bs))).next fun n bs =>
        .note (.count n bs.length) <| (Charted.silent (unpackNames n bs)).next fun params bs =>
          (chartFuel fuel bs).next fun body bs => .silent (bindLambda bound params body bs)
end

end Datum

/-- `unpackPairs` with its way. -/
def chartPairs : Nat → Bytes → Charted (List (Name × Datum))
  | 0, bs => .silent (.ok ([], bs))
  | n + 1, bs =>
    (Charted.silent (lift (Pack.readArrayHeader bs))).next fun fields bs =>
      .note (.count fields bs.length) <|
        if fields ≠ 2 then .silent (.error (.definitionFields fields))
        else
          (Charted.silent (lift (Pack.readString bs))).next fun name bs =>
            (Datum.chartFuel (2 * bs.length + 2) bs).next fun d bs =>
              (chartPairs n bs).next fun ds rest => .silent (.ok ((⟨name⟩, d) :: ds, rest))

/-- `unpackDefinitions` with its way. -/
def chartDefinitions (bs : Bytes) : Charted (List (Name × Datum)) :=
  (Charted.silent (lift (Pack.readArrayHeader bs))).next fun n bs =>
    .note (.count n bs.length) (chartPairs n bs)

section

variable {α β : Type} {bs : Bytes} {free : Nat} {u : Unpacked α} {t : Charted α}

/-- Reading these bytes comes to an end, with this result. A value has taken two bytes for each node
and `s` bytes besides, and no count overdrew; a failure has begun nodes for two bytes each of
these bytes and `free` more. -/
def Paced (bs : Bytes) (free s : Nat) (u : Unpacked α) (t : Charted α) : Prop :=
  ∃ log, t = some (log, u) ∧
    match u with
    | .error _ => 2 * nodes log ≤ bs.length + free
    | .ok (_, rest) =>
      2 * nodes log + s + rest.length ≤ bs.length ∧ ∀ m ∈ log, ¬ m.Overdraws

namespace Paced

variable {s : Nat}

theorem error (e : ImageError) : Paced bs free s (.error e : Unpacked α) (.silent (.error e)) :=
  ⟨[], rfl, Nat.zero_le _⟩

theorem silent (h : ∀ v rest, u = .ok (v, rest) → s + rest.length ≤ bs.length) :
    Paced bs free s u (.silent u) := by
  refine ⟨[], rfl, ?_⟩
  cases u with
  | error e => exact Nat.zero_le _
  | ok p => exact ⟨by simpa [nodes] using h _ _ rfl, by simp⟩

theorem read {read : Bytes → Pack.Result α} (h : Takes read) (hnil : ∀ r, read [] ≠ .ok r) :
    Paced bs free 1 (lift (read bs)) (.silent (lift (read bs))) :=
  .silent fun _ _ hr => (Datum.lift_consumes h hnil hr).2

theorem header : Paced bs free 1 (lift (Pack.readArrayHeader bs))
    (.silent (lift (Pack.readArrayHeader bs))) :=
  read Pack.readArrayHeader_takes Pack.readArrayHeader_nil

theorem field {read : Bytes → Pack.Result α} (h : Takes read) (hnil : ∀ r, read [] ≠ .ok r)
    (f : α → β) :
    Paced bs free 1 ((lift (read bs)).map fun (v, rest) => (f v, rest))
      (.silent ((lift (read bs)).map fun (v, rest) => (f v, rest))) := by
  refine .silent fun w rest hr => ?_
  obtain ⟨⟨v, _⟩, hv, heq⟩ := Datum.eq_ok_of_map hr
  obtain ⟨-, rfl⟩ := Prod.mk.inj heq
  exact (Datum.lift_consumes h hnil hv).2

theorem mono (h : Paced bs free s u t) {free' s' : Nat} (hf : free ≤ free')
    (hs : s' ≤ s) : Paced bs free' s' u t := by
  obtain ⟨log, ht, hlog⟩ := h
  refine ⟨log, ht, ?_⟩
  cases u with
  | error e =>
      have hlog : 2 * nodes log ≤ bs.length + free := hlog
      exact hlog.trans (by omega)
  | ok p => exact ⟨by have := hlog.1; omega, hlog.2⟩

theorem used_le (h : Paced bs free s u t) {v : α} {rest : Bytes} (hu : u = .ok (v, rest)) :
    s + rest.length ≤ bs.length := by
  obtain ⟨log, _, hlog⟩ := h
  subst hu
  have := hlog.1
  omega

/-- However reading ends, it has not begun more nodes than the bytes allow, and a count that was
overdrawn has made it fail. -/
theorem bounds (h : Paced bs free s u t) {log : List Waypoint} (ht : t = some (log, u)) :
    2 * nodes log ≤ bs.length + free ∧ ((∃ m ∈ log, m.Overdraws) → ∃ e, u = .error e) := by
  obtain ⟨log', rfl, hlog⟩ := h
  obtain rfl : log' = log := (Prod.mk.inj (Option.some.inj ht)).1
  cases u with
  | error e => exact ⟨hlog, fun _ => ⟨e, rfl⟩⟩
  | ok p =>
      refine ⟨by have := hlog.1; omega, ?_⟩
      rintro ⟨m, hm, overdrawn⟩
      exact absurd overdrawn (hlog.2 m hm)

theorem next (h : Paced bs free s u t) {k : α → Bytes → Unpacked β} {f : α → Bytes → Charted β}
    {s' : Nat} (hk : ∀ v rest, s + rest.length ≤ bs.length →
      Paced rest (free + s) (s' - s) (k v rest) (f v rest)) :
    Paced bs free s' (readThen u k) (t.next f) := by
  have used : ∀ v rest, u = .ok (v, rest) → s + rest.length ≤ bs.length := fun _ _ => h.used_le
  obtain ⟨log, rfl, hlog⟩ := h
  cases u with
  | error e => exact ⟨log, rfl, hlog⟩
  | ok p =>
      obtain ⟨v, rest⟩ := p
      obtain ⟨pace, fair⟩ := hlog
      obtain ⟨log', hf, hlog'⟩ := hk v rest (used v rest rfl)
      refine ⟨log ++ log', by simp only [Charted.next, hf, Option.map_some]; rfl, ?_⟩
      simp only [readThen]
      rw [nodes_append]
      cases hr : k v rest with
      | error e =>
          rw [hr] at hlog'
          have hlog' : 2 * nodes log' ≤ rest.length + (free + s) := hlog'
          show 2 * (nodes log + nodes log') ≤ bs.length + free
          omega
      | ok q =>
          rw [hr] at hlog'
          refine ⟨by have := hlog'.1; omega, fun m hm => ?_⟩
          rcases List.mem_append.mp hm with hm | hm
          · exact fair m hm
          · exact hlog'.2 m hm

theorem map (h : Paced bs free s u t) (f : α → β) :
    Paced bs free s (u.map fun (v, rest) => (f v, rest))
      (t.next fun v rest => .silent (.ok (f v, rest))) := by
  have made : (u.map fun (v, rest) => (f v, rest)) = readThen u fun v rest => .ok (f v, rest) := by
    cases u <;> rfl
  rw [made]
  refine h.next fun v rest _ => .silent fun w rest' hr => ?_
  obtain ⟨rfl, rfl⟩ := Prod.mk.inj (Except.ok.inj hr)
  simp

theorem count (h : Paced bs free s u t) {announced available : Nat}
    (hc : ∀ p, u = .ok p → s ≤ bs.length → announced ≤ available) :
    Paced bs free s u (.note (.count announced available) t) := by
  have used : ∀ v rest, u = .ok (v, rest) → s + rest.length ≤ bs.length := fun _ _ => h.used_le
  obtain ⟨log, rfl, hlog⟩ := h
  refine ⟨.count announced available :: log, rfl, ?_⟩
  cases u with
  | error e => exact hlog
  | ok p =>
      have spared := used p.1 p.2 rfl
      exact ⟨hlog.1, List.forall_mem_cons.mpr ⟨Nat.not_lt.mpr (hc p rfl (by omega)), hlog.2⟩⟩

theorem refused (e : ImageError) (announced available : Nat) :
    Paced bs free s (.error e : Unpacked α)
      (.note (.count announced available) (.silent (.error e))) := by
  refine (error e).count fun p h => ?_
  cases h

theorem node (h : Paced bs 0 (s + 2) u t) : Paced bs 2 s u (.note .node t) := by
  obtain ⟨log, rfl, hlog⟩ := h
  refine ⟨.node :: log, rfl, ?_⟩
  have one : nodes (.node :: log) = nodes log + 1 := List.countP_cons_of_pos rfl
  rw [one]
  cases u with
  | error e =>
      have hlog : 2 * nodes log ≤ bs.length + 0 := hlog
      show 2 * (nodes log + 1) ≤ bs.length + 2
      omega
  | ok p =>
      refine ⟨by have := hlog.1; omega, List.forall_mem_cons.mpr ⟨?_, hlog.2⟩⟩
      exact id

end Paced

end

namespace Datum

def Keeps (fuel : Nat) : Prop :=
  ∀ bs : Bytes, 2 * bs.length + 1 ≤ fuel → Paced bs 2 1 (unpackFuel fuel bs) (chartFuel fuel bs)

theorem unpackNames_paced (n : Nat) (bs : Bytes) (free : Nat) :
    Paced bs free n (unpackNames n bs) (.silent (unpackNames n bs)) :=
  .silent fun _ _ h => length_unpackNames h ▸ (unpackNames_consumes h).2

theorem unpackSeq_paced {fuel : Nat} (h : ∀ k < fuel, Keeps k) {n : Nat} {bs : Bytes}
    (hf : 2 * bs.length + 2 ≤ fuel) :
    Paced bs 2 n (unpackSeq fuel n bs) (chartSeq fuel n bs) := by
  induction n generalizing fuel bs with
  | zero =>
      rw [unpackSeq, chartSeq]
      refine .silent fun v rest hr => ?_
      obtain ⟨rfl, rfl⟩ := Prod.mk.inj (Except.ok.inj hr)
      exact (Nat.zero_add _).le
  | succ n ih =>
      cases fuel with
      | zero => omega
      | succ fuel =>
          rw [unpackSeq_succ, chartSeq]
          have below : ∀ k < fuel, Keeps k := fun k hk => h k (by omega)
          refine (h fuel (by omega) bs (by omega)).next fun d rest hr => ?_
          exact ((ih below (by omega)).map (d :: ·)).mono (by omega) (by omega)

theorem unpackArray_paced {fuel : Nat} (h : ∀ k < fuel, Keeps k) {bs : Bytes}
    (hf : 2 * bs.length + 1 ≤ fuel) :
    Paced bs 2 1 (unpackArray fuel bs) (chartArray fuel bs) := by
  cases fuel with
  | zero => omega
  | succ fuel =>
      rw [unpackArray_succ, chartArray]
      refine Paced.header.next fun n rest hr => ?_
      have seq := unpackSeq_paced (n := n) (fun k hk => h k (by omega))
        (by omega : 2 * rest.length + 2 ≤ fuel)
      exact (seq.count fun _ _ => id).mono (by omega) (by omega)

theorem unpackLambda_paced {fuel : Nat} (h : ∀ k < fuel, Keeps k) {bs : Bytes}
    (hf : 2 * bs.length + 2 ≤ fuel) :
    Paced bs 2 3 (unpackLambda fuel bs) (chartLambda fuel bs) := by
  cases fuel with
  | zero => omega
  | succ fuel =>
      rw [unpackLambda_succ, chartLambda]
      have bound := unpackArray_paced (fun k hk => h k (by omega))
        (by omega : 2 * bs.length + 1 ≤ fuel)
      refine bound.next fun bound bs hb => ?_
      refine Paced.header.next fun n bs hn => ?_
      refine .mono (s := n + 1) (.count ?_ fun _ _ _ => by omega) le_rfl (by omega)
      refine (unpackNames_paced n bs _).next fun params bs hp => ?_
      have body := h fuel (by omega) bs (by omega)
      refine .next (body.mono (by omega) (by omega : n + 1 - n ≤ 1)) fun body bs hk => ?_
      refine .silent fun v rest hr => ?_
      rw [bindLambda] at hr
      split at hr
      · cases hr
      · obtain ⟨rfl, rfl⟩ := Prod.mk.inj (Except.ok.inj hr)
        omega

theorem keeps (fuel : Nat) : Keeps fuel := by
  induction fuel using Nat.strongRecOn with
  | _ fuel ih =>
      intro bs hf
      cases fuel with
      | zero => omega
      | succ fuel =>
          have below : ∀ k < fuel, Keeps k := fun k hk => ih k (by omega)
          rw [unpackFuel_succ, chartFuel]
          refine .node (Paced.header.next fun fields rest hr => ?_)
          split
          · exact .error _
          · refine (Paced.read Pack.readInt_takes Pack.readInt_nil).next fun tag bs hbs => ?_
            cases Kind.all.find? fun k => k.tag == tag with
            | none => exact .error _
            | some k =>
                cases k with
                | quote =>
                    have inner := ih fuel (by omega) bs (by omega)
                    exact (inner.map Datum.quote).mono (by omega) (by omega)
                | list =>
                    have elements := unpackArray_paced below (by omega : 2 * bs.length + 1 ≤ fuel)
                    exact (elements.map Datum.list).mono (by omega) (by omega)
                | lambda =>
                    simp only [unpackField]
                    split
                    · have parts := unpackLambda_paced below (by omega : 2 * bs.length + 2 ≤ fuel)
                      exact (parts.count fun _ _ _ => by omega).mono (by omega) (by omega)
                    · exact .refused _ _ _
                | int => exact .field Pack.readInt_takes Pack.readInt_nil Datum.int
                | bool => exact .field Pack.readBool_takes Pack.readBool_nil Datum.bool
                | symbol =>
                    exact .field Pack.readString_takes Pack.readString_nil (Datum.symbol ⟨·⟩)
                | builtin =>
                    exact .field Pack.readString_takes Pack.readString_nil (Datum.builtin ⟨·⟩)

end Datum

theorem unpackPairs_paced (n : Nat) (bs : Bytes) :
    Paced bs 0 n (unpackPairs n bs) (chartPairs n bs) := by
  induction n generalizing bs with
  | zero =>
      rw [unpackPairs, chartPairs]
      refine .silent fun v rest hr => ?_
      obtain ⟨rfl, rfl⟩ := Prod.mk.inj (Except.ok.inj hr)
      exact (Nat.zero_add _).le
  | succ n ih =>
      rw [unpackPairs_succ, chartPairs]
      refine Paced.header.next fun fields bs hr => ?_
      split
      · exact .refused _ _ _
      · refine .mono (s := n + 2) (.count ?_ fun _ _ _ => by omega) le_rfl (by omega)
        refine (Paced.read Pack.readString_takes Pack.readString_nil).next fun name bs hname => ?_
        have value := Datum.keeps (2 * bs.length + 2) bs (by omega)
        refine .next (value.mono (by omega) le_rfl) fun d bs hd => ?_
        exact ((ih bs).map _).mono (by omega) (by omega)

theorem unpackDefinitions_paced (bs : Bytes) :
    Paced bs 0 1 (unpackDefinitions bs) (chartDefinitions bs) := by
  have read : unpackDefinitions bs =
      readThen (lift (Pack.readArrayHeader bs)) fun n bs => unpackPairs n bs := by
    rw [unpackDefinitions]
    cases lift (Pack.readArrayHeader bs) <;> rfl
  rw [read, chartDefinitions]
  refine Paced.header.next fun n bs hn => ?_
  exact ((unpackPairs_paced n bs).count fun _ _ => id).mono (by omega) (by omega)

namespace Charted

variable {α β : Type} {t t' : Charted α}

/-- What the first reading comes to, the second comes to, by the same way. -/
def Below (t t' : Charted α) : Prop :=
  ∀ r, t = some r → t' = some r

namespace Below

theorem none (t : Charted α) : Below none t := by
  intro r h
  cases h

theorem note (h : Below t t') (m : Waypoint) : Below (.note m t) (.note m t') := by
  intro r hr
  obtain ⟨p, rfl, rfl⟩ := Option.map_eq_some_iff.mp hr
  rw [h p rfl]
  rfl

theorem next (h : Below t t') {f f' : α → Bytes → Charted β}
    (hf : ∀ v rest, Below (f v rest) (f' v rest)) : Below (t.next f) (t'.next f') := by
  intro r hr
  cases t with
  | none => cases hr
  | some p =>
      obtain ⟨log, u⟩ := p
      rw [h _ rfl]
      cases u with
      | error e => exact hr
      | ok q =>
          obtain ⟨more, hm, hmap⟩ := Option.map_eq_some_iff.mp hr
          simp only [Charted.next, hf _ _ _ hm, Option.map_some, hmap]

end Below

end Charted

namespace Datum

def Steady (fuel : Nat) : Prop :=
  ∀ fuel' bs, fuel ≤ fuel' → Charted.Below (chartFuel fuel bs) (chartFuel fuel' bs)

theorem chartSeq_below {fuel fuel' : Nat} (h : ∀ k < fuel, Steady k) (hle : fuel ≤ fuel') (n : Nat)
    (bs : Bytes) : Charted.Below (chartSeq fuel n bs) (chartSeq fuel' n bs) := by
  induction n generalizing fuel fuel' bs with
  | zero =>
      rw [chartSeq, chartSeq]
      exact fun _ => id
  | succ n ih =>
      cases fuel with
      | zero => exact .none _
      | succ fuel =>
          obtain ⟨fuel', rfl⟩ : ∃ k, fuel' = k + 1 := ⟨fuel' - 1, by omega⟩
          rw [chartSeq, chartSeq]
          refine (h fuel (by omega) fuel' bs (by omega)).next fun d rest => ?_
          exact (ih (fun k hk => h k (by omega)) (by omega) rest).next fun _ _ _ => id

theorem chartArray_below {fuel fuel' : Nat} (h : ∀ k < fuel, Steady k) (hle : fuel ≤ fuel')
    (bs : Bytes) : Charted.Below (chartArray fuel bs) (chartArray fuel' bs) := by
  cases fuel with
  | zero => exact .none _
  | succ fuel =>
      obtain ⟨fuel', rfl⟩ : ∃ k, fuel' = k + 1 := ⟨fuel' - 1, by omega⟩
      rw [chartArray, chartArray]
      refine .next (fun _ => id) fun n rest => .note ?_ _
      exact chartSeq_below (fun k hk => h k (by omega)) (by omega) n rest

theorem chartLambda_below {fuel fuel' : Nat} (h : ∀ k < fuel, Steady k) (hle : fuel ≤ fuel')
    (bs : Bytes) : Charted.Below (chartLambda fuel bs) (chartLambda fuel' bs) := by
  cases fuel with
  | zero => exact .none _
  | succ fuel =>
      obtain ⟨fuel', rfl⟩ : ∃ k, fuel' = k + 1 := ⟨fuel' - 1, by omega⟩
      rw [chartLambda, chartLambda]
      refine .next (chartArray_below (fun k hk => h k (by omega)) (by omega) bs) fun bound bs => ?_
      refine .next (fun _ => id) fun n bs => .note (.next (fun _ => id) fun params bs => ?_) _
      exact (h fuel (by omega) fuel' bs (by omega)).next fun _ _ _ => id

theorem steady (fuel : Nat) : Steady fuel := by
  induction fuel using Nat.strongRecOn with
  | _ fuel ih =>
      intro fuel' bs hle
      cases fuel with
      | zero => exact .none _
      | succ fuel =>
          obtain ⟨fuel', rfl⟩ : ∃ k, fuel' = k + 1 := ⟨fuel' - 1, by omega⟩
          have below : ∀ k < fuel, Steady k := fun k hk => ih k (by omega)
          rw [chartFuel, chartFuel]
          refine .note (.next (fun _ => id) fun fields rest => ?_) _
          split
          · exact fun _ => id
          · refine .next (fun _ => id) fun tag bs => ?_
            cases Kind.all.find? fun k => k.tag == tag with
            | none => exact fun _ => id
            | some k =>
                cases k with
                | quote => exact (ih fuel (by omega) fuel' bs (by omega)).next fun _ _ _ => id
                | list => exact (chartArray_below below (by omega) bs).next fun _ _ _ => id
                | lambda =>
                    refine .note ?_ _
                    split
                    · exact chartLambda_below below (by omega) bs
                    · exact fun _ => id
                | int | bool | symbol | builtin => exact fun _ => id

/-- However much more fuel there is than two layers for each byte, reading comes to the same end by
the same way. -/
theorem exists_log (bs : Bytes) : ∃ log : List Waypoint,
    ∀ fuel, 2 * bs.length < fuel →
      chartFuel fuel bs = some (log, unpack bs) ∧ unpackFuel fuel bs = unpack bs := by
  obtain ⟨log, least, _⟩ := keeps (2 * bs.length + 1) bs le_rfl
  have all : ∀ fuel, 2 * bs.length < fuel →
      chartFuel fuel bs = some (log, unpackFuel (2 * bs.length + 1) bs) ∧
        unpackFuel fuel bs = unpackFuel (2 * bs.length + 1) bs := by
    intro fuel hf
    have same := steady _ fuel bs hf _ least
    obtain ⟨log', charted, _⟩ := keeps fuel bs hf
    rw [same] at charted
    exact ⟨same, (Prod.mk.inj (Option.some.inj charted)).2.symm⟩
  have unpacked : unpack bs = unpackFuel (2 * bs.length + 1) bs := (all _ (by omega)).2
  rw [unpacked]
  exact ⟨log, all⟩

end Datum

/-- Reading makes progress. What is left is a proper end of the bytes; elements, parameters and
definitions that have been read have a byte each. However much fuel there is beyond two layers for
each byte, reading comes to the same end, by a way that begins at most one node for each byte,
whatever is announced on it, and that ends in a failure if more elements, parameters, definitions or
fields of a procedure or of a definition are announced than bytes follow. Only the number of fields
of another node has no effect, if there are two or more. -/
theorem reading_progresses (bs : Bytes) :
    (∀ d rest, Datum.unpack bs = .ok (d, rest) → rest <:+ bs ∧ rest.length < bs.length) ∧
    (∀ fuel ds rest, Datum.unpackArray fuel bs = .ok (ds, rest) →
      rest <:+ bs ∧ ds.length + rest.length < bs.length) ∧
    (∀ fuel d rest, Datum.unpackLambda fuel bs = .ok (d, rest) → ∃ bound params body,
      d = .lambda bound params body ∧ rest <:+ bs ∧
        bound.length + params.length + rest.length < bs.length) ∧
    (∀ defs rest, unpackDefinitions bs = .ok (defs, rest) →
      rest <:+ bs ∧ defs.length + rest.length < bs.length) ∧
    (∃ log : List Waypoint,
      (∀ fuel, 2 * bs.length < fuel → Datum.chartFuel fuel bs = some (log, Datum.unpack bs) ∧
        Datum.unpackFuel fuel bs = Datum.unpack bs) ∧
      nodes log ≤ max 1 bs.length ∧
      ((∃ m ∈ log, m.Overdraws) → ∃ e, Datum.unpack bs = .error e)) ∧
    (∃ log, chartDefinitions bs = some (log, unpackDefinitions bs) ∧ nodes log ≤ bs.length ∧
      ((∃ m ∈ log, m.Overdraws) → ∃ e, unpackDefinitions bs = .error e)) ∧
    ∀ fuel fields fields' k head head', Datum.Head fields k head → Datum.Head fields' k head' →
      2 ≤ fields → 2 ≤ fields' → k ≠ .lambda →
        Datum.unpackFuel (fuel + 1) (head ++ bs) = Datum.unpackFuel (fuel + 1) (head' ++ bs) := by
  refine ⟨fun d rest h => Datum.unpackFuel_consumes h, fun fuel ds rest h =>
    Datum.unpackArray_consumes h, fun fuel d rest h => Datum.unpackLambda_consumes h,
    fun defs rest h => unpackDefinitions_consumes h, ?_, ?_, ?_⟩
  · obtain ⟨log, all⟩ := Datum.exists_log bs
    have paced := Datum.keeps _ bs (le_refl (2 * bs.length + 1))
    obtain ⟨charted, read⟩ := all (2 * bs.length + 1) (by omega)
    rw [read] at paced
    obtain ⟨few, fair⟩ := paced.bounds charted
    exact ⟨log, all, by omega, fair⟩
  · have paced := unpackDefinitions_paced bs
    obtain ⟨log, charted, _⟩ := id paced
    obtain ⟨few, fair⟩ := paced.bounds charted
    exact ⟨log, charted, by omega, fair⟩
  · intro fuel fields fields' k head head' hh hh' hf hf' hk
    rw [Datum.unpackFuel_head hh hf, Datum.unpackFuel_head hh' hf']
    cases k with
    | lambda => exact absurd rfl hk
    | int | bool | symbol | builtin | quote | list => rfl

set_option maxRecDepth 1000 in
/-- A node that announces more fields than there are bytes is read, alone and in a definition. -/
theorem fields_announced_in_vain :
    let bs : Bytes := [0xDD, 0xFF, 0xFF, 0xFF, 0xFF, 0x00, 0x01]
    Pack.readArrayHeader bs = .ok (2 ^ 32 - 1, [0x00, 0x01]) ∧
      Datum.unpack bs = .ok (.int 1, []) ∧
      unpackDefinitions ([0x91, 0x92, 0xA1, 0x61] ++ bs) = .ok ([(⟨[0x61]⟩, .int 1)], []) :=
  ⟨by decide +kernel, rfl, rfl⟩

end CellScheme
