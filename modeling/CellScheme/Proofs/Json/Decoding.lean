import CellScheme.Proofs.Json.RoundTrip

/-!
What decoding a JSON value keeps of it. The value of the decoded expression is the value that was
decoded, unless it has a procedure object with a member that the decoder does not look at: one with
a key of its own, or parameters or bound arguments that are no array.
-/

namespace CellScheme.Datum

open Json (Value)

/-- No number in the value is a real one. -/
inductive Integral : Value → Prop where
  | null : Integral .null
  | bool (b : Bool) : Integral (.bool b)
  | int (v : Int64) : Integral (.int v)
  | string (s : Bytes) : Integral (.string s)
  | array {vs : List Value} : (∀ v ∈ vs, Integral v) → Integral (.array vs)
  | object {ms : List (Bytes × Value)} : (∀ m ∈ ms, Integral m.2) → Integral (.object ms)

/-- The two values are the same, with the members of an object in any order. What a procedure object
has under its tag (`procedure`) may lack members of the second value, namely empty parameters and
empty bound arguments. -/
inductive Agrees : Bool → Value → Value → Prop where
  | null {procedure : Bool} : Agrees procedure .null .null
  | bool {procedure : Bool} (b : Bool) : Agrees procedure (.bool b) (.bool b)
  | int {procedure : Bool} (v : Int64) : Agrees procedure (.int v) (.int v)
  | real {procedure : Bool} (x : Number.Binary64) : Agrees procedure (.real x) (.real x)
  | string {procedure : Bool} (s : Bytes) : Agrees procedure (.string s) (.string s)
  | array {procedure : Bool} {vs ws : List Value} :
      List.Forall₂ (Agrees false) vs ws → Agrees procedure (.array vs) (.array ws)
  | object {procedure : Bool} {ms ns : List (Bytes × Value)} :
      (∀ key v, Value.lookup? key ms = some v → (Value.lookup? key ns).isSome) →
      (∀ key v w, Value.lookup? key ms = some v → Value.lookup? key ns = some w →
        Agrees (key == Tag.lambda) v w) →
      (∀ key w, Value.lookup? key ns = some w → Value.lookup? key ms = none →
        procedure = true ∧ (key = Tag.params ∨ key = Tag.bound) ∧ w = .array []) →
        Agrees procedure (.object ms) (.object ns)

/-- A member that the decoder of procedures does not look at: its key is none of the three, or it is
no array where an array should be. -/
def Overlooked (key : Bytes) (v : Value) : Prop :=
  key ∉ [Tag.body, Tag.bound, Tag.params] ∨ key ∈ [Tag.bound, Tag.params] ∧ v.shape ≠ .array

instance (key : Bytes) (v : Value) : Decidable (Overlooked key v) :=
  inferInstanceAs (Decidable (_ ∨ _ ∧ _))

/-- Somewhere in the value is a procedure object with a member that is overlooked. -/
inductive Discards : Value → Prop where
  | element {vs : List Value} {v : Value} : v ∈ vs → Discards v → Discards (.array vs)
  | quote {v : Value} : Discards v → Discards (.object [(Tag.quote, v)])
  | inside {ms : List (Bytes × Value)} {key : Bytes} {v : Value} : key ∈ [Tag.body, Tag.bound] →
      Value.lookup? key ms = some v → Discards v → Discards (.object [(Tag.lambda, .object ms)])
  | member {ms : List (Bytes × Value)} {key : Bytes} {v : Value} :
      Value.lookup? key ms = some v → Overlooked key v →
        Discards (.object [(Tag.lambda, .object ms)])

theorem agrees_array_iff {procedure : Bool} {vs ws : List Value} :
    Agrees procedure (.array vs) (.array ws) ↔ List.Forall₂ (Agrees false) vs ws := by
  refine ⟨fun h => ?_, .array⟩
  cases h with
  | array h => exact h

theorem discards_array_iff {vs : List Value} :
    Discards (.array vs) ↔ ∃ v ∈ vs, Discards v := by
  constructor
  · intro h
    cases h with
    | element hv hd => exact ⟨_, hv, hd⟩
  · rintro ⟨v, hv, hd⟩
    exact .element hv hd

theorem agrees_tagged_iff {procedure : Bool} {tag : Bytes} {v w : Value} :
    Agrees procedure (.object [(tag, v)]) (.object [(tag, w)]) ↔
      Agrees (tag == Tag.lambda) v w := by
  have hv : Value.lookup? tag [(tag, v)] = some v := by simp [lookup?_cons]
  have hw : Value.lookup? tag [(tag, w)] = some w := by simp [lookup?_cons]
  constructor
  · intro h
    cases h with
    | object _ hvalues _ => exact hvalues tag v w hv hw
  · intro h
    refine .object (fun key x hx => ?_) (fun key x y hx hy => ?_) fun key y hy hx => ?_
    all_goals simp only [lookup?_cons] at *
    all_goals split at hx <;> simp_all [Value.lookup?]

theorem Discards.tagged {tag : Bytes} {v : Value} (h : Discards (.object [(tag, v)])) :
    tag = Tag.quote ∧ Discards v ∨
      tag = Tag.lambda ∧ ∃ ms key x, v = .object ms ∧ Value.lookup? key ms = some x ∧
        (Overlooked key x ∨ key ∈ [Tag.body, Tag.bound] ∧ Discards x) := by
  generalize hobject : Value.object [(tag, v)] = o at h
  cases h with
  | element _ _ => cases hobject
  | quote hv =>
      simp only [Value.object.injEq, List.cons.injEq, Prod.mk.injEq, and_true] at hobject
      exact .inl ⟨hobject.1, hobject.2 ▸ hv⟩
  | inside hkey hx hd =>
      simp only [Value.object.injEq, List.cons.injEq, Prod.mk.injEq, and_true] at hobject
      exact .inr ⟨hobject.1, _, _, _, hobject.2, hx, .inr ⟨hkey, hd⟩⟩
  | member hx ho =>
      simp only [Value.object.injEq, List.cons.injEq, Prod.mk.injEq, and_true] at hobject
      exact .inr ⟨hobject.1, _, _, _, hobject.2, hx, .inl ho⟩

theorem discards_quote_iff {v : Value} : Discards (.object [(Tag.quote, v)]) ↔ Discards v := by
  refine ⟨fun h => ?_, .quote⟩
  rcases h.tagged with ⟨_, hv⟩ | ⟨htag, _⟩
  · exact hv
  · exact absurd htag (by decide)

theorem discards_lambda_iff {ms : List (Bytes × Value)} :
    Discards (.object [(Tag.lambda, .object ms)]) ↔ ∃ key v, Value.lookup? key ms = some v ∧
      (Overlooked key v ∨ key ∈ [Tag.body, Tag.bound] ∧ Discards v) := by
  constructor
  · intro h
    rcases h.tagged with ⟨htag, _⟩ | ⟨_, ns, key, v, hns, hv⟩
    · exact absurd htag (by decide)
    · cases hns
      exact ⟨key, v, hv⟩
  · rintro ⟨key, v, hv, ho | ⟨hkey, hd⟩⟩
    · exact .member hv ho
    · exact .inside hkey hv hd

theorem not_discards_name {tag : Bytes} (htag : tag = Tag.symbol ∨ tag = Tag.builtin)
    (v : Value) : ¬ Discards (.object [(tag, v)]) := by
  intro h
  rcases h.tagged with ⟨hquote, _⟩ | ⟨hlambda, _⟩
  · rcases htag with rfl | rfl <;> exact absurd hquote (by decide)
  · rcases htag with rfl | rfl <;> exact absurd hlambda (by decide)

/-- The decoded value is given back exactly if nothing of it is discarded. -/
def Exact (v : Value) : Prop :=
  ∀ ⦃depth d⦄, ofJsonAt depth v = .ok d → (Agrees false v d.toJson ↔ ¬ Discards v)

theorem exact_seq {vs : List Value} (h : ∀ v ∈ vs, Exact v) {depth : Nat} {ds : List Datum}
    (hds : ofJsonSeq depth vs = .ok ds) :
    List.Forall₂ (Agrees false) vs (seqToJson ds) ↔ ∀ v ∈ vs, ¬ Discards v := by
  induction vs generalizing ds with
  | nil =>
      cases hds
      simp [seqToJson]
  | cons v vs ih =>
      rw [List.forall_mem_cons] at h
      rw [ofJsonSeq] at hds
      split at hds
      · cases hds
      · rename_i d hd
        obtain ⟨rest, hrest, rfl⟩ := eq_ok_of_map hds
        rw [seqToJson, List.forall₂_cons, List.forall_mem_cons, h.1 hd, ih h.2 hrest]

/-- What a procedure object has under its tag. -/
def procedureMembers (bound : List Datum) (params : List Name) (body : Datum) :
    List (Bytes × Value) :=
  [(Tag.body, body.toJson), (Tag.bound, .array (seqToJson bound)),
    (Tag.params, .array (params.map fun p => .string p.bytes))]

theorem exact_array {vs : List Value} (h : ∀ v ∈ vs, Exact v) : Exact (.array vs) := by
  intro depth d hd
  rw [ofJsonAt] at hd
  obtain ⟨ds, hds, rfl⟩ := eq_ok_of_map hd
  rw [toJson, agrees_array_iff, exact_seq h hds, discards_array_iff]
  simp only [not_exists, not_and]

section Procedure

variable {ms : List (Bytes × Value)} {depth : Nat} {params : List Name} {body : Datum}
  {bound : List Datum} {key : Bytes} {v : Value}

theorem lookup?_of_notMem (h : key ∉ [Tag.body, Tag.bound, Tag.params]) :
    Value.lookup? key (procedureMembers bound params body) = none := by
  simp only [List.mem_cons, List.not_mem_nil, or_false, not_or] at h
  simp [procedureMembers, Value.lookup?, Ne.symm h.1, Ne.symm h.2.1, Ne.symm h.2.2]

theorem shape_of_agrees {procedure : Bool} {ws : List Value} (h : Agrees procedure v (.array ws)) :
    v.shape = .array := by
  cases h
  rfl

theorem eq_array_of_shape (h : v.shape = .array) : ∃ vs, v = .array vs := by
  cases v with
  | array vs => exact ⟨vs, rfl⟩
  | null | bool _ | int _ | real _ | string _ | object _ => cases h

theorem exact_bodyMember (h : Exact v) (hbody : ofBody depth ms = .ok body)
    (hv : Value.lookup? Tag.body ms = some v) : Agrees false v body.toJson ↔ ¬ Discards v := by
  rw [ofBody_eq, hv] at hbody
  exact h hbody

theorem exact_boundMember (h : Exact v) (hbound : ofBound (depth + 1) ms = .ok bound)
    (hv : Value.lookup? Tag.bound ms = some v) :
    Agrees false v (.array (seqToJson bound)) ↔ v.shape = .array ∧ ¬ Discards v := by
  by_cases hshape : v.shape = .array
  · obtain ⟨vs, rfl⟩ := eq_array_of_shape hshape
    rw [ofBound_eq, arrayMember, hv] at hbound
    have hd : ofJsonAt depth (.array vs) = .ok (.list bound) := by
      rw [ofJsonAt, hbound]
      rfl
    rw [← toJson, h hd]
    exact ⟨fun hn => ⟨hshape, hn⟩, And.right⟩
  · exact ⟨fun ha => absurd (shape_of_agrees ha) hshape, fun ha => absurd ha.1 hshape⟩

theorem exact_paramsMember (hparams : jsonParams (arrayMember Tag.params ms) = .ok params)
    (hv : Value.lookup? Tag.params ms = some v) :
    Agrees false v (.array (params.map fun p => .string p.bytes)) ↔ v.shape = .array := by
  refine ⟨shape_of_agrees, fun hshape => ?_⟩
  obtain ⟨vs, rfl⟩ := eq_array_of_shape hshape
  simp only [arrayMember, hv] at hparams
  rw [jsonParams_eq_ok hparams, agrees_array_iff, List.forall₂_same]
  intro x hx
  obtain ⟨p, _, rfl⟩ := List.mem_map.mp hx
  exact .string p.bytes

/-- A member is written again as it was read, if it was not overlooked. -/
theorem exact_member (h : ∀ m ∈ ms, Exact m.2)
    (hparams : jsonParams (arrayMember Tag.params ms) = .ok params)
    (hbody : ofBody (depth + 1) ms = .ok body) (hbound : ofBound (depth + 1) ms = .ok bound)
    (hv : Value.lookup? key ms = some v) :
    (∃ w, Value.lookup? key (procedureMembers bound params body) = some w ∧
      Agrees (key == Tag.lambda) v w) ↔
    ¬ (Overlooked key v ∨ key ∈ [Tag.body, Tag.bound] ∧ Discards v) := by
  have hexact : Exact v := h _ (mem_of_lookup? hv)
  have written {w : Value} (hw : Value.lookup? key (procedureMembers bound params body) = some w)
      (hkey : (key == Tag.lambda) = false) :
      (∃ w, Value.lookup? key (procedureMembers bound params body) = some w ∧
        Agrees (key == Tag.lambda) v w) ↔ Agrees false v w := by
    simp [hw, hkey]
  by_cases hmem : key ∈ [Tag.body, Tag.bound, Tag.params]
  · simp only [List.mem_cons, List.not_mem_nil, or_false] at hmem
    rcases hmem with rfl | rfl | rfl
    · rw [written rfl (by decide), exact_bodyMember hexact hbody hv]
      have hbody : Tag.body ∉ [Tag.bound, Tag.params] := by decide
      simp [Overlooked, hbody]
    · rw [written rfl (by decide), exact_boundMember hexact hbound hv]
      simp [Overlooked]
    · rw [written rfl (by decide), exact_paramsMember hparams hv]
      have hparams : Tag.params ∉ [Tag.body, Tag.bound] := by decide
      simp [Overlooked, hparams]
  · rw [lookup?_of_notMem hmem]
    simp [Overlooked, hmem]

theorem empty_of_absent (hparams : jsonParams (arrayMember Tag.params ms) = .ok params)
    (hbody : ofBody (depth + 1) ms = .ok body) (hbound : ofBound (depth + 1) ms = .ok bound)
    (hkey : Value.lookup? key ms = none)
    (hv : Value.lookup? key (procedureMembers bound params body) = some v) :
    (key = Tag.params ∨ key = Tag.bound) ∧ v = .array [] := by
  by_cases hmem : key ∈ [Tag.body, Tag.bound, Tag.params]
  · simp only [List.mem_cons, List.not_mem_nil, or_false] at hmem
    rcases hmem with rfl | rfl | rfl
    · rw [ofBody_eq, hkey] at hbody
      cases hbody
    · rw [ofBound_eq, arrayMember, hkey] at hbound
      cases hbound
      exact ⟨.inr rfl, (Option.some.inj hv).symm⟩
    · rw [arrayMember, hkey] at hparams
      cases hparams
      exact ⟨.inl rfl, (Option.some.inj hv).symm⟩
  · rw [lookup?_of_notMem hmem] at hv
    cases hv

theorem exact_lambda (h : ∀ m ∈ ms, Exact m.2) : Exact (.object [(Tag.lambda, .object ms)]) := by
  intro depth d hd
  rw [ofJsonAt_lambda] at hd
  obtain ⟨params, body, bound, hparams, hbody, hbound, _, rfl⟩ := assemble_eq_ok hd
  have hobject : Agrees true (.object ms) (.object (procedureMembers bound params body)) ↔
      ∀ key v, Value.lookup? key ms = some v →
        ∃ w, Value.lookup? key (procedureMembers bound params body) = some w ∧
          Agrees (key == Tag.lambda) v w := by
    constructor
    · intro ha key v hv
      cases ha with
      | object hkeys hvalues _ =>
          obtain ⟨w, hw⟩ := Option.isSome_iff_exists.mp (hkeys key v hv)
          exact ⟨w, hw, hvalues key v w hv hw⟩
    · intro ha
      refine .object (fun key v hv => ?_) (fun key v w hv hw => ?_) fun key w hw hkey => ?_
      · obtain ⟨w, hw, _⟩ := ha key v hv
        exact Option.isSome_iff_exists.mpr ⟨w, hw⟩
      · obtain ⟨w', hw', hagrees⟩ := ha key v hv
        rw [hw] at hw'
        obtain rfl := Option.some.inj hw'
        exact hagrees
      · exact ⟨rfl, empty_of_absent hparams hbody hbound hkey hw⟩
  have hjson : (Datum.lambda bound params body).toJson =
    .object [(Tag.lambda, .object (procedureMembers bound params body))] := rfl
  rw [hjson, agrees_tagged_iff, beq_self_eq_true, hobject, discards_lambda_iff]
  simp only [not_exists, not_and]
  refine forall₃_congr fun key v hv => ?_
  rw [exact_member h hparams hbody hbound hv]

end Procedure

theorem exact_quote {v : Value} (h : Exact v) : Exact (.object [(Tag.quote, v)]) := by
  intro depth d hd
  rw [ofJsonAt_quote] at hd
  obtain ⟨e, he, rfl⟩ := eq_ok_of_map hd
  rw [toJson, agrees_tagged_iff, (by decide : (Tag.quote == Tag.lambda) = false), h he,
    discards_quote_iff]

theorem exact_name {tag name : Bytes} (htag : tag = Tag.symbol ∨ tag = Tag.builtin) :
    Agrees false (.object [(tag, .string name)]) (.object [(tag, .string name)]) ↔
      ¬ Discards (.object [(tag, .string name)]) :=
  iff_of_true (agrees_tagged_iff.mpr (.string name)) (not_discards_name htag _)

theorem exact_object {ms : List (Bytes × Value)}
    (h : ∀ m ∈ ms, Exact m.2 ∧ ∀ ns, m.2 = .object ns → ∀ n ∈ ns, Exact n.2) :
    Exact (.object ms) := by
  intro depth d hd
  match ms with
  | [] => cases hd
  | _ :: _ :: _ => cases hd
  | [(tag, v)] =>
      obtain ⟨hv, hinner⟩ := h (tag, v) (by simp)
      have hread := hd
      rw [ofJsonAt, ofMembers, ofTagged_eq] at hd
      split at hd
      · rename_i htag
        split at hd
        · cases hd
          exact htag ▸ exact_name (.inl rfl)
        · cases hd
      · split at hd
        · rename_i htag
          split at hd
          · cases hd
            exact htag ▸ exact_name (.inr rfl)
          · cases hd
        · split at hd
          · rename_i htag
            subst htag
            exact exact_quote hv hread
          · split at hd
            · rename_i htag
              subst htag
              split at hd
              · exact exact_lambda (hinner _ rfl) hread
              · cases hd
            · cases hd

/-- Without real numbers, decoding is exact. Members of a procedure object are decoded although
their object is none, so that the induction speaks of the members of objects too. -/
theorem Integral.exact {v : Value} (h : Integral v) : Exact v := by
  have both : Exact v ∧ ∀ ms, v = .object ms → ∀ m ∈ ms, Exact m.2 := by
    induction h with
    | null | string _ => exact ⟨fun _ _ hd => (nomatch hd), nofun⟩
    | bool b =>
        refine ⟨fun depth d hd => ?_, nofun⟩
        cases hd
        exact iff_of_true (.bool b) nofun
    | int v =>
        refine ⟨fun depth d hd => ?_, nofun⟩
        cases hd
        exact iff_of_true (.int v) nofun
    | array _ ih => exact ⟨exact_array fun v hv => (ih v hv).1, nofun⟩
    | object _ ih =>
        refine ⟨exact_object ih, ?_⟩
        rintro _ ⟨⟩ m hm
        exact (ih m hm).1
  exact both.1

/-- A JSON value without real numbers that is decoded is the value of the decoded expression, but
for empty parameters and bound arguments that it left out, exactly if no procedure object in it has
a member that is overlooked. -/
theorem toJson_ofJson_iff {v : Value} (hv : Integral v) {d : Datum} (hd : ofJson v = .ok d) :
    Agrees false v d.toJson ↔ ¬ Discards v := by
  rw [ofJson] at hd
  cases h : ofJsonAt 0 v with
  | error e => simp [h, Except.mapError] at hd
  | ok e =>
      rw [h] at hd
      obtain rfl := Except.ok.inj hd
      exact hv.exact h

/-- A procedure object that leaves out the bound arguments and has its members in another order. -/
theorem toJson_ofJson_iff_unordered :
    let v : Value := .object [(Tag.lambda, .object [(Tag.params, .array [.string [0x78]]),
      (Tag.body, .array
        [.object [(Tag.quote, .object [(Tag.symbol, .string [0x79])])], .bool true])])]
    let d : Datum := .lambda [] [⟨[0x78]⟩] (.list [.quote (.symbol ⟨[0x79]⟩), .bool true])
    Integral v ∧ ofJson v = .ok d ∧ Agrees false v d.toJson := by
  intro v d
  have hname (tag name : Bytes) : Integral (.object [(tag, .string name)]) :=
    .object (List.forall_mem_singleton.mpr (.string name))
  have hbody : Integral (.array [.object [(Tag.quote, .object [(Tag.symbol, .string [0x79])])],
      .bool true]) := by
    refine .array (List.forall_mem_cons.mpr ⟨?_, List.forall_mem_singleton.mpr (.bool true)⟩)
    exact .object (List.forall_mem_singleton.mpr (hname _ _))
  have hv : Integral v := by
    refine .object (List.forall_mem_singleton.mpr (.object (List.forall_mem_cons.mpr ⟨?_, ?_⟩)))
    · exact .array (List.forall_mem_singleton.mpr (.string _))
    · exact List.forall_mem_singleton.mpr hbody
  have hd : ofJson v = .ok d := rfl
  refine ⟨hv, hd, (toJson_ofJson_iff hv hd).mpr fun h => ?_⟩
  obtain ⟨key, x, hx, h⟩ := discards_lambda_iff.mp h
  rw [lookup?_cons, lookup?_cons] at hx
  split at hx
  · rename_i hkey
    cases hx
    subst hkey
    rcases h with ho | ⟨hmem, _⟩
    · exact absurd ho (by decide)
    · exact absurd hmem (by decide)
  · split at hx
    · rename_i hkey
      cases hx
      subst hkey
      rcases h with ho | ⟨_, hdiscards⟩
      · exact absurd ho (by decide)
      · obtain ⟨e, he, hdiscards⟩ := discards_array_iff.mp hdiscards
        rcases List.mem_cons.mp he with rfl | he
        · exact not_discards_name (.inl rfl) _ (discards_quote_iff.mp hdiscards)
        · rw [List.mem_singleton.mp he] at hdiscards
          exact nomatch hdiscards
    · cases hx

/-- Parameters that are no array and a member with a key of its own: the value is decoded, and the
expression does not have them. -/
theorem decoding_discards_members :
    let v : Value := .object [(Tag.lambda, .object [(Tag.params, .int 7), (Tag.body, .int 1),
      (Text.utf8 "name", .string (Text.utf8 "f"))])]
    let d : Datum := .lambda [] [] (.int 1)
    ofJson v = .ok d ∧ ¬ Agrees false v d.toJson := by
  intro v d
  refine ⟨rfl, fun h => ?_⟩
  cases agrees_tagged_iff.mp h with
  | object _ hvalues _ =>
      exact nomatch hvalues Tag.params (.int 7) (.array []) rfl rfl

end CellScheme.Datum
