import CellScheme.Datum.Json
import CellScheme.Proofs.Image.Definitions
import CellScheme.Proofs.Json.Text

/-!
Expressions are read back from their JSON text as they were written, if their names are text and no
procedure in them has more bound arguments than parameters. No JSON value is read as an expression
with a procedure of the other kind.
-/

namespace CellScheme.Datum

open Json (Value)

/-- No procedure in the tree has more bound arguments than parameters, and every name is a text. -/
inductive Portable : Datum → Prop where
  | int (v : Int64) : Portable (.int v)
  | bool (b : Bool) : Portable (.bool b)
  | symbol (s : String) : Portable (.symbol (Name.ofString s))
  | builtin (s : String) : Portable (.builtin (Name.ofString s))
  | quote {d : Datum} : Portable d → Portable (.quote d)
  | list {ds : List Datum} : (∀ d ∈ ds, Portable d) → Portable (.list ds)
  | lambda {bound : List Datum} (params : List String) {body : Datum} :
      bound.length ≤ params.length → (∀ d ∈ bound, Portable d) → Portable body →
        Portable (.lambda bound (params.map Name.ofString) body)

theorem Portable.bounded {d : Datum} (h : d.Portable) : d.Bounded := by
  induction h with
  | int v => exact .int v
  | bool b => exact .bool b
  | symbol s => exact .symbol _
  | builtin s => exact .builtin _
  | quote _ ih => exact .quote ih
  | list _ ih => exact .list ih
  | lambda params hlen _ _ ihb ihk => exact .lambda (by simpa using hlen) ihb ihk

theorem seqToJson_eq_map (ds : List Datum) : seqToJson ds = ds.map toJson := by
  induction ds with
  | nil => rfl
  | cons d ds ih => rw [seqToJson, ih, List.map_cons]

theorem mem_seqToJson {ds : List Datum} {v : Value} (h : v ∈ seqToJson ds) :
    ∃ d ∈ ds, v = d.toJson := by
  rw [seqToJson_eq_map] at h
  obtain ⟨d, hd, rfl⟩ := List.mem_map.mp h
  exact ⟨d, hd, rfl⟩

theorem plain_tagged (tag : String) {v : Value} (h : v.Plain) :
    (Value.object [(Text.utf8 tag, v)]).Plain := by
  refine .object (fun m hm => ?_) (fun m hm => ?_) (by simp)
  · obtain rfl := List.mem_singleton.mp hm
    exact ⟨tag, rfl⟩
  · obtain rfl := List.mem_singleton.mp hm
    exact h

theorem Portable.plain_toJson {d : Datum} (h : d.Portable) : d.toJson.Plain := by
  induction h with
  | int v => exact .int v
  | bool b => exact .bool b
  | symbol s => exact plain_tagged "symbol" (.string s)
  | builtin s => exact plain_tagged "builtin" (.string s)
  | quote _ ih => exact plain_tagged "quote" ih
  | list _ ih =>
      refine .array fun v hv => ?_
      obtain ⟨d, hd, rfl⟩ := mem_seqToJson hv
      exact ih d hd
  | lambda params _ _ _ ihb ihk =>
      have hbound : (Value.array (seqToJson _)).Plain := .array fun v hv => by
        obtain ⟨d, hd, rfl⟩ := mem_seqToJson hv
        exact ihb d hd
      have hparams :
          (Value.array ((params.map Name.ofString).map fun p => .string p.bytes)).Plain :=
        .array fun v hv => by
          obtain ⟨p, hp, rfl⟩ := List.mem_map.mp hv
          obtain ⟨s, _, rfl⟩ := List.mem_map.mp hp
          exact .string s
      refine plain_tagged "lambda" (.object (fun m hm => ?_) (fun m hm => ?_) ?_)
      · rcases List.mem_cons.mp hm with rfl | hm
        · exact ⟨"body", rfl⟩
        · rcases List.mem_cons.mp hm with rfl | hm
          · exact ⟨"bound", rfl⟩
          · exact ⟨"params", by rw [List.mem_singleton.mp hm]; rfl⟩
      · rcases List.mem_cons.mp hm with rfl | hm
        · exact ihk
        · rcases List.mem_cons.mp hm with rfl | hm
          · exact hbound
          · rw [List.mem_singleton.mp hm]
            exact hparams
      · change [Tag.body, Tag.bound, Tag.params].Nodup
        decide

theorem ofJsonSeq_seqToJson {ds : List Datum} {depth : Nat}
    (h : ∀ d ∈ ds, ofJsonAt depth d.toJson = .ok d) : ofJsonSeq depth (seqToJson ds) = .ok ds := by
  induction ds with
  | nil => rfl
  | cons d ds ih =>
      rw [seqToJson, ofJsonSeq, h d (by simp), ih fun e he => h e (by simp [he])]
      rfl

theorem jsonParams_strings (params : List Name) :
    jsonParams (params.map fun p => .string p.bytes) = .ok params := by
  induction params with
  | nil => rfl
  | cons p params ih =>
      rw [List.map_cons, jsonParams, ih]
      rfl

theorem Bounded.ofJsonAt_toJson {d : Datum} (h : d.Bounded) (depth : Nat) :
    ofJsonAt depth d.toJson = .ok d := by
  induction h generalizing depth with
  | int v | bool b | symbol name | builtin name => rfl
  | @quote d _ ih =>
      change (ofJsonAt (depth + 1) d.toJson).map Datum.quote = _
      rw [ih]
      rfl
  | @list ds _ ih =>
      rw [toJson, ofJsonAt, ofJsonSeq_seqToJson fun d hd => ih d hd (depth + 1)]
      rfl
  | @lambda bound params body hlen _ _ ihb ihk =>
      change assemble (jsonParams (params.map fun p => .string p.bytes))
        (ofJsonAt (depth + 1) body.toJson) (ofJsonSeq (depth + 1) (seqToJson bound)) = _
      rw [jsonParams_strings, ihk, ofJsonSeq_seqToJson fun d hd => ihb d hd (depth + 1)]
      exact if_neg (Nat.not_lt.mpr hlen)

theorem Bounded.ofJson_toJson {d : Datum} (h : d.Bounded) : ofJson d.toJson = .ok d := by
  rw [ofJson, h.ofJsonAt_toJson]
  rfl

theorem assemble_eq_ok {params : Except ParseFailure (List Name)}
    {body : Except ParseFailure Datum} {bound : Except ParseFailure (List Datum)} {d : Datum}
    (h : assemble params body bound = .ok d) :
    ∃ ps b bs, params = .ok ps ∧ body = .ok b ∧ bound = .ok bs ∧ bs.length ≤ ps.length ∧
      d = .lambda bs ps b := by
  cases params with
  | error e => cases h
  | ok ps =>
      cases body with
      | error e => cases h
      | ok b =>
          cases bound with
          | error e => cases h
          | ok bs =>
              simp only [assemble] at h
              split at h
              · cases h
              · rename_i hlen
                obtain rfl := Except.ok.inj h
                exact ⟨ps, b, bs, rfl, rfl, rfl, Nat.not_lt.mp hlen, rfl⟩

theorem ofTagged_eq (depth : Nat) (tag : Bytes) (v : Value) :
    ofTagged depth (tag, v) =
      if tag = Tag.symbol then
        match v with
        | .string name => .ok (.symbol ⟨name⟩)
        | v => .error (.jsonNameShape ⟨tag⟩ v.shape)
      else if tag = Tag.builtin then
        match v with
        | .string name => .ok (.builtin ⟨name⟩)
        | v => .error (.jsonNameShape ⟨tag⟩ v.shape)
      else if tag = Tag.quote then (ofJsonAt (depth + 1) v).map .quote
      else if tag = Tag.lambda then
        match v with
        | .object ms => assemble (jsonParams (arrayMember Tag.params ms)) (ofBody (depth + 1) ms)
            (ofBound (depth + 1) ms)
        | v => .error (.jsonLambdaShape v.shape)
      else .error (.jsonUnknownTag ⟨tag⟩) := by
  cases v <;> rfl

theorem ofBound_cons (depth : Nat) (key : Bytes) (v : Value) (ms : List (Bytes × Value)) :
    ofBound depth ((key, v) :: ms) =
      if key = Tag.bound then
        match v with
        | .array vs => ofJsonSeq depth vs
        | _ => .ok []
      else ofBound depth ms := by
  cases v <;> rfl

theorem ofJsonAt_quote (depth : Nat) (v : Value) :
    ofJsonAt depth (.object [(Tag.quote, v)]) = (ofJsonAt (depth + 1) v).map .quote := by
  rw [ofJsonAt, ofMembers, ofTagged_eq, if_neg (by decide), if_neg (by decide), if_pos rfl]

theorem ofJsonAt_lambda (depth : Nat) (ms : List (Bytes × Value)) :
    ofJsonAt depth (.object [(Tag.lambda, .object ms)]) =
      assemble (jsonParams (arrayMember Tag.params ms)) (ofBody (depth + 1) ms)
        (ofBound (depth + 1) ms) := by
  rw [ofJsonAt, ofMembers, ofTagged_eq, if_neg (by decide), if_neg (by decide), if_neg (by decide),
    if_pos rfl]

theorem lookup?_cons (key tag : Bytes) (v : Value) (ms : List (Bytes × Value)) :
    Value.lookup? key ((tag, v) :: ms) = if tag = key then some v else Value.lookup? key ms := by
  by_cases h : tag = key <;> simp [Value.lookup?, h]

theorem mem_of_lookup? {key : Bytes} {v : Value} {ms : List (Bytes × Value)}
    (h : Value.lookup? key ms = some v) : (key, v) ∈ ms := by
  induction ms with
  | nil => cases h
  | cons m ms ih =>
      rw [lookup?_cons] at h
      split at h
      · rename_i hkey
        cases h
        simp [← hkey]
      · exact List.mem_cons_of_mem _ (ih h)

theorem ofBody_eq (depth : Nat) (ms : List (Bytes × Value)) :
    ofBody depth ms = ofJsonAt depth ((Value.lookup? Tag.body ms).getD .null) := by
  induction ms with
  | nil => rfl
  | cons m ms ih =>
      rw [ofBody, lookup?_cons]
      split
      · rfl
      · exact ih

theorem ofBound_eq (depth : Nat) (ms : List (Bytes × Value)) :
    ofBound depth ms = ofJsonSeq depth (arrayMember Tag.bound ms) := by
  induction ms with
  | nil => rfl
  | cons m ms ih =>
      rw [ofBound_cons, arrayMember, lookup?_cons]
      split
      · cases m.2 <;> rfl
      · exact ih

theorem jsonParams_eq_ok {vs : List Value} {params : List Name} (h : jsonParams vs = .ok params) :
    vs = params.map fun p => .string p.bytes := by
  induction vs generalizing params with
  | nil =>
      cases h
      rfl
  | cons v vs ih =>
      cases v with
      | string s =>
          obtain ⟨ps, hps, rfl⟩ := eq_ok_of_map h
          rw [ih hps, List.map_cons]
      | null | bool _ | int _ | real _ | array _ | object _ => cases h

/-- What is decoded from a value. Of the members of a procedure object the decoder looks at three.
-/
inductive Decoded : Value → Datum → Prop where
  | int (v : Int64) : Decoded (.int v) (.int v)
  | bool (b : Bool) : Decoded (.bool b) (.bool b)
  | real (x : Number.Binary64) (v : Int64) : Decoded (.real x) (.int v)
  | array {ps : List (Value × Datum)} : (∀ p ∈ ps, Decoded p.1 p.2) →
      Decoded (.array (ps.map Prod.fst)) (.list (ps.map Prod.snd))
  | symbol (s : Bytes) : Decoded (.object [(Tag.symbol, .string s)]) (.symbol ⟨s⟩)
  | builtin (s : Bytes) : Decoded (.object [(Tag.builtin, .string s)]) (.builtin ⟨s⟩)
  | quote {v : Value} {d : Datum} : Decoded v d → Decoded (.object [(Tag.quote, v)]) (.quote d)
  | lambda {ms : List (Bytes × Value)} {ps : List (Value × Datum)} {params : List Name} {v : Value}
      {body : Datum} : arrayMember Tag.params ms = params.map (fun p => .string p.bytes) →
      arrayMember Tag.bound ms = ps.map Prod.fst → (∀ p ∈ ps, Decoded p.1 p.2) →
      Value.lookup? Tag.body ms = some v → Decoded v body → ps.length ≤ params.length →
        Decoded (.object [(Tag.lambda, .object ms)]) (.lambda (ps.map Prod.snd) params body)

theorem decoded_of_ofReal {x : Number.Binary64} {d : Datum} (h : ofReal x = .ok d) :
    Decoded (.real x) d := by
  unfold ofReal at h
  split at h
  · obtain rfl := Except.ok.inj h
    exact .real x _
  · cases h

theorem decoded_seq {vs : List Value}
    (h : ∀ v ∈ vs, ∀ {depth d}, ofJsonAt depth v = .ok d → Decoded v d) {depth : Nat}
    {ds : List Datum} (hds : ofJsonSeq depth vs = .ok ds) :
    ∃ ps : List (Value × Datum), vs = ps.map Prod.fst ∧ ds = ps.map Prod.snd ∧
      ∀ p ∈ ps, Decoded p.1 p.2 := by
  induction vs generalizing ds with
  | nil =>
      obtain rfl := Except.ok.inj hds
      exact ⟨[], rfl, rfl, by simp⟩
  | cons v vs ih =>
      obtain ⟨hv, hvs⟩ := List.forall_mem_cons.mp h
      rw [ofJsonSeq] at hds
      split at hds
      · cases hds
      · rename_i d hd
        obtain ⟨es, hes, rfl⟩ := eq_ok_of_map hds
        obtain ⟨ps, rfl, rfl, hps⟩ := ih hvs hes
        exact ⟨(v, d) :: ps, rfl, rfl, List.forall_mem_cons.mpr ⟨hv hd, hps⟩⟩

theorem sizeOf_lt_of_lookup? {key : Bytes} {ms : List (Bytes × Value)} {v : Value}
    (h : Value.lookup? key ms = some v) : sizeOf v < sizeOf ms := by
  have hm := List.sizeOf_lt_of_mem (mem_of_lookup? h)
  rw [Prod.mk.sizeOf_spec] at hm
  omega

theorem sizeOf_lt_of_mem_arrayMember {key : Bytes} {ms : List (Bytes × Value)} {v : Value}
    (h : v ∈ arrayMember key ms) : sizeOf v < sizeOf ms := by
  unfold arrayMember at h
  split at h
  · rename_i vs hvs
    have hlt := sizeOf_lt_of_lookup? hvs
    have hv := List.sizeOf_lt_of_mem h
    rw [Value.array.sizeOf_spec] at hlt
    omega
  · cases h

/-- The members of a procedure object, decoded. -/
theorem decoded_lambda {ms : List (Bytes × Value)} {depth : Nat} {d : Datum}
    (hbody : ∀ v, Value.lookup? Tag.body ms = some v →
      ∀ {depth d}, ofJsonAt depth v = .ok d → Decoded v d)
    (hbound : ∀ v ∈ arrayMember Tag.bound ms, ∀ {depth d}, ofJsonAt depth v = .ok d → Decoded v d)
    (h : assemble (jsonParams (arrayMember Tag.params ms)) (ofBody depth ms) (ofBound depth ms) =
      .ok d) : Decoded (.object [(Tag.lambda, .object ms)]) d := by
  obtain ⟨params, body, bound, hp, hk, hb, hlen, rfl⟩ := assemble_eq_ok h
  rw [ofBound_eq] at hb
  obtain ⟨ps, hps, rfl, hdecoded⟩ := decoded_seq hbound hb
  rw [ofBody_eq] at hk
  cases hv : Value.lookup? Tag.body ms with
  | none =>
      rw [hv] at hk
      cases hk
  | some v =>
      rw [hv] at hk
      exact .lambda (jsonParams_eq_ok hp) hps hdecoded hv (hbody v hv hk) (by simpa using hlen)

theorem decoded_of_ofJsonAt (v : Value) {depth : Nat} {d : Datum} (h : ofJsonAt depth v = .ok d) :
    Decoded v d := by
  match v with
  | .null | .string _ => cases h
  | .int v =>
      obtain rfl := Except.ok.inj h
      exact .int v
  | .bool b =>
      obtain rfl := Except.ok.inj h
      exact .bool b
  | .real x => exact decoded_of_ofReal h
  | .array vs =>
      obtain ⟨ds, hds, rfl⟩ := eq_ok_of_map h
      obtain ⟨ps, rfl, rfl, hps⟩ := decoded_seq (fun w hw _ _ h =>
        have hlt := List.sizeOf_lt_of_mem hw
        decoded_of_ofJsonAt w h) hds
      exact .array hps
  | .object [] | .object (_ :: _ :: _) => cases h
  | .object [(tag, w)] =>
      rw [ofJsonAt, ofMembers, ofTagged_eq] at h
      split at h
      · rename_i htag
        subst htag
        split at h
        · obtain rfl := Except.ok.inj h
          exact .symbol _
        · cases h
      · split at h
        · rename_i htag
          subst htag
          split at h
          · obtain rfl := Except.ok.inj h
            exact .builtin _
          · cases h
        · split at h
          · rename_i htag
            subst htag
            obtain ⟨e, he, rfl⟩ := eq_ok_of_map h
            exact .quote (decoded_of_ofJsonAt w he)
          · split at h
            · rename_i htag
              subst htag
              cases w with
              | object ms =>
                  refine decoded_lambda (fun v hv _ _ h => ?_) (fun v hv _ _ h => ?_) h
                  · have hlt := sizeOf_lt_of_lookup? hv
                    exact decoded_of_ofJsonAt v h
                  · have hlt := sizeOf_lt_of_mem_arrayMember hv
                    exact decoded_of_ofJsonAt v h
              | null | bool _ | int _ | real _ | string _ | array _ => cases h
            · cases h
termination_by sizeOf v
decreasing_by
  all_goals subst_vars
  all_goals simp_wf
  all_goals omega

theorem Decoded.bounded {v : Value} {d : Datum} (h : Decoded v d) : d.Bounded := by
  have values {ps : List (Value × Datum)} (ih : ∀ p ∈ ps, p.2.Bounded) :
      ∀ d ∈ ps.map Prod.snd, d.Bounded := List.forall_mem_map.mpr ih
  induction h with
  | int v | real _ v => exact .int v
  | bool b => exact .bool b
  | symbol s => exact .symbol _
  | builtin s => exact .builtin _
  | quote _ ih => exact .quote ih
  | array _ ih => exact .list (values ih)
  | lambda _ _ _ _ _ hlen ihb ihk => exact .lambda (by simpa using hlen) (values ihb) ihk

theorem decoded_of_ofJson {v : Value} {d : Datum} (h : ofJson v = .ok d) : Decoded v d := by
  rw [ofJson] at h
  cases hv : ofJsonAt 0 v with
  | error e => simp [hv, Except.mapError] at h
  | ok e =>
      rw [hv] at h
      obtain rfl := Except.ok.inj h
      exact decoded_of_ofJsonAt v hv

theorem ofJson_bounded {v : Value} {d : Datum} (h : ofJson v = .ok d) : d.Bounded :=
  (decoded_of_ofJson h).bounded

/-- An expression is read back from its JSON value and, if that nests no deeper than JSON text may,
from its JSON text: the same tree, with the parameters of its procedures, their bound arguments in
order and their bodies. -/
theorem json_roundTrip {d : Datum} (h : d.Portable) :
    ofJson d.toJson = .ok d ∧
      (d.toJson.nesting < Json.depthLimit →
        (Value.ofText? d.jsonText).map ofJson = some (.ok d)) := by
  have hvalue := h.bounded.ofJson_toJson
  refine ⟨hvalue, fun hdepth => ?_⟩
  rw [jsonText, Json.ofText?_text h.plain_toJson hdepth, Option.map_some, hvalue]

/-- A procedure whose first parameter, with a quote, a tag and a letter beyond ASCII in its name, is
bound to the least integer. -/
def curried : Datum :=
  .lambda [.int Int64.minValue] ["\"<é>", "y"]
    (.list [.builtin "+", .quote (.symbol "\\u\n"), .list [.bool true, .int Int64.maxValue]])

theorem portable_curried : curried.Portable := by
  refine .lambda ["\"<é>", "y"] (by decide) (fun d hd => ?_) (.list fun d hd => ?_)
  · rw [List.mem_singleton.mp hd]
    exact .int _
  · rcases List.mem_cons.mp hd with rfl | hd
    · exact .builtin "+"
    · rcases List.mem_cons.mp hd with rfl | hd
      · exact .quote (.symbol "\\u\n")
      · rw [List.mem_singleton.mp hd]
        refine .list fun e he => ?_
        rcases List.mem_cons.mp he with rfl | he
        · exact .bool true
        · rw [List.mem_singleton.mp he]
          exact .int _

theorem json_roundTrip_curried :
    curried.Portable ∧ curried.toJson.nesting < Json.depthLimit ∧
      ofJson curried.toJson = .ok curried ∧
      (Value.ofText? curried.jsonText).map ofJson = some (.ok curried) :=
  have hdepth : curried.toJson.nesting < Json.depthLimit := by decide
  ⟨portable_curried, hdepth, (json_roundTrip portable_curried).1,
    (json_roundTrip portable_curried).2 hdepth⟩

end CellScheme.Datum
