import CellScheme.Proofs.Evaluation.Standing
import CellScheme.Proofs.Host.Carries
import CellScheme.Proofs.Json.RoundTrip

/-!
Parameters of procedures. The lambda form refuses a parameter that is given twice, and evaluation
keeps the parameters of a procedure as they are; the decoders of JSON and of images take any names.
Binding puts one argument in the place of another exactly if a name is repeated.
-/

namespace CellScheme

open Json (Value)

namespace Datum

/-- In every procedure in the tree the parameters are distinct. -/
inductive Distinct : Datum → Prop where
  | int (v : Int64) : Distinct (.int v)
  | bool (b : Bool) : Distinct (.bool b)
  | symbol (n : Name) : Distinct (.symbol n)
  | builtin (n : Name) : Distinct (.builtin n)
  | quote {d : Datum} : Distinct d → Distinct (.quote d)
  | list {ds : List Datum} : (∀ d ∈ ds, Distinct d) → Distinct (.list ds)
  | lambda {bound : List Datum} {params : List Name} {body : Datum} :
      params.Nodup → (∀ d ∈ bound, Distinct d) → Distinct body →
        Distinct (.lambda bound params body)

variable {d : Datum} {ds bound : List Datum} {params : List Name} {body : Datum}

theorem distinct_quote_iff : (quote d).Distinct ↔ d.Distinct := by
  refine ⟨fun h => ?_, .quote⟩
  cases h with
  | quote h => exact h

theorem distinct_list_iff : (list ds).Distinct ↔ ∀ d ∈ ds, d.Distinct := by
  refine ⟨fun h => ?_, .list⟩
  cases h with
  | list h => exact h

theorem distinct_lambda_iff :
    (lambda bound params body).Distinct ↔
      params.Nodup ∧ (∀ d ∈ bound, d.Distinct) ∧ body.Distinct := by
  refine ⟨fun h => ?_, fun h => .lambda h.1 h.2.1 h.2.2⟩
  cases h with
  | lambda hp hb hk => exact ⟨hp, hb, hk⟩

end Datum

theorem lawful_distinct : Lawful Datum.Distinct where
  int := .int
  bool := .bool
  symbol := .symbol
  quote := Datum.distinct_quote_iff
  list := Datum.distinct_list_iff
  closure hp hk := .lambda hp (by simp) hk
  bound h := (Datum.distinct_lambda_iff.mp h).2.1
  body h := .inl (Datum.distinct_lambda_iff.mp h).2.2
  supply h ha _ := by
    obtain ⟨hp, hb, hk⟩ := Datum.distinct_lambda_iff.mp h
    exact .lambda hp (List.forall_mem_append.mpr ⟨hb, ha⟩) hk
  standing name arity := by
    refine .lambda (Machine.nodup_builtinParams arity) (by simp) (.list fun d hd => ?_)
    rcases List.mem_cons.mp hd with rfl | hd
    · exact .builtin name
    · obtain ⟨n, _, rfl⟩ := List.mem_map.mp hd
      exact .symbol n

theorem SpecialForm.params_of_runLambda {form : List Node} {m m' : Machine} {v : Node}
    (h : runLambda form m = .ok v m') :
    ∃ b p k, v = .lambda b p k ∧ m'.store.elements b = [] ∧ (m'.store.params p).Nodup := by
  match form with
  | [_, .list c, body] =>
      cases hc : paramNames m [] (m.store.elements c) with
      | error e =>
          simp only [runLambda, Act.get_bind, hc] at h
          cases h
      | ok names =>
          simp only [runLambda, Act.get_bind, hc] at h
          cases h
          refine ⟨_, _, _, rfl, Store.elements_allocSeq _ _, ?_⟩
          exact (Store.params_allocNames _ names).symm ▸ paramNames_nodup hc List.nodup_nil
  | [_, .int _, _] | [_, .bool _, _] | [_, .builtin _, _] | [_, .quote _, _] | [_, .symbol _, _]
  | [_, .lambda _ _ _, _] | [] | [_] | [_, _] | _ :: _ :: _ :: _ :: _ => cases h

namespace Datum

/-- Somewhere in the value is a procedure object that gives a parameter twice. -/
inductive Repeats : Value → Prop where
  | element {vs : List Value} {v : Value} : v ∈ vs → Repeats v → Repeats (.array vs)
  | quote {v : Value} : Repeats v → Repeats (.object [(Tag.quote, v)])
  | body {ms : List (Bytes × Value)} {v : Value} : Value.lookup? Tag.body ms = some v →
      Repeats v → Repeats (.object [(Tag.lambda, .object ms)])
  | bound {ms : List (Bytes × Value)} {v : Value} : v ∈ arrayMember Tag.bound ms →
      Repeats v → Repeats (.object [(Tag.lambda, .object ms)])
  | params {ms : List (Bytes × Value)} : ¬ (arrayMember Tag.params ms).Nodup →
      Repeats (.object [(Tag.lambda, .object ms)])

theorem nodup_strings_iff {params : List Name} :
    (params.map fun p => Value.string p.bytes).Nodup ↔ params.Nodup := by
  apply List.nodup_map_iff
  rintro ⟨s⟩ ⟨t⟩ h
  cases h
  rfl

theorem Decoded.distinct {v : Value} {d : Datum} (h : Decoded v d) (hv : ¬ Repeats v) :
    d.Distinct := by
  induction h with
  | int v | real _ v => exact .int v
  | bool b => exact .bool b
  | symbol s => exact .symbol _
  | builtin s => exact .builtin _
  | quote _ ih => exact .quote (ih fun h => hv (.quote h))
  | array _ ih =>
      refine .list (List.forall_mem_map.mpr fun p hp => ih p hp fun h => hv ?_)
      exact .element (List.mem_map_of_mem hp) h
  | lambda hparams hbound _ hbody _ _ ihb ihk =>
      refine .lambda (nodup_strings_iff.mp ?_) (List.forall_mem_map.mpr fun p hp => ?_) ?_
      · rw [← hparams]
        exact not_not.mp fun h => hv (.params h)
      · exact ihb p hp fun h => hv (.bound (hbound ▸ List.mem_map_of_mem hp) h)
      · exact ihk fun h => hv (.body hbody h)

theorem mem_of_ofJsonSeq {depth : Nat} {vs : List Value} {ds : List Datum}
    (h : ofJsonSeq depth vs = .ok ds) {v : Value} (hv : v ∈ vs) :
    ∃ d ∈ ds, ofJsonAt depth v = .ok d := by
  induction vs generalizing ds with
  | nil => cases hv
  | cons w vs ih =>
      rw [ofJsonSeq] at h
      split at h
      · cases h
      · rename_i e he
        obtain ⟨es, hes, rfl⟩ := eq_ok_of_map h
        obtain rfl | hv := List.mem_cons.mp hv
        · exact ⟨e, List.mem_cons_self, he⟩
        · obtain ⟨d, hd, hvd⟩ := ih hes hv
          exact ⟨d, List.mem_cons_of_mem _ hd, hvd⟩

theorem Repeats.not_distinct {v : Value} (hv : Repeats v) {depth : Nat} {d : Datum}
    (h : ofJsonAt depth v = .ok d) : ¬ d.Distinct := by
  intro hd
  induction hv generalizing depth d with
  | element hm _ ih =>
      obtain ⟨ds, hds, rfl⟩ := eq_ok_of_map h
      obtain ⟨e, he, hv⟩ := mem_of_ofJsonSeq hds hm
      exact ih hv (distinct_list_iff.mp hd e he)
  | quote _ ih =>
      rw [ofJsonAt_quote] at h
      obtain ⟨e, he, rfl⟩ := eq_ok_of_map h
      exact ih he (distinct_quote_iff.mp hd)
  | body hk _ ih =>
      rw [ofJsonAt_lambda] at h
      obtain ⟨params, body, bound, _, hb, _, _, rfl⟩ := assemble_eq_ok h
      rw [ofBody_eq, hk] at hb
      exact ih hb (distinct_lambda_iff.mp hd).2.2
  | bound hm _ ih =>
      rw [ofJsonAt_lambda] at h
      obtain ⟨params, body, bound, _, _, hb, _, rfl⟩ := assemble_eq_ok h
      rw [ofBound_eq] at hb
      obtain ⟨e, he, hv⟩ := mem_of_ofJsonSeq hb hm
      exact ih hv ((distinct_lambda_iff.mp hd).2.1 e he)
  | params hm =>
      rw [ofJsonAt_lambda] at h
      obtain ⟨params, body, bound, hp, _, _, _, rfl⟩ := assemble_eq_ok h
      rw [jsonParams_eq_ok hp] at hm
      exact hm (nodup_strings_iff.mpr (distinct_lambda_iff.mp hd).1)

theorem distinct_ofJson_iff {v : Value} {d : Datum} (h : ofJson v = .ok d) :
    d.Distinct ↔ ¬ Repeats v := by
  refine ⟨fun hd hv => ?_, (decoded_of_ofJson h).distinct⟩
  rw [ofJson] at h
  cases hat : ofJsonAt 0 v with
  | error e => simp [hat, Except.mapError] at h
  | ok e =>
      rw [hat] at h
      obtain rfl := Except.ok.inj h
      exact hv.not_distinct hat hd

/-- The decoder of images yields every tree that is bounded, whatever its parameters. -/
theorem unpacked_iff_bounded {d : Datum} (hl : d.pack.length < 2 ^ 32) :
    (∃ bs, unpack bs = .ok (d, [])) ↔ d.Bounded := by
  constructor
  · rintro ⟨bs, h⟩
    obtain ⟨u, used, _, hu⟩ := unpack_eq_ok_iff.mp h
    exact hu.bounded
  · exact fun h => ⟨d.pack, h.unpack_pack hl⟩

end Datum

theorem size_bindParams {params : List Name} {args : List Node} (h : params.length ≤ args.length) :
    (bindParams params args).bindings.size = params.dedup.length := by
  have sorted : (bindParams params args).bindings.Sorted := by
    rw [bindings_bindParams]
    exact Named.sorted_empty.foldl_insert _
  have mem (name : Name) : name ∈ (bindParams params args).bindings.names ↔ name ∈ params := by
    have found := find?_bindParams params args name
    rw [Named.names, ← Named.isSome_lookup_iff]
    change ((bindParams params args).find? name).isSome ↔ _
    rw [found, Named.isSome_lookup_zip_iff h]
  have perm : (bindParams params args).bindings.names.Perm params.dedup :=
    (List.perm_ext_iff_of_nodup sorted.nodup_names params.nodup_dedup).mpr fun name => by
      rw [mem, List.mem_dedup]
  rw [← perm.length_eq, Named.names, List.length_map, Named.size]

theorem find?_bindParams_of_nodup {params : List Name} {args : List Node} (hp : params.Nodup)
    (h : args.length = params.length) {i : Nat} (hi : i < params.length) :
    (bindParams params args).find? params[i] = args[i]? := by
  have hi' : i < args.length := h ▸ hi
  rw [find?_bindParams, List.getElem?_eq_getElem hi']
  apply Named.lookup_zip_of_mem hp h.ge
  rw [List.mem_iff_getElem]
  exact ⟨i, by simp [hi, hi'], List.getElem_zip⟩

theorem size_bindParams_eq_iff {params : List Name} {args : List Node}
    (h : args.length = params.length) :
    (bindParams params args).bindings.size = args.length ↔ params.Nodup := by
  rw [size_bindParams h.ge, h, ← List.dedup_eq_self]
  exact params.dedup_sublist.length_eq

namespace Host

/-- The lambda form makes procedures with distinct parameters only. A host that brings in no others
has no others, whatever it reads from texts, evaluates, binds, edits and loads; so every argument of
a call is bound to its own parameter. The decoder of JSON yields a procedure with a repeated
parameter exactly if the value asks for one, and the decoder of images yields every bounded tree,
whatever its parameters. -/
theorem distinct_parameters (table : Named Builtin) (limit : Int) (tracing : Bool)
    (before after : List String) {ops : List HostOp}
    (ho : ∀ op ∈ ops, (∀ d ∈ op.trees, d.Distinct) ∧ ∀ params ∈ op.params, params.Nodup) :
    (∀ form m v m', SpecialForm.runLambda form m = .ok v m' →
      ∃ b p k, v = .lambda b p k ∧ m'.store.elements b = [] ∧ (m'.store.params p).Nodup) ∧
    (∀ text ds, Datum.parseAll text = .ok ds → ∀ d ∈ ds, d.Distinct) ∧
    (∀ x, ((start table limit tracing before after).performAll ops).Has x →
      (((start table limit tracing before after).performAll ops).machine.view x).Distinct) ∧
    (∀ params args, (args : List Node).length = params.length →
      ((bindParams params args).bindings.size = args.length ↔ params.Nodup) ∧
      (params.Nodup → ∀ i (hi : i < params.length),
        (bindParams params args).find? params[i] = args[i]?)) ∧
    (∀ v d, Datum.ofJson v = .ok d → (d.Distinct ↔ ¬ Datum.Repeats v)) ∧
    ∀ d, d.pack.length < 2 ^ 32 → ((∃ bs, Datum.unpack bs = .ok (d, [])) ↔ d.Bounded) := by
  have carried : ((start table limit tracing before after).performAll ops).Carries
      Datum.Distinct :=
    (carries_start lawful_distinct table limit tracing before after).performAll
      (fun op hop => (ho op hop).1)
      fun op hop params hp _ hb => .lambda ((ho op hop).2 params hp) (by simp) hb
  refine ⟨fun _ _ _ _ h => SpecialForm.params_of_runLambda h, fun text ds h d hd => ?_,
    fun x hx => ?_, fun params args h => ?_, fun v d h => Datum.distinct_ofJson_iff h,
    fun d hl => Datum.unpacked_iff_bounded hl⟩
  · obtain ⟨ls, _, hds⟩ := Datum.parseAll_eq_ok.mp h
    exact lawful_distinct.readable (Datum.Readable.of_sexps hds d hd)
  · exact carried.has (fun h => (Datum.distinct_lambda_iff.mp h).2.2) hx
  · exact ⟨size_bindParams_eq_iff h, fun hp i hi => find?_bindParams_of_nodup hp h hi⟩

/-- A procedure read from a text and bound, a procedure from outside, and one around it. -/
theorem distinct_parameters_pair :
    let ops : List HostOp := [.step (.evalText 9 "p" "(define pair (lambda (x y) (cons x y)))"),
      .step (.work (.build "q" (.lambda [.int 1] ["x", "y"] (.symbol "y")))),
      .make "r" (.lambda ["x", "z"] (.clone "q"))]
    let h := (start (Builtin.table Builtin.core) 0 false [] []).performAll ops
    (∀ op ∈ ops, (∀ d ∈ op.trees, d.Distinct) ∧ ∀ params ∈ op.params, params.Nodup) ∧
      ∀ x, h.handles.find? "r" = some x → (h.machine.view x).Distinct := by
  intro ops h
  have hq : (Datum.lambda [.int 1] ["x", "y"] (.symbol "y")).Distinct := by
    refine .lambda (by decide) (fun d hd => ?_) (.symbol _)
    rw [List.mem_singleton.mp hd]
    exact .int 1
  have ho : ∀ op ∈ ops, (∀ d ∈ op.trees, d.Distinct) ∧ ∀ params ∈ op.params, params.Nodup := by
    intro op hop
    rcases List.mem_cons.mp hop with rfl | hop
    · exact ⟨by simp [HostOp.trees, HostStep.trees], by simp [HostOp.params]⟩
    · rcases List.mem_cons.mp hop with rfl | hop
      · exact ⟨List.forall_mem_singleton.mpr hq, by simp [HostOp.params]⟩
      · rw [List.mem_singleton.mp hop]
        exact ⟨by simp [HostOp.trees, Recipe.trees], List.forall_mem_singleton.mpr (by decide)⟩
  have distinct := (distinct_parameters (Builtin.table Builtin.core) 0 false [] [] ho).2.2.1
  exact ⟨ho, fun x hx => distinct x (.handle hx)⟩

/-- A procedure that takes a parameter twice is read from JSON and from an image. Called with 1 and
2 it binds the second one only. -/
theorem repeated_parameter_decoded :
    let d := Datum.lambda [] ["x", "x"] (.symbol "x")
    Datum.ofJson (.object [(Datum.Tag.lambda, .object [(Datum.Tag.params,
        .array [.string (Text.utf8 "x"), .string (Text.utf8 "x")]),
        (Datum.Tag.body, .object [(Datum.Tag.symbol, .string (Text.utf8 "x"))])])]) = .ok d ∧
      Datum.unpack d.pack = .ok (d, []) ∧ ¬ d.Distinct ∧
      (bindParams ["x", "x"] [.int 1, .int 2]).bindings.entries =
        [(Name.ofString "x", .int 2)] := by
  intro d
  have hd : ¬ d.Distinct := fun h => absurd (Datum.distinct_lambda_iff.mp h).1 (by decide)
  have hb : d.Bounded := .lambda (by decide) (by simp) (.symbol _)
  exact ⟨rfl, hb.unpack_pack (by decide), hd, rfl⟩

end Host

end CellScheme
