import CellScheme.Proofs.Lawful.Runs

/-!
Frames that no program sees. Programs look up names that can be written, and the procedures that
stand for builtins look up their own parameters, which are bound in the frame of their call. So a
frame that binds only names that cannot be written changes nothing wherever it stands in the chain.
-/

namespace CellScheme

open CellScheme.Tree (World)

/-- The name can be written. -/
def Name.Spelled (n : Name) : Prop :=
  ∃ cs, Grammar.Spelling cs ∧ n = Name.ofString (String.ofList cs)

theorem not_spelled_of_mem_builtinParams {n : Name} {arity : Nat}
    (h : n ∈ Machine.builtinParams arity) : ¬ n.Spelled := by
  rintro ⟨cs, hcs, hn⟩
  obtain ⟨i, _, rfl⟩ := List.mem_map.mp h
  have first : (Name.ofString ("#" ++ Text.natText (i + 1))).chars.head? = some '#' := by
    have bytes : (Name.ofString ("#" ++ Text.natText (i + 1))).bytes =
        0x23 :: Text.utf8 (Text.natText (i + 1)) := by
      simp [Name.ofString, Text.utf8, String.toList_append]
      rfl
    rw [Name.chars, bytes, Text.decodeUtf8, Text.glyphs_ascii (by decide)]
    rfl
  rw [hn, hcs.chars_ofString] at first
  have symbol := hcs.chars '#' (List.mem_of_mem_head? first)
  exact absurd symbol (by unfold Grammar.SymbolChar; decide)

namespace Datum

/-- All names in the tree can be written, except for the parameters of procedures that stand for
builtins, which call the builtin with just these. -/
inductive Worded : Datum → Prop where
  | int (v : Int64) : Worded (.int v)
  | bool (b : Bool) : Worded (.bool b)
  | symbol {n : Name} : n.Spelled → Worded (.symbol n)
  | quote {d : Datum} : Worded d → Worded (.quote d)
  | list {ds : List Datum} : (∀ d ∈ ds, Worded d) → Worded (.list ds)
  | lambda {bound : List Datum} {params : List Name} {body : Datum} :
      (∀ d ∈ bound, Worded d) → Worded body → Worded (.lambda bound params body)
  | standing {bound : List Datum} {params : List Name} (name : Name) :
      (∀ d ∈ bound, Worded d) →
        Worded (.lambda bound params (.list (.builtin name :: params.map .symbol)))

namespace Worded

variable {d : Datum} {bound args : List Datum} {params : List Name} {body : Datum}

theorem of_quote (h : (Datum.quote d).Worded) : d.Worded := by
  cases h with
  | quote h => exact h

theorem of_list {ds : List Datum} (h : (Datum.list ds).Worded) : ∀ d ∈ ds, d.Worded := by
  cases h with
  | list h => exact h

theorem bound_of_lambda (h : (Datum.lambda bound params body).Worded) : ∀ d ∈ bound, d.Worded := by
  cases h with
  | lambda hb _ | standing _ hb => exact hb

theorem supply (h : (Datum.lambda bound params body).Worded) (ha : ∀ d ∈ args, d.Worded) :
    (Datum.lambda (bound ++ args) params body).Worded := by
  have all := List.forall_mem_append.mpr ⟨h.bound_of_lambda, ha⟩
  cases h with
  | lambda _ hk => exact .lambda all hk
  | standing name _ => exact .standing name all

end Worded

end Datum

/-- Evaluation keeps to names that can be written. -/
theorem law_worded : Law (fun _ => Datum.Worded) fun _ => Datum.Worded where
  expr_grows _ _ _ _ h := h
  value_grows _ _ _ _ h := h
  expr h := h
  int _ := .int
  bool _ := .bool
  symbol _ _ h := .symbol ⟨_, h, rfl⟩
  defined h _ := h
  own h _ := h
  quoted h _ := .quote h
  quote := ⟨.of_quote, .quote⟩
  list := ⟨.of_list, .list⟩
  closure _ h := .lambda (by simp) h
  bound := .bound_of_lambda
  body h := by
    cases h with
    | lambda _ hk => exact .inl hk
    | standing name _ => exact .inr ⟨name, _, rfl⟩
  supply h ha _ := h.supply ha
  standing _ name arity := .standing name (by simp)

namespace Datum.Worded

variable {d : Datum}

theorem unquote (h : d.Worded) : d.unquote.Worded :=
  @Law.unquote _ _ [] d law_worded h

theorem requote (h : d.Worded) : d.requote.Worded :=
  @Law.requote _ _ [] d law_worded h

theorem quotedElements (h : d.Worded) : ∀ e ∈ Tree.quotedElements d, e.Worded :=
  @Law.quotedElements _ _ [] d law_worded h

end Datum.Worded

namespace Tree

variable {α β : Type} {R S : World → World → Prop} {V : α → Prop} {U : β → Prop}

/-- The same value, of which `V` holds, or the same halt, in related worlds. -/
inductive Agree (R : World → World → Prop) (V : α → Prop) :
    EStateM.Result Halt World α → EStateM.Result Halt World α → Prop where
  | ok {v : α} {w w' : World} : V v → R w w' → Agree R V (.ok v w) (.ok v w')
  | error (e : Halt) {w w' : World} : R w w' → Agree R V (.error e w) (.error e w')

/-- From related worlds the action ends alike. -/
def Agrees (R : World → World → Prop) (V : α → Prop) (a : Act α) : Prop :=
  ∀ w w', R w w' → Agree R V (a w) (a w')

namespace Agrees

theorem pure {v : α} (hv : V v) : Agrees R V (pure v) :=
  fun _ _ h => .ok hv h

theorem halt (e : Halt) : Agrees R V (throw e) :=
  fun _ _ h => .error e h

theorem fail (f : Failure) : Agrees R V (fail f) :=
  halt _

theorem ofExcept (e : Except Failure α) : Agrees R (fun _ => True) (ofExcept e) := by
  cases e with
  | ok v => exact pure trivial
  | error f => exact fail f

theorem bind {a : Act α} {k : α → Act β} (ha : Agrees R V a) (hk : ∀ v, V v → Agrees R U (k v)) :
    Agrees R U (a >>= k) := by
  intro w w' h
  have hr := ha w w' h
  generalize ea : a w = r at hr
  generalize ea' : a w' = r' at hr
  cases hr with
  | ok hv h' =>
      rw [Act.bind_ok ea, Act.bind_ok ea']
      exact hk _ hv _ _ h'
  | error e h' =>
      rw [Act.bind_error ea, Act.bind_error ea']
      exact .error e h'

end Agrees

/-- A frame of the calls in progress binds the name. -/
def BoundIn (frames : List (Named Datum)) (n : Name) : Prop :=
  (frames.findSome? fun f => f.find? n).isSome

/-- With an argument for every parameter, every parameter is bound. -/
theorem bindParams_isSome {params : List Name} {args : List Datum} {n : Name} (hn : n ∈ params)
    (hlen : params.length ≤ args.length) : ((bindParams params args).find? n).isSome := by
  rw [find?_bindParams, Named.isSome_lookup_zip_iff hlen]
  exact hn

theorem mem_of_bindParams {params : List Name} {args : List Datum} {n : Name}
    (h : (bindParams params args).find? n ≠ none) : n ∈ params := by
  rw [find?_bindParams, ← Option.isSome_iff_ne_none, Named.isSome_lookup_iff, List.map_reverse,
    List.mem_reverse] at h
  obtain ⟨p, hp, rfl⟩ := List.mem_map.mp h
  exact (List.of_mem_zip hp).1

/-- The second world has the frame `hidden` below the frames `calls`, and the first one has not. -/
structure Widened (hidden : Named Datum) (outer calls : List (Named Datum)) (w w' : World) :
    Prop where
  all : w.All Datum.Worded
  limit : w.limit ≤ 0
  inner : w.inner = calls ++ outer
  wide : w' = { w with inner := calls ++ hidden :: outer }

namespace Widened

variable {hidden : Named Datum} {outer calls : List (Named Datum)} {w w' : World}

theorem find?_eq (h : Widened hidden outer calls w w') {n : Name}
    (hn : BoundIn calls n ∨ hidden.find? n = none) : w'.find? n = w.find? n := by
  rw [h.wide, World.find?, World.find?, h.inner, List.findSome?_append, List.findSome?_append,
    List.findSome?_cons]
  rcases hn with hn | hn
  · obtain ⟨d, hd⟩ := Option.isSome_iff_exists.mp hn
    simp only [hd, Option.some_or]
  · rw [hn]

theorem define (h : Widened hidden outer calls w w') (name : Name) {d : Datum} (hd : d.Worded) :
    Widened hidden outer calls (w.define name d) (w'.define name d) where
  all := h.all.define name hd
  limit := h.limit
  inner := h.inner
  wide := by rw [h.wide]; rfl

theorem push (h : Widened hidden outer calls w w') {f : Named Datum}
    (hf : ∀ d ∈ f.values, d.Worded) :
    Widened hidden outer (f :: calls) { w with inner := f :: w.inner }
      { w' with inner := f :: w'.inner } where
  all := h.all.push hf
  limit := h.limit
  inner := congrArg (f :: ·) h.inner
  wide := by rw [h.wide]; rfl

theorem pop {f : Named Datum} (h : Widened hidden outer (f :: calls) w w') :
    Widened hidden outer calls { w with inner := w.inner.tail }
      { w' with inner := w'.inner.tail } where
  all := h.all.pop
  limit := h.limit
  inner := by rw [h.inner]; rfl
  wide := by rw [h.wide]; rfl

/-- A call is too deep in neither world. -/
theorem not_deep (h : Widened hidden outer calls w w') :
    ¬ (0 < w.limit ∧ w.limit < w.depth) ∧ ¬ (0 < w'.limit ∧ w'.limit < w'.depth) := by
  have hl := h.limit
  have hl' : w'.limit ≤ 0 := by rw [h.wide]; exact hl
  omega

end Widened

section

variable {hidden : Named Datum} {outer calls : List (Named Datum)} {ev : Evaluator}

/-- What is evaluated below: trees of programs, and the parts of calls of builtins. -/
structure Overlooks (hidden : Named Datum) (outer : List (Named Datum)) (ev : Evaluator) :
    Prop where
  worded {d : Datum} : d.Worded → ∀ calls, Agrees (Widened hidden outer calls) Datum.Worded (ev d)
  native (name : Name) {params : List Name} {calls : List (Named Datum)} :
    (∀ n ∈ params, BoundIn calls n) → Agrees (Widened hidden outer calls) Datum.Worded
      (ev (.list (.builtin name :: params.map .symbol)))
  builtin (name : Name) (calls : List (Named Datum)) :
    Agrees (Widened hidden outer calls) (· = .builtin name) (ev (.builtin name))
  param {n : Name} {calls : List (Named Datum)} : BoundIn calls n →
    Agrees (Widened hidden outer calls) Datum.Worded (ev (.symbol n))

variable (hev : Overlooks hidden outer ev)

include hev

theorem evalDefine_overlooks {form : List Datum} (hform : ∀ d ∈ form, d.Worded) :
    Agrees (Widened hidden outer calls) Datum.Worded (evalDefine ev form) := by
  unfold evalDefine
  split
  · refine .bind (hev.worded (hform _ (by simp)) calls) fun v hv => ?_
    have target := hform _ (List.mem_cons_of_mem _ (List.mem_cons_self ..))
    exact fun w w' h => .ok target (h.define _ hv)
  · exact .fail _
  · exact .fail _

omit hev in
theorem evalLambda_overlooks {form : List Datum} (hform : ∀ d ∈ form, d.Worded) :
    Agrees (Widened hidden outer calls) Datum.Worded (evalLambda form) := by
  unfold evalLambda
  split
  · split
    · exact .fail _
    · exact .pure (.lambda (by simp) (hform _ (by simp)))
  · exact .fail _
  · exact .fail _

theorem evalClauses_overlooks {last : Datum} (hlast : last.Worded) {cs : List (Datum × Datum)}
    (hcs : ∀ c ∈ cs, c.1.Worded ∧ c.2.Worded) :
    Agrees (Widened hidden outer calls) Datum.Worded (evalClauses ev last cs) := by
  induction cs with
  | nil => exact hev.worded hlast calls
  | cons c cs ih =>
      obtain ⟨test, result⟩ := hcs c (by simp)
      refine .bind (hev.worded test calls) fun v _ => ?_
      split
      · exact hev.worded result calls
      · exact ih fun d hd => hcs d (by simp [hd])

theorem evalCond_overlooks {form : List Datum} (hform : ∀ d ∈ form, d.Worded) :
    Agrees (Widened hidden outer calls) Datum.Worded (evalCond ev form) := by
  unfold evalCond
  split
  · exact .fail _
  · split
    · exact .fail _
    · rename_i cs last hcs
      obtain ⟨⟨test, hlast⟩, hmem⟩ := mem_of_clauses hcs
      have clause {d : Datum} (hd : d ∈ form.tail) : d.Worded := hform d (List.mem_of_mem_tail hd)
      have parts {a b : Datum} (hd : .list [a, b] ∈ form.tail) : a.Worded ∧ b.Worded := by
        have both := (clause hd).of_list
        exact ⟨both a (by simp), both b (by simp)⟩
      exact evalClauses_overlooks hev (parts hlast).2 fun c hc => parts (hmem c hc)

theorem evalOperands_overlooks (stop : Bool) {first : Datum} (hfirst : first.Worded)
    {ds : List Datum} (hds : ∀ d ∈ ds, d.Worded) :
    Agrees (Widened hidden outer calls) Datum.Worded (evalOperands ev stop first ds) := by
  induction ds generalizing first with
  | nil => exact hev.worded hfirst calls
  | cons d ds ih =>
      have rest := ih (hds d (by simp)) fun e he => hds e (by simp [he])
      refine .bind (hev.worded hfirst calls) fun v _ => ?_
      split
      · split
        · exact .pure (.bool _)
        · exact rest
      · exact rest

theorem evalForm_overlooks (f : SpecialForm) {form : List Datum} (hform : ∀ d ∈ form, d.Worded) :
    Agrees (Widened hidden outer calls) Datum.Worded (evalForm ev f form) := by
  have logical (name : String) (stop : Bool) :
      Agrees (Widened hidden outer calls) Datum.Worded (evalLogical ev name stop form) := by
    unfold evalLogical
    split
    · exact evalOperands_overlooks hev stop (hform _ (by simp)) fun d hd => hform d (by simp [hd])
    · exact .fail _
  cases f with
  | define => exact evalDefine_overlooks hev hform
  | lambda => exact evalLambda_overlooks hform
  | cond => exact evalCond_overlooks hev hform
  | and => exact logical _ _
  | or => exact logical _ _

/-- The arguments of a native procedure are values of the program; its head is the builtin. -/
theorem runNative_overlooks (n : Native) (name : Name) {form : List Datum}
    (hargs : ∀ d ∈ form.tail, d.Worded) :
    Agrees (Widened hidden outer calls) Datum.Worded (runNative ev n name form) := by
  refine .bind (.ofExcept _) fun _ _ => ?_
  unfold runChecked
  split
  · rename_i x
    have elements := (hargs x (by simp)).quotedElements
    split
    · rename_i y _ hy
      exact .pure (elements y (by simp [hy])).requote
    · exact .pure (hargs _ (by simp))
  · rename_i x
    have elements := (hargs x (by simp)).quotedElements
    exact .pure (.quote (.list fun d hd => elements d (List.mem_of_mem_tail hd)))
  · rename_i x tail
    have elements := (hargs tail (by simp)).quotedElements
    refine .pure (.quote (.list fun d hd => ?_))
    rcases List.mem_cons.mp hd with rfl | hd
    · exact (hargs x (by simp)).unquote
    · exact elements d hd
  · exact .pure (.bool _)
  · exact .pure (.bool _)
  · exact .pure (.bool _)
  · exact .pure (.bool _)
  · exact .pure (.bool _)
  · exact .pure (.int _)
  · exact .bind (.ofExcept _) fun v _ => .pure (.int v)
  · exact hev.worded (hargs _ (by simp)).unquote calls
  · exact .bind (.ofExcept _) fun b _ => .pure (.bool b)
  · exact .fail _

theorem callBuiltin_overlooks (name : Name) {form : List Datum}
    (hargs : ∀ d ∈ form.tail, d.Worded) :
    Agrees (Widened hidden outer calls) Datum.Worded (callBuiltin ev name form) := by
  intro w w' h
  have builtins : w'.builtins = w.builtins := by rw [h.wide]
  simp only [callBuiltin, Act.get_bind, builtins]
  cases w.builtins.find? name with
  | none => exact .error _ h
  | some b => exact runNative_overlooks hev b.native name hargs w w' h

omit hev in
/-- A body runs with its frame above the hidden one. -/
theorem withFrame_overlooks {f : Named Datum} (hf : ∀ d ∈ f.values, d.Worded) {a : Act Datum}
    (ha : Agrees (Widened hidden outer (f :: calls)) Datum.Worded a) :
    Agrees (Widened hidden outer calls) Datum.Worded (withFrame f a) := by
  intro w w' h
  have hr := ha _ _ (h.push hf)
  rw [withFrame, withFrame]
  generalize a { w with inner := f :: w.inner } = r at hr
  generalize a { w' with inner := f :: w'.inner } = r' at hr
  cases hr with
  | ok hv h' => exact .ok hv h'.pop
  | error e h' => exact .error e h'.pop

theorem apply_overlooks {bound : List Datum} {params : List Name} {body : Datum}
    (hf : (Datum.lambda bound params body).Worded) {args : List Datum}
    (hargs : ∀ d ∈ args, d.Worded) :
    Agrees (Widened hidden outer calls) Datum.Worded (apply ev bound params body args) := by
  intro w w' h
  obtain ⟨deep, deep'⟩ := h.not_deep
  rw [apply_eq]
  by_cases hmany : Datum.arity bound params < args.length
  · rw [if_pos hmany]
    exact .error _ h
  rw [if_neg hmany]
  have all : ∀ d ∈ bound ++ args, d.Worded :=
    List.forall_mem_append.mpr ⟨hf.bound_of_lambda, hargs⟩
  simp only [callBound, Act.get_bind, if_neg deep, if_neg deep']
  by_cases hmissing : Datum.arity (bound ++ args) params ≠ 0
  · rw [if_pos hmissing]
    exact .ok (hf.supply hargs) h
  rw [if_neg hmissing]
  have frame : ∀ d ∈ (bindParams params (bound ++ args)).values, d.Worded :=
    fun d hd => all d (mem_bindParams hd)
  have bind_all : ∀ n ∈ params, BoundIn (bindParams params (bound ++ args) :: calls) n := by
    intro n hn
    have enough : params.length ≤ (bound ++ args).length := by
      rw [Datum.arity] at hmissing
      omega
    rw [BoundIn, List.findSome?_cons]
    obtain ⟨d, hd⟩ := Option.isSome_iff_exists.mp (bindParams_isSome hn enough)
    rw [hd]
    rfl
  refine withFrame_overlooks frame ?_ w w' h
  cases hf with
  | lambda _ hbody => exact hev.worded hbody _
  | standing name _ => exact hev.native name bind_all

omit hev in
theorem evalAll_overlooks {ds : List Datum}
    (hds : ∀ d ∈ ds, Agrees (Widened hidden outer calls) Datum.Worded (ev d)) :
    Agrees (Widened hidden outer calls) (fun vs => ∀ v ∈ vs, v.Worded) (evalAll ev ds) := by
  induction ds with
  | nil => exact .pure (by simp)
  | cons d ds ih =>
      refine .bind (hds d (by simp)) fun v hv => ?_
      refine .bind (ih fun e he => hds e (by simp [he])) fun vs hvs => ?_
      exact .pure (List.forall_mem_cons.mpr ⟨hv, hvs⟩)

theorem call_overlooks {form : List Datum} (hform : ∀ d ∈ form, d.Worded) :
    Agrees (Widened hidden outer calls) Datum.Worded (call ev form) := by
  unfold call
  split
  · exact apply_overlooks hev (hform _ (by simp)) fun d hd => hform d (by simp [hd])
  · exact callBuiltin_overlooks hev _ fun d hd => hform d (List.mem_of_mem_tail hd)
  · exact .fail _

theorem evalList_overlooks {form : List Datum} (hform : ∀ d ∈ form, d.Worded) :
    Agrees (Widened hidden outer calls) Datum.Worded (evalList ev form) := by
  unfold evalList
  split
  · exact .fail _
  · split
    · exact evalForm_overlooks hev _ hform
    · exact .bind (evalAll_overlooks fun d hd => hev.worded (hform d hd) calls) fun vs hvs =>
        call_overlooks hev hvs

/-- The call that a procedure makes which stands for a builtin. -/
theorem evalNative_overlooks (name : Name) {params : List Name}
    (hparams : ∀ n ∈ params, BoundIn calls n) :
    Agrees (Widened hidden outer calls) Datum.Worded
      (evalList ev (.builtin name :: params.map .symbol)) := by
  have args : Agrees (Widened hidden outer calls) (fun vs => ∀ v ∈ vs, v.Worded)
      (evalAll ev (params.map .symbol)) := by
    refine evalAll_overlooks fun d hd => ?_
    obtain ⟨n, hn, rfl⟩ := List.mem_map.mp hd
    exact hev.param (hparams n hn)
  refine .bind (V := fun vs => ∃ args, vs = .builtin name :: args ∧ ∀ v ∈ args, v.Worded) ?_ ?_
  · refine .bind (hev.builtin name calls) fun v hv => .bind args fun vs hvs => .pure ⟨vs, ?_, hvs⟩
    rw [hv]
  · rintro _ ⟨args, rfl, hargs⟩
    exact callBuiltin_overlooks hev name hargs

omit hev in
/-- A name with the same value in both worlds. -/
theorem evalSymbol_overlooks {n : Name} (hn : BoundIn calls n ∨ hidden.find? n = none) :
    Agrees (Widened hidden outer calls) Datum.Worded (evalLayer ev (.symbol n)) := by
  intro w w' h
  simp only [evalLayer, Act.get_bind, h.find?_eq hn]
  cases hd : w.find? n with
  | some d => exact .ok (h.all.find? hd) h
  | none => exact .error _ h

end

/-- A frame that binds no name that can be written is overlooked by evaluation. -/
theorem evaluate_overlooks {hidden : Named Datum} (outer : List (Named Datum))
    (hidden_names : ∀ n : Name, n.Spelled → hidden.find? n = none) (fuel : Nat) :
    Overlooks hidden outer (evaluate fuel) := by
  induction fuel with
  | zero =>
      exact ⟨fun _ _ => .halt _, fun _ _ _ _ => .halt _, fun _ _ => .halt _, fun _ => .halt _⟩
  | succ fuel ih =>
      refine ⟨fun {d} hd calls => ?_, fun name params calls hp => evalNative_overlooks ih name hp,
        fun name calls => .pure rfl, fun hn => evalSymbol_overlooks (.inl hn)⟩
      cases hd with
      | int v => exact .pure (.int v)
      | bool b => exact .pure (.bool b)
      | symbol hn => exact evalSymbol_overlooks (.inr (hidden_names _ hn))
      | quote hd =>
          refine .pure ?_
          split
          · exact .quote hd
          · exact hd
      | list hds => exact evalList_overlooks ih hds
      | lambda hb hk => exact .pure (.lambda hb hk)
      | standing name hb => exact .pure (.standing name hb)

end Tree

end CellScheme
