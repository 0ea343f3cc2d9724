import CellScheme.Proofs.Lawful.Basic

/-!
Native procedures and special forms lead to values. Natives look at arguments that are values; only
one of them evaluates anything, and that may be of any size. Special forms evaluate parts of the
form.
-/

namespace CellScheme

open CellScheme.Tree (World)

variable {R : Regime} {limit : Int} {depth : Nat} {m m' : Machine} {aside : Set Cell}
  {X Y F N : Multiset Cell}

/-- What the frame reaches stays visible and keeps its tree. -/
theorem Machine.Fit.keeps {V : List Name → Datum → Prop} (h : m.Fit V K limit depth aside X F)
    (h' : m'.Fit V K limit depth aside Y (N + F)) (k : m.Kept aside F m') {x : Node}
    (hx : m.store.Visible F x) : m'.store.Visible (N + F) x ∧ m'.view x = m.view x :=
  ⟨(k.store.visible hx).mono (Multiset.le_add_left _ _),
    h.sound.view_eq h'.sound (Multiset.le_add_left _ _) k hx⟩

theorem Regime.Leads.ofExcept_bind {α : Type} {Q : List Name → Datum → Prop}
    (h : m.Fit R.value R.native limit depth aside X F) {e : Except Failure α}
    {f : Evaluator → α → Act Node} (stop : ∀ f, e = .error f → R.halts (.failed f))
    (next : ∀ a, e = .ok a → R.Leads aside F m (fun ev => f ev a) Q) :
    R.Leads aside F m (fun ev => Act.ofExcept e >>= f ev) Q := by
  cases e with
  | ok a => exact next a rfl
  | error e => exact .congr (.halt h (stop e rfl)) fun _ => rfl

namespace Check

/-- The position that the check looks at is one of an argument. -/
def InRange (form : List Datum) : Check → Prop
  | .count _ => True
  | .kind i _ | .quotedList i | .nonEmptyList i => 1 ≤ i ∧ i < form.length

variable {name : Name} {form : List Datum} {f : Failure}

theorem argument_of_inRange {i : Int} (h : 1 ≤ i ∧ i < form.length) :
    ∃ d, argument name form i = .ok d := by
  obtain ⟨k, rfl⟩ : ∃ k : Nat, i = k + 1 := ⟨(i - 1).toNat, by omega⟩
  have hk : k + 1 < form.length := by omega
  exact ⟨form[k + 1], argument_eq (List.getElem?_eq_getElem hk)⟩

theorem quotedListAt_outward {i : Int} (h : 1 ≤ i ∧ i < form.length)
    (hf : quotedListAt name form i = .error f) : f.Outward := by
  obtain ⟨d, hd⟩ : ∃ d, argument name form i = .ok d := argument_of_inRange h
  simp only [quotedListAt, hd] at hf
  split at hf
  · cases hf
  · cases hf
    trivial

theorem run_outward {c : Check} (h : c.InRange form) (hf : c.run name form = .error f) :
    f.Outward := by
  cases c with
  | count n =>
      simp only [run] at hf
      split at hf
      · cases hf
      · cases hf
        trivial
  | kind i k =>
      obtain ⟨d, hd⟩ : ∃ d, argument name form i = .ok d := argument_of_inRange h
      simp only [run, hd] at hf
      split at hf
      · cases hf
      · cases hf
        trivial
  | quotedList i =>
      simp only [run] at hf
      split at hf
      · rename_i e he
        cases hf
        exact quotedListAt_outward h he
      · cases hf
  | nonEmptyList i =>
      simp only [run] at hf
      split at hf
      · rename_i e he
        cases hf
        exact quotedListAt_outward h he
      · split at hf
        · cases hf
          trivial
        · cases hf

theorem runAll_outward {cs : List Check} (h : ∀ c ∈ cs, c.InRange form)
    (hf : runAll name form cs = .error f) : f.Outward := by
  induction cs with
  | nil => cases hf
  | cons c cs ih =>
      rw [runAll] at hf
      split at hf
      · rename_i he
        cases hf
        exact run_outward (h c (by simp)) he
      · exact ih (fun d hd => h d (by simp [hd])) hf

/-- The first check counts the arguments, so that the others find what they look at. -/
theorem runAll_count_outward {n : Int} {cs : List Check}
    (h : (form.length : Int) - 1 = n → ∀ c ∈ cs, c.InRange form)
    (hf : runAll name form (.count n :: cs) = .error f) : f.Outward := by
  rw [runAll] at hf
  split at hf
  · rename_i he
    cases hf
    exact run_outward (c := .count n) trivial he
  · rename_i hn
    exact runAll_outward (h (run_count.mp hn)) hf

end Check

namespace Native

theorem checks_outward (n : Native) {name : Name} {form : List Datum} {f : Failure}
    (hf : Check.runAll name form n.checks = .error f) : f.Outward := by
  cases n with
  | identical | equal | atom | null | eval | query _ =>
      exact Check.runAll_count_outward (by simp) hf
  | car | cdr | cons | zero | step _ =>
      refine Check.runAll_count_outward (fun hlen => List.forall_mem_singleton.mpr ?_) hf
      simp only [Check.InRange]
      omega
  | arith _ =>
      refine Check.runAll_count_outward (fun hlen => List.forall_mem_cons.mpr ⟨?_, ?_⟩) hf
      · simp only [Check.InRange]
        omega
      · refine List.forall_mem_singleton.mpr ?_
        simp only [Check.InRange]
        omega

theorem Offered.known {n : Native} (h : n.Offered) (name : String) :
    n ≠ .arith (.unknown name) ∧ n ≠ .query (.unknown name) := by
  obtain ⟨p, hp, rfl⟩ := h
  have hall : ∀ p ∈ Builtin.all, p.2.native ≠ .arith (.unknown name) ∧
      p.2.native ≠ .query (.unknown name) := by
    simp [Builtin.all, Builtin.core, Builtin.arithmetic, Builtin.queries]
  exact hall p hp

/-- An operator that is offered fails on account of its operands only. -/
theorem Offered.compute_outward {op : IntOp} (h : (Native.arith op).Offered) {form : List Datum}
    {a b : Int64} {f : Failure} (hf : op.compute form a b = .error f) : f.Outward := by
  cases op with
  | add | sub | mul => cases hf
  | div =>
      rw [IntOp.compute] at hf
      split at hf
      · cases hf
        trivial
      · cases hf
  | unknown name => exact absurd rfl (h.known name).1

theorem runQuery_leads (h : m.Fit R.value R.native limit depth aside 0 F) {x : Node}
    (hx : m.store.Visible F x) {q : Query} (hq : R.native (.query q)) :
    R.Leads aside F m (fun _ => runQuery q x) R.value := by
  cases q with
  | symbol =>
      exact .makes h (fun _ => rfl) (runSymbolQuery_makes h.sound hx) (R.law.bool _ _)
  | list | number | boolean | procedure =>
      exact .congr (.pure (v := .bool _) h (R.law.bool _ _)) fun _ => rfl
  | unknown name =>
      rcases R.knows with known | any
      · exact absurd rfl ((known _ hq).known name).2
      · exact .congr (.halt h (any _)) fun _ => rfl

theorem runChecked_leads (hany : R.Evaluates limit depth R.expr fun _ => R.value)
    (h : m.Fit R.value R.native limit depth aside 0 F) {n : Native} (hn : R.native n)
    {form : List Node} (hv : ∀ x ∈ form, m.store.Visible F x)
    (hval : ∀ x ∈ form.tail, R.value m.defined (m.view x))
    {name : Name} (hc : Check.runAll name (m.store.viewSeq form) n.checks = .ok ()) :
    R.Leads aside F m (fun ev => n.runChecked ev form) R.value := by
  have law := R.law
  cases n with
  | car =>
      obtain ⟨h1, h2⟩ := Check.runAll_cons.mp hc
      obtain ⟨a, x, rfl⟩ := form_of_length_two (Check.run_count.mp h1)
      have ne := (Check.run_nonEmptyList (i := 0) rfl).mp (Check.runAll_cons.mp h2).1
      obtain ⟨d, ds, hd⟩ := List.exists_cons_of_ne_nil ne
      have hx : R.expr m.defined (m.view x) := law.expr (hval x (by simp))
      refine .makes h (fun _ => rfl) (runCar_makes h.sound (hv x (by simp)) hd) (law.requote ?_)
      exact law.quotedElements hx d (hd ▸ List.mem_cons_self)
  | cdr =>
      obtain ⟨h1, h2⟩ := Check.runAll_cons.mp hc
      obtain ⟨a, x, rfl⟩ := form_of_length_two (Check.run_count.mp h1)
      have ne := (Check.run_nonEmptyList (i := 0) rfl).mp (Check.runAll_cons.mp h2).1
      obtain ⟨d, ds, hd⟩ := List.exists_cons_of_ne_nil ne
      have hx : R.expr m.defined (m.view x) := law.expr (hval x (by simp))
      refine .makes h (fun _ => rfl) (runCdr_makes h.sound (hv x (by simp)) hd) ?_
      refine law.quoted (law.list.mpr fun e he => law.quotedElements hx e ?_) rfl
      exact hd ▸ List.mem_cons_of_mem d he
  | cons =>
      obtain ⟨h1, h2⟩ := Check.runAll_cons.mp hc
      obtain ⟨a, x, y, rfl⟩ := form_of_length_three (Check.run_count.mp h1)
      have hq := (Check.run_quotedList (i := 1) rfl).mp (Check.runAll_cons.mp h2).1
      have hx : R.expr m.defined (m.view x) := law.expr (hval x (by simp))
      have hy : R.expr m.defined (m.view y) := law.expr (hval y (by simp))
      refine .makes h (fun _ => rfl)
        (runCons_makes h.sound (hv x (by simp)) (hv y (by simp)) hq) ?_
      refine law.quoted (law.list.mpr (List.forall_mem_cons.mpr ⟨law.unquote hx, ?_⟩)) rfl
      exact law.quotedElements hy
  | identical | equal =>
      obtain ⟨h1, _⟩ := Check.runAll_cons.mp hc
      obtain ⟨a, x, y, rfl⟩ := form_of_length_three (Check.run_count.mp h1)
      exact .congr (.pure (v := .bool _) h (law.bool _ _)) fun _ => rfl
  | atom | null =>
      obtain ⟨h1, _⟩ := Check.runAll_cons.mp hc
      obtain ⟨a, x, rfl⟩ := form_of_length_two (Check.run_count.mp h1)
      exact .congr (.pure (v := .bool _) h (law.bool _ _)) fun _ => rfl
  | zero =>
      obtain ⟨h1, h2⟩ := Check.runAll_cons.mp hc
      obtain ⟨a, x, rfl⟩ := form_of_length_two (Check.run_count.mp h1)
      have hk := (Check.run_kind (i := 0) rfl).mp (Check.runAll_cons.mp h2).1
      obtain ⟨a, rfl⟩ := int_of_kind h.sound (hv x (by simp)) hk
      exact .congr (.pure (v := .bool _) h (law.bool _ _)) fun _ => rfl
  | step _ =>
      obtain ⟨h1, h2⟩ := Check.runAll_cons.mp hc
      obtain ⟨a, x, rfl⟩ := form_of_length_two (Check.run_count.mp h1)
      have hk := (Check.run_kind (i := 0) rfl).mp (Check.runAll_cons.mp h2).1
      obtain ⟨a, rfl⟩ := int_of_kind h.sound (hv x (by simp)) hk
      exact .congr (.pure (v := .int _) h (law.int _ _)) fun _ => rfl
  | arith op =>
      obtain ⟨h1, h2⟩ := Check.runAll_cons.mp hc
      obtain ⟨h2, h3⟩ := Check.runAll_cons.mp h2
      obtain ⟨f, x, y, rfl⟩ := form_of_length_three (Check.run_count.mp h1)
      have hx := (Check.run_kind (i := 0) rfl).mp h2
      have hy := (Check.run_kind (i := 1) rfl).mp (Check.runAll_cons.mp h3).1
      obtain ⟨a, rfl⟩ := int_of_kind h.sound (hv x (by simp)) hx
      obtain ⟨b, rfl⟩ := int_of_kind h.sound (hv y (by simp)) hy
      refine .congr (.ofExcept_bind h (fun f hf => ?_) fun v _ => ?_) fun _ => rfl
      · rcases R.knows with known | any
        · exact R.fails f ((known _ hn).compute_outward hf)
        · exact any f
      · exact .pure (v := .int v) h (law.int _ v)
  | eval =>
      obtain ⟨h1, _⟩ := Check.runAll_cons.mp hc
      obtain ⟨a, x, rfl⟩ := form_of_length_two (Check.run_count.mp h1)
      obtain ⟨he, hq⟩ := quotedExpr_view h.sound (hv x (by simp))
      have hx : R.expr m.defined (m.view x) := law.expr (hval x (by simp))
      exact .congr (hany.copy h hq (he ▸ law.unquote hx)) fun _ => rfl
  | query q =>
      obtain ⟨h1, _⟩ := Check.runAll_cons.mp hc
      obtain ⟨a, x, rfl⟩ := form_of_length_two (Check.run_count.mp h1)
      exact runQuery_leads h (hv x (by simp)) hn

theorem run_leads (hany : R.Evaluates limit depth R.expr fun _ => R.value)
    (h : m.Fit R.value R.native limit depth aside 0 F) {n : Native} (hn : R.native n)
    {form : List Node} (hv : ∀ x ∈ form, m.store.Visible F x)
    (hval : ∀ x ∈ form.tail, R.value m.defined (m.view x)) (name : Name) :
    R.Leads aside F m (fun ev => n.run ev name form) R.value := by
  refine .congr (.ofExcept_bind h (fun f hf => R.fails f (n.checks_outward hf)) fun _ hc => ?_)
    fun _ => rfl
  exact runChecked_leads hany h hn hv hval hc

end Native

theorem callBuiltin_leads (hany : R.Evaluates limit depth R.expr fun _ => R.value)
    (h : m.Fit R.value R.native limit depth aside 0 F) {form : List Node}
    (hv : ∀ x ∈ form, m.store.Visible F x) (hval : ∀ x ∈ form.tail, R.value m.defined (m.view x))
    (name : Name) : R.Leads aside F m (fun ev => callBuiltin ev name form) R.value := by
  cases hf : m.builtins.find? name with
  | none =>
      refine .congr (.fail h (.runtime (.unknownBuiltin name)) trivial) fun _ => ?_
      simp only [callBuiltin, Act.get_bind, hf]
  | some b =>
      obtain ⟨es, he⟩ := foldl_log
        (fun m hook => .before hook name (m.store.viewSeq form) m.depth) m.before m
      have hn : R.native b.native := h.natives b (Named.mem_values_of_lookup hf)
      have hr := Native.run_leads hany (h.logged es) hn hv hval name
      refine .after (.logged m aside F es) rfl (.bind (f := fun _ x => do
        modify fun m => m.after.foldl (fun m hook => m.log (.after hook name (m.view x) m.depth)) m
        return x) (h.logged es) hr fun v m' N h' _ hv' => ?_) fun ev => ?_
      · obtain ⟨es', he'⟩ := foldl_log
          (fun m hook => .after hook name (m.view v) m.depth) m'.after m'
        refine .after (.logged m' aside _ es') rfl (.pure (h'.logged es') hv') fun _ => ?_
        simp only [Act.modify_bind, he']
      · simp only [callBuiltin, Act.get_bind, hf, Act.modify_bind, he]

namespace Regime

variable {s : Nat}

theorem Below.element {ns : List Name} {ds : List Datum} (h : R.Below s ns (.list ds)) {d : Datum}
    (hd : d ∈ ds) : R.Below s ns d := by
  refine ⟨R.law.list.mp h.1 d hd, lt_trans ?_ h.2⟩
  have hlt := List.sizeOf_lt_of_mem hd
  rw [Datum.list.sizeOf_spec]
  omega

end Regime

/-- The parts of the clauses stand in clauses of the form. -/
theorem Tree.mem_of_clauses {form ds : List Datum} {cs : List (Datum × Datum)} {last : Datum}
    (h : Tree.clauses form ds = .ok (cs, last)) :
    (∃ test, .list [test, last] ∈ ds) ∧ ∀ c ∈ cs, .list [c.1, c.2] ∈ ds := by
  induction ds generalizing cs with
  | nil => cases h
  | cons d ds ih =>
      rw [Tree.clauses] at h
      split at h
      · cases h
      · rename_i test result hc
        obtain rfl : d = .list [test, result] := by
          unfold Tree.clause? at hc
          split at hc
          · simp_all
          · cases hc
        split at h
        · split at h
          · obtain ⟨rfl, rfl⟩ : cs = [] ∧ last = result := by simp_all
            exact ⟨⟨test, by simp⟩, by simp⟩
          · cases h
        · split at h
          · cases h
          · cases hr : Tree.clauses form ds with
            | error e => simp [hr, Except.map] at h
            | ok rest =>
                obtain ⟨cs', last'⟩ := rest
                obtain ⟨rfl, rfl⟩ : cs = (test, result) :: cs' ∧ last = last' := by
                  simp_all [Except.map]
                obtain ⟨⟨t, ht⟩, hcs⟩ := ih hr
                refine ⟨⟨t, by simp [ht]⟩, fun c hc => ?_⟩
                rcases List.mem_cons.mp hc with rfl | hc
                · simp
                · exact List.mem_cons_of_mem _ (hcs c hc)

namespace SpecialForm

variable {s : Nat} {form : List Node}

theorem runDefine_leads (hev : R.Evaluates limit depth (R.Below s) fun _ => R.value)
    (h : m.Fit R.value R.native limit depth aside 0 F) (hv : ∀ x ∈ form, m.store.Visible F x)
    (hs : ∀ x ∈ form, R.Below s m.defined (m.view x)) :
    R.Leads aside F m (fun ev => runDefine ev form) R.value := by
  match form, hv, hs with
  | [_, target, expr], hv, hs =>
      cases target with
      | symbol name =>
          have he := hev.copy h (hv expr (by simp)) (hs expr (by simp))
          refine .congr (.bind h he fun v m' N h' k hv' => ?_) fun _ => rfl
          have hsub := (Machine.Defines.of_define m' name v).listed.subset
          refine .of_eq (fun _ => rfl)
            (fun t => (define_refines h'.sound name).congr False.elim) ⟨?_, ?_⟩
          · rw [World.of_define]
            exact (h'.all.define name hv').imp fun d hd => R.law.value_grows hsub hd
          · have ht := (hs (.symbol name) (by simp)).1
            have hgrown := R.law.expr_grows (List.Subset.trans k.scopes.listed.subset hsub) ht
            exact R.law.defined hgrown (Machine.mem_defined_define.mpr (.inr rfl))
      | int _ | bool _ | builtin _ | quote _ | list _ | lambda _ _ _ =>
          exact .congr (.fail h _ (by trivial)) fun _ => rfl
  | [], _, _ | [_], _, _ | [_, _], _, _ | _ :: _ :: _ :: _ :: _, _, _ =>
      exact .congr (.fail h _ (by trivial)) fun _ => rfl

/-- Parameters that were accepted are distinct. -/
theorem paramNames_nodup {seen names : List Name} {xs : List Node}
    (h : paramNames m seen xs = .ok names) (hs : seen.Nodup) : names.Nodup := by
  induction xs generalizing seen with
  | nil =>
      obtain rfl := Except.ok.inj h
      exact List.nodup_reverse.mpr hs
  | cons x xs ih =>
      cases x with
      | symbol name =>
          rw [paramNames] at h
          split at h
          · cases h
          · rename_i hnew
            exact ih h (List.nodup_cons.mpr ⟨by simpa using hnew, hs⟩)
      | int _ | bool _ | builtin _ | quote _ | list _ | lambda _ _ _ => cases h

theorem runLambda_leads (h : m.Fit R.value R.native limit depth aside 0 F)
    (hv : ∀ x ∈ form, m.store.Visible F x) (hs : ∀ x ∈ form, R.Below s m.defined (m.view x)) :
    R.Leads aside F m (fun _ => runLambda form) R.value := by
  match form, hv, hs with
  | [_, params, body], hv, hs =>
      cases params with
      | list c =>
          cases hc : paramNames m [] (m.store.elements c) with
          | error e =>
              refine .congr (.fail h (.badSyntax e) trivial) fun _ => ?_
              simp only [runLambda, Act.get_bind, hc]
          | ok names =>
              have hb : R.expr m.defined (m.view body) := (hs body (by simp)).1
              refine .makes h (fun _ => ?_) (makeLambda_makes h.sound (hv body (by simp)) names)
                (R.law.own (R.law.closure (paramNames_nodup hc List.nodup_nil) hb) rfl)
              simp only [runLambda, Act.get_bind, hc]
      | int _ | bool _ | builtin _ | quote _ | symbol _ | lambda _ _ _ =>
          exact .congr (.fail h _ (by trivial)) fun _ => rfl
  | [], _, _ | [_], _, _ | [_, _], _, _ | _ :: _ :: _ :: _ :: _, _, _ =>
      exact .congr (.fail h _ (by trivial)) fun _ => rfl

theorem runClauses_leads (hev : R.Evaluates limit depth (R.Below s) fun _ => R.value)
    {last : Node} {cs : List (Node × Node)} (h : m.Fit R.value R.native limit depth aside 0 F)
    (hl : m.store.Visible F last ∧ R.Below s m.defined (m.view last))
    (hcs : ∀ c ∈ cs, (m.store.Visible F c.1 ∧ R.Below s m.defined (m.view c.1)) ∧
      m.store.Visible F c.2 ∧ R.Below s m.defined (m.view c.2)) :
    R.Leads aside F m (fun ev => runClauses ev last cs) R.value := by
  induction cs generalizing m F with
  | nil => exact hev.copy h hl.1 hl.2
  | cons c cs ih =>
      obtain ⟨test, result⟩ := c
      obtain ⟨ht, hr⟩ := hcs _ List.mem_cons_self
      refine .congr (.bind h (hev.copy h ht.1 ht.2) fun v m' N h' k _ => ?_) fun _ => rfl
      have keep : ∀ {x}, m.store.Visible F x ∧ R.Below s m.defined (m.view x) →
          m'.store.Visible (N + F) x ∧ R.Below s m'.defined (m'.view x) := by
        intro x hx
        obtain ⟨hx', e⟩ := h.keeps h' k hx.1
        exact ⟨hx', e ▸ R.below_grows s k.scopes.listed.subset hx.2⟩
      by_cases hb : v = .bool true
      · subst hb
        exact hev.copy h'.forget (keep hr).1 (keep hr).2
      · refine .congr (ih h'.forget (keep hl) fun c hc => ?_) fun ev => ?_
        · have hc' := hcs c (by simp [hc])
          exact ⟨keep hc'.1, keep hc'.2⟩
        · split
          · contradiction
          · rfl

theorem runCond_leads (hev : R.Evaluates limit depth (R.Below s) fun _ => R.value)
    (h : m.Fit R.value R.native limit depth aside 0 F) (hv : ∀ x ∈ form, m.store.Visible F x)
    (hs : ∀ x ∈ form, R.Below s m.defined (m.view x)) :
    R.Leads aside F m (fun ev => runCond ev form) R.value := by
  by_cases hlen : form.length < 3
  · refine .congr (.fail h (.badSyntax (.condShape (m.store.viewSeq form))) trivial) fun _ => ?_
    simp only [runCond, if_pos hlen]
    rfl
  · cases hc : clauses m form form.tail with
    | error e =>
        refine .congr (.fail h (.badSyntax e) trivial) fun _ => ?_
        simp only [runCond, if_neg hlen, Act.get_bind, hc]
    | ok rest =>
        obtain ⟨cs, last⟩ := rest
        obtain ⟨he, hvis⟩ := clauses_view h.sound form fun x hx => hv x (List.mem_of_mem_tail hx)
        obtain ⟨hl, hcs⟩ := hvis cs last hc
        rw [hc] at he
        obtain ⟨⟨t, hlast⟩, hmem⟩ := Tree.mem_of_clauses he
        have clause : ∀ d ∈ m.store.viewSeq form.tail, R.Below s m.defined d := by
          intro d hd
          obtain ⟨x, hx, rfl⟩ := List.mem_map.mp hd
          exact hs x (List.mem_of_mem_tail hx)
        have hlead : R.Leads aside F m (fun ev => runClauses ev last cs) R.value := by
          refine runClauses_leads hev h ⟨hl, (clause _ hlast).element (by simp)⟩ fun c hc => ?_
          have hb := clause _ (hmem _ (List.mem_map_of_mem hc))
          exact ⟨⟨(hcs c hc).1, hb.element (by simp [viewClause])⟩, (hcs c hc).2,
            hb.element (by simp [viewClause])⟩
        refine hlead.congr fun _ => ?_
        simp only [runCond, if_neg hlen, Act.get_bind, hc]

theorem runOperands_leads (hev : R.Evaluates limit depth (R.Below s) fun _ => R.value)
    (stop : Bool) {first : Node} {xs : List Node} (h : m.Fit R.value R.native limit depth aside 0 F)
    (hv : ∀ x ∈ first :: xs, m.store.Visible F x)
    (hs : ∀ x ∈ first :: xs, R.Below s m.defined (m.view x)) :
    R.Leads aside F m (fun ev => runOperands ev stop first xs) R.value := by
  induction xs generalizing m F first with
  | nil => exact hev.copy h (hv first (by simp)) (hs first (by simp))
  | cons x xs ih =>
      have he := hev.copy h (hv first (by simp)) (hs first (by simp))
      refine .congr (.bind h he fun v m' N h' k _ => ?_) fun _ => rfl
      have keep := fun y (hy : y ∈ x :: xs) => h.keeps h' k (hv y (List.mem_cons_of_mem _ hy))
      have rest : R.Leads aside (N + F) m' (fun ev => runOperands ev stop x xs) R.value := by
        refine ih h'.forget (fun y hy => (keep y hy).1) fun y hy => ?_
        rw [(keep y hy).2]
        exact R.below_grows s k.scopes.listed.subset (hs y (List.mem_cons_of_mem _ hy))
      by_cases hb : v = .bool stop
      · subst hb
        refine .congr (.pure (v := .bool stop) h'.forget (R.law.bool _ stop)) fun _ => ?_
        simp only [if_true]
      · refine .congr rest fun _ => ?_
        split
        · rename_i b
          rw [if_neg fun e => hb (congrArg Node.bool e)]
        · rfl

theorem runLogical_leads (hev : R.Evaluates limit depth (R.Below s) fun _ => R.value)
    (name : String) (stop : Bool) (h : m.Fit R.value R.native limit depth aside 0 F)
    (hv : ∀ x ∈ form, m.store.Visible F x) (hs : ∀ x ∈ form, R.Below s m.defined (m.view x)) :
    R.Leads aside F m (fun ev => runLogical ev name stop form) R.value := by
  match form, hv, hs with
  | [], _, _ | [_], _, _ => exact .congr (.fail h _ (by trivial)) fun _ => rfl
  | _ :: x :: xs, hv, hs =>
      exact runOperands_leads hev stop h (fun y hy => hv y (List.mem_cons_of_mem _ hy))
        fun y hy => hs y (List.mem_cons_of_mem _ hy)

theorem run_leads (hev : R.Evaluates limit depth (R.Below s) fun _ => R.value) (f : SpecialForm)
    (h : m.Fit R.value R.native limit depth aside 0 F) (hv : ∀ x ∈ form, m.store.Visible F x)
    (hs : ∀ x ∈ form, R.Below s m.defined (m.view x)) :
    R.Leads aside F m (fun ev => f.run ev form) R.value := by
  cases f with
  | define => exact runDefine_leads hev h hv hs
  | lambda => exact runLambda_leads h hv hs
  | cond => exact runCond_leads hev h hv hs
  | and => exact runLogical_leads hev "and" false h hv hs
  | or => exact runLogical_leads hev "or" true h hv hs

end SpecialForm

end CellScheme
