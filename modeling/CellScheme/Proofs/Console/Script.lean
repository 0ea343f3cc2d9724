import CellScheme.Console
import CellScheme.Proofs.Evaluation.Blind

/-!
Scripts in parts. Evaluating trees one after the other may be broken off between two of them and
taken up again: the log of the first part is not read, and no tree that it gave changes. A console
that prints after each part prints what it prints after the whole.
-/

namespace CellScheme

namespace Machine

variable {φ : Machine → Machine} {m : Machine}

theorem foldl_log_comm (h : ∀ m (e : Event), e.trace? = none → φ (m.log e) = (φ m).log e)
    {e : String → Event} (he : ∀ hook, (e hook).trace? = none) (hooks : List String)
    (m : Machine) : φ (hooks.foldl (fun m hook => m.log (e hook)) m) =
      hooks.foldl (fun m hook => m.log (e hook)) (φ m) := by
  induction hooks generalizing m with
  | nil => rfl
  | cons hook hooks ih => rw [List.foldl_cons, List.foldl_cons, ih, h m _ (he hook)]

/-- The machine with events logged before its own. -/
def logAfter (es : Array Event) (m : Machine) : Machine :=
  { m with events := es ++ m.events }

theorem logAfter_flushed (m : Machine) : logAfter m.events { m with events := #[] } = m := by
  simp [logAfter]

theorem logAfter_log (es : Array Event) (m : Machine) (e : Event) :
    (m.log e).logAfter es = (m.logAfter es).log e := by
  simp only [log, logAfter, Array.append_push]

theorem blind_logAfter (es : Array Event) : Blind (·.logAfter es) where
  store _ := rfl
  scopes _ := rfl
  builtins _ := rfl
  limit _ := rfl
  setStore _ _ := rfl
  setScopes _ _ := rfl
  define _ _ _ := rfl
  trace m e _ := by
    change logAfter es (if m.tracing then _ else _) = if m.tracing then _ else _
    split
    · exact m.logAfter_log es e
    · rfl
  hooksBefore m e he := foldl_log_comm (fun m e _ => m.logAfter_log es e) he m.before m
  hooksAfter m e he := foldl_log_comm (fun m e _ => m.logAfter_log es e) he m.after m

/-- The machine as if it had never traced. -/
def untraced (m : Machine) : Machine :=
  { m with tracing := false, events := m.events.filter fun e => e.trace?.isNone }

theorem untraced_log (m : Machine) {e : Event} (he : e.trace? = none) :
    (m.log e).untraced = m.untraced.log e := by
  simp [log, untraced, he]

/-- Evaluation does not depend on tracing. -/
theorem blind_untraced : Blind untraced where
  store _ := rfl
  scopes _ := rfl
  builtins _ := rfl
  limit _ := rfl
  setStore _ _ := rfl
  setScopes _ _ := rfl
  define _ _ _ := rfl
  trace m e he := by
    change untraced (if m.tracing then _ else _) = untraced m
    split
    · obtain ⟨line, hline⟩ := Option.isSome_iff_exists.mp he
      simp [log, untraced, hline]
    · rfl
  hooksBefore m e he := foldl_log_comm (fun m e he => m.untraced_log he) he m.before m
  hooksAfter m e he := foldl_log_comm (fun m e he => m.untraced_log he) he m.after m

theorem traceText_untraced (m : Machine) : Event.traceText m.untraced.events = "" := by
  have hnone : m.untraced.events.toList.filterMap Event.trace? = [] := by
    refine List.filterMap_eq_nil_iff.mpr fun e he => ?_
    simpa [untraced] using (Array.mem_filter.mp (Array.mem_toList_iff.mp he)).2
  rw [Event.traceText, hnone]
  rfl

/-- Evaluating the trees in order gives these nodes, and no other outcome than values. -/
inductive Runs (fuel : Nat) : Machine → List Datum → List Node → Machine → Prop where
  | nil {m : Machine} : Runs fuel m [] [] m
  | cons {m m' m'' : Machine} {d : Datum} {ds : List Datum} {v : Node} {vs : List Node} :
      evalDatum fuel d m = .ok v m' → Runs fuel m' ds vs m'' → Runs fuel m (d :: ds) (v :: vs) m''

variable {fuel : Nat} {m' m'' : Machine} {ds ds' : List Datum} {vs vs' : List Node}

theorem Runs.evalSeq_eq (h : Runs fuel m ds vs m') (done : List Node) :
    evalSeq fuel m done ds = ((done.reverse ++ vs, none), m') := by
  induction h generalizing done with
  | nil => simp [evalSeq]
  | cons hd _ ih => simp [evalSeq, hd, ih]

/-- There is one run at most. -/
theorem Runs.unique (h : Runs fuel m ds vs m') (h' : Runs fuel m ds vs' m'') :
    vs = vs' ∧ m' = m'' := by
  have e := (h.evalSeq_eq []).symm.trans (h'.evalSeq_eq [])
  simpa using e

theorem runs_of_evalSeq {done : List Node} (h : (evalSeq fuel m done ds).1.2 = none) :
    ∃ vs m', Runs fuel m ds vs m' := by
  induction ds generalizing m done with
  | nil => exact ⟨[], m, .nil⟩
  | cons d ds ih =>
      rw [evalSeq] at h
      cases hd : evalDatum fuel d m with
      | error e m' => simp [hd] at h
      | ok v m' =>
          simp only [hd] at h
          obtain ⟨vs, m'', hr⟩ := ih h
          exact ⟨v :: vs, m'', .cons hd hr⟩

theorem Runs.append (h : Runs fuel m ds vs m') (h' : Runs fuel m' ds' vs' m'') :
    Runs fuel m (ds ++ ds') (vs ++ vs') m'' := by
  induction h with
  | nil => exact h'
  | cons hd _ ih => exact .cons hd (ih h')

theorem Runs.split (h : Runs fuel m (ds ++ ds') vs m'') :
    ∃ vs₁ vs₂ m', Runs fuel m ds vs₁ m' ∧ Runs fuel m' ds' vs₂ m'' ∧ vs = vs₁ ++ vs₂ := by
  induction ds generalizing m vs with
  | nil => exact ⟨[], vs, m, .nil, h, rfl⟩
  | cons d ds ih =>
      cases h with
      | cons hd hr =>
          obtain ⟨vs₁, vs₂, m', h₁, h₂, rfl⟩ := ih hr
          exact ⟨_, vs₂, m', .cons hd h₁, h₂, rfl⟩

/-- A change that evaluation does not see may be made before a run or after it. -/
theorem Runs.carry (hφ : Blind φ) (h : Runs fuel m ds vs m') : Runs fuel (φ m) ds vs (φ m') := by
  induction h with
  | nil => exact .nil
  | @cons m _ _ d _ _ _ hd _ ih =>
      have hp := hφ.passes_evalDatum fuel d m
      rw [hd] at hp
      exact .cons hp ih

theorem Runs.of_carry (hφ : Blind φ) (h : Runs fuel (φ m) ds vs m'') :
    ∃ m', Runs fuel m ds vs m' ∧ m'' = φ m' := by
  induction ds generalizing m vs with
  | nil =>
      cases h
      exact ⟨m, .nil, rfl⟩
  | cons d ds ih =>
      cases h with
      | cons hd hr =>
          have hp := hφ.passes_evalDatum fuel d m
          rw [hd] at hp
          cases he : evalDatum fuel d m with
          | error e m₁ =>
              rw [he] at hp
              cases hp
          | ok v m₁ =>
              rw [he] at hp
              cases hp
              obtain ⟨m', hr', rfl⟩ := ih hr
              exact ⟨m', .cons he hr', rfl⟩

theorem Runs.untraced (h : Runs fuel m ds vs m') (hm : m.untraced = m) : m'.untraced = m' := by
  have hr := h.carry blind_untraced
  rw [hm] at hr
  exact (h.unique hr).2.symm

/-- What a run finds it leaves, and what it gives is there. -/
theorem Runs.kept {X F : Multiset Cell} (h : Runs fuel m ds vs m') (hm : m.Sound False ∅ X F) :
    ∃ G, F ≤ G ∧ m'.Sound False ∅ 0 G ∧ m.Kept ∅ F m' ∧ ∀ v ∈ vs, m'.store.Visible G v := by
  induction h generalizing X F with
  | nil => exact ⟨F, le_rfl, hm.forget, .refl _ _ _, by simp⟩
  | @cons m m₁ m' d ds v vs hd _ ih =>
      have hr := evalDatum_refines fuel hm d
      rw [hd] at hr
      obtain ⟨N, o, _⟩ := hr
      have hle : F ≤ v.cells + (N + F) :=
        (Multiset.le_add_left _ _).trans (Multiset.le_add_left _ _)
      obtain ⟨G, hG, hs, hk, hv⟩ := ih o.sound.keepAll
      refine ⟨G, hle.trans hG, hs, o.kept.trans (hk.mono subset_rfl hle), ?_⟩
      refine List.forall_mem_cons.mpr ⟨(hk.store.visible ?_).mono hG, hv⟩
      exact .root

end Machine

namespace Console

open Machine (Runs)

variable {fuel : Nat} {c : Console} {m m₁ m₂ : Machine} {ds ds₁ ds₂ : List Datum}
  {vs vs₁ vs₂ : List Node}

def shown (json : Bool) (m : Machine) (vs : List Node) : String :=
  String.join (vs.map fun x => (if json then (m.view x).jsonText else (m.view x).print) ++ "\n")

/-- The console after a run that gave these values. -/
def results (c : Console) (m : Machine) (vs : List Node) : Console :=
  { c with machine := m }.flushEvents.showAll vs

theorem shown_cons (json : Bool) (m : Machine) (x : Node) (xs : List Node) :
    shown json m (x :: xs) = (if json then (m.view x).jsonText else (m.view x).print) ++ "\n" ++
      shown json m xs := by
  rw [shown, List.map_cons, String.join_cons]
  rfl

theorem showAll_eq (c : Console) (xs : List Node) :
    c.showAll xs =
      { c with out := c.out ++ shown c.json c.machine xs, last := xs.getLast?.or c.last } := by
  induction xs generalizing c with
  | nil => simp [showAll, shown]
  | cons x xs ih =>
      have hstep : c.showAll (x :: xs) = ({ c with last := some x }.display x).showAll xs := rfl
      have hlast : (x :: xs).getLast?.or c.last = xs.getLast?.or (some x) := by
        rw [List.getLast?_cons]
        cases xs.getLast? <;> rfl
      rw [hstep, ih, shown_cons, hlast]
      simp only [display, printLine, print, String.append_assoc]

theorem results_eq (c : Console) (m : Machine) (vs : List Node) :
    c.results m vs =
      { c with
        machine := { m with events := #[] }
        calls := countCalls c.calls m.events
        out := c.out ++ Event.traceText m.events ++ shown c.json m vs
        last := vs.getLast?.or c.last } := by
  rw [results, showAll_eq]
  rfl

theorem machine_results (c : Console) (m : Machine) (vs : List Node) :
    (c.results m vs).machine = { m with events := #[] } := by
  rw [results_eq]

theorem evalLine_of_runs {text : String} (hp : Datum.parseAll text = .ok ds)
    (hr : Runs fuel c.machine ds vs m) : c.evalLine fuel text = (none, c.results m vs) := by
  simp only [evalLine, Machine.evalScript, hp, hr.evalSeq_eq, List.reverse_nil, List.nil_append]
  rfl

theorem runs_of_evalLine {text : String} (hp : Datum.parseAll text = .ok ds)
    (h : (c.evalLine fuel text).1 = none) : ∃ vs m, Runs fuel c.machine ds vs m := by
  simp only [evalLine, Machine.evalScript, hp] at h
  cases he : (Machine.evalSeq fuel c.machine [] ds).1.2 with
  | none => exact Machine.runs_of_evalSeq he
  | some e => simp [he] at h

/-- Between two lines: nothing is logged or traced, the counts are right, and there is no line
editor. -/
structure Ready (c : Console) : Prop where
  quiet : c.machine.events = #[]
  untraced : c.machine.tracing = false
  sound : ∃ F, c.machine.Sound False ∅ 0 F
  plain : c.history = none

theorem Ready.untraced_eq (hc : c.Ready) : c.machine.untraced = c.machine := by
  have he : c.machine.events.filter (fun e => e.trace?.isNone) = c.machine.events := by
    rw [hc.quiet]
    rfl
  rw [Machine.untraced, he, ← hc.untraced]

/-- Nothing is printed and nothing changes if there is nothing to evaluate. -/
theorem Ready.results_nil (hc : c.Ready) : c.results c.machine [] = c := by
  have hm : { c.machine with events := #[] } = c.machine := by rw [← hc.quiet]
  rw [results_eq, hm, hc.quiet]
  simp [countCalls, Event.traceText, shown]

theorem Ready.results (hc : c.Ready) (h : Runs fuel c.machine ds vs m) :
    (c.results m vs).Ready := by
  obtain ⟨F, hs⟩ := hc.sound
  obtain ⟨G, _, hm, _⟩ := h.kept hs
  have ht : m.tracing = false := by
    rw [← h.untraced hc.untraced_eq]
    rfl
  rw [results_eq]
  exact ⟨rfl, ht, ⟨G, hm.logged #[]⟩, hc.plain⟩

theorem Ready.traceText (hc : c.Ready) (h : Runs fuel c.machine ds vs m) :
    Event.traceText m.events = "" := by
  rw [← h.untraced hc.untraced_eq]
  exact m.traceText_untraced

theorem Ready.out_results (hc : c.Ready) (h : Runs fuel c.machine ds vs m) :
    (c.results m vs).out = c.out ++ shown c.json m vs := by
  rw [results_eq, hc.traceText h, String.append_empty]

/-- The rest of a run goes on from the console after the first part. -/
theorem runs_results (c : Console) (vs₁ : List Node) (h : Runs fuel m₁ ds vs m) :
    ∃ m', Runs fuel (c.results m₁ vs₁).machine ds vs m' := by
  rw [← Machine.logAfter_flushed m₁] at h
  obtain ⟨m', hr, _⟩ := h.of_carry (Machine.blind_logAfter m₁.events)
  rw [machine_results]
  exact ⟨m', hr⟩

/-- Evaluating and printing in two parts, and all at once. -/
theorem Ready.results_append (hc : c.Ready) (h₁ : Runs fuel c.machine ds₁ vs₁ m₁)
    (h₂ : Runs fuel (c.results m₁ vs₁).machine ds₂ vs₂ m₂) :
    Runs fuel c.machine (ds₁ ++ ds₂) (vs₁ ++ vs₂) (m₂.logAfter m₁.events) ∧
      c.results (m₂.logAfter m₁.events) (vs₁ ++ vs₂) = (c.results m₁ vs₁).results m₂ vs₂ ∧
      shown c.json (m₂.logAfter m₁.events) (vs₁ ++ vs₂) =
        shown c.json m₁ vs₁ ++ shown c.json m₂ vs₂ := by
  have hc₁ := hc.results h₁
  have hr := h₂.carry (Machine.blind_logAfter m₁.events)
  rw [machine_results, Machine.logAfter_flushed] at hr
  -- The values of the first part are seen as they were.
  have hshown : shown c.json (m₂.logAfter m₁.events) vs₁ = shown c.json m₁ vs₁ := by
    obtain ⟨F, hs⟩ := hc.sound
    obtain ⟨G, _, hs₁, _, hv⟩ := h₁.kept hs
    rw [machine_results] at h₂
    have hs₁' := hs₁.logged #[]
    obtain ⟨G', hG, hs₂, hk, _⟩ := h₂.kept hs₁'
    refine congrArg String.join (List.map_congr_left fun x hx => ?_)
    have e : (m₂.logAfter m₁.events).view x = m₁.view x := hs₁'.view_eq hs₂ hG hk (hv x hx)
    rw [e]
  have hall : shown c.json (m₂.logAfter m₁.events) (vs₁ ++ vs₂) =
      shown c.json m₁ vs₁ ++ shown c.json m₂ vs₂ := by
    rw [← hshown, shown, List.map_append, String.join_append]
    rfl
  refine ⟨h₁.append hr, ?_, hall⟩
  have htrace := hc.traceText (h₁.append hr)
  have hcalls : countCalls c.calls (m₁.events ++ m₂.events) =
      countCalls (countCalls c.calls m₁.events) m₂.events := Array.foldl_append
  have hlast : (vs₁ ++ vs₂).getLast?.or c.last = vs₂.getLast?.or (vs₁.getLast?.or c.last) := by
    rw [List.getLast?_append, Option.or_assoc]
  rw [results_eq, results_eq, results_eq, hall, htrace, hc.traceText h₁, hc₁.traceText h₂, hlast]
  simp only [Machine.logAfter, hcalls, String.append_empty, String.append_assoc]

end Console

end CellScheme
