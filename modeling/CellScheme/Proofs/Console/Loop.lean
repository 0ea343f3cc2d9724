import CellScheme.Proofs.Console.Script
import CellScheme.Proofs.Host.Steps
import CellScheme.Proofs.Reading.Lines

/-!
The loop on a script. However the lines of a script are broken, the loop evaluates its expressions
in their order, each as soon as the line comes that completes it, and what it prints between the
prompts is what the script prints. Only a last line that is lost can make a difference.
-/

namespace CellScheme.Console

open Machine (Runs)

variable {fuel : Nat} {c : Console} {m m₁ m₂ : Machine} {xs ys : List Datum} {vs vs₁ : List Node}
  {line text prompt : String} {lines : List String} {pending : Option String}

/-- What a line leads to: the expressions that it completes, what is printed for them, and the
prompt after it. -/
structure Part where
  data : List Datum
  shown : String
  prompt : String

/-- A line that completes nothing. -/
def Part.more : Part := ⟨[], "", continuationPrompt⟩

/-- What is printed in all. -/
def transcript (parts : List Part) : String :=
  String.join (parts.map fun p => p.shown ++ p.prompt)

theorem transcript_cons (p : Part) (parts : List Part) :
    transcript (p :: parts) = p.shown ++ p.prompt ++ transcript parts := by
  rw [transcript, List.map_cons, String.join_cons]
  rfl

def withText (c : Console) (out : String) (pending : Option String) : Console :=
  { c with out, pending }

theorem Ready.remember_eq (hc : c.Ready) (line : String) : c.remember line = c := by
  rw [remember, hc.plain, Option.map_none, ← hc.plain]

theorem Ready.withText (hc : c.Ready) (out : String) (pending : Option String) :
    (c.withText out pending).Ready :=
  ⟨hc.quiet, hc.untraced, hc.sound, hc.plain⟩

theorem results_withText (c : Console) (out : String) (pending : Option String) (m : Machine)
    (vs : List Node) :
    (c.withText out pending).results m vs =
      (c.results m vs).withText (out ++ Event.traceText m.events ++ shown c.json m vs) pending := by
  rw [results_eq, results_eq]
  rfl

theorem Ready.handle_script (hc : c.Ready) (hp : Datum.parseAll text = .ok xs)
    (hr : Runs fuel c.machine xs vs m) : c.handle fuel text = (c.results m vs, true) := by
  unfold handle
  split
  · rename_i hb
    obtain rfl := Datum.parseAll_blank hb hp
    cases hr
    rw [hc.results_nil]
  · rw [Directive.ofLine?_script hp]
    dsimp only
    rw [evalLine_of_runs hp hr]

theorem Ready.step_complete (hc : c.Ready) (hi : ¬ Datum.isIncomplete (c.joined line) = true)
    (hp : Datum.parseAll (c.joined line) = .ok xs) (hr : Runs fuel c.machine xs vs m) :
    c.step fuel line =
      ((c.results m vs).withText ((c.results m vs).out ++ c.prompt) none, true) := by
  have hready := hc.withText c.out none
  have hhandle := hready.handle_script hp hr
  rw [results_withText] at hhandle
  have hconsole : { c with pending := none } = c.withText c.out none := rfl
  rw [step_of_not_incomplete hi, hc.remember_eq, hconsole, hhandle, results_eq]
  rfl

theorem Ready.step_waits (hc : c.Ready) (hi : Datum.isIncomplete (c.joined line) = true) :
    c.step fuel line =
      ((c.results c.machine []).withText ((c.results c.machine []).out ++ continuationPrompt)
        (some (c.joined line)), true) := by
  rw [step_of_incomplete hi, hc.remember_eq, hc.results_nil]
  rfl

/-- After each number of lines the console is where a script of the expressions so far leads, but
for the prompts and the lines that wait. -/
def Follows (fuel : Nat) (c : Console) (lines : List String) (parts : List Part) : Prop :=
  ∀ k, ∃ vs m pending, Runs fuel c.machine ((parts.take k).flatMap Part.data) vs m ∧
    shown c.json m vs = String.join ((parts.take k).map Part.shown) ∧
    c.feed fuel (lines.take k) =
      (c.results m vs).withText (c.out ++ transcript (parts.take k) ++ "\n") pending

theorem Ready.feed_nil (hc : c.Ready) :
    c.feed fuel [] =
      (c.results c.machine []).withText (c.out ++ transcript [] ++ "\n") c.pending := by
  have htext : transcript [] = "" := rfl
  rw [hc.results_nil, htext, String.append_empty]
  rfl

theorem Ready.follows_nil (hc : c.Ready) (fuel : Nat) : Follows fuel c [] [] := by
  intro k
  rw [List.take_nil, List.take_nil]
  exact ⟨[], c.machine, c.pending, .nil, rfl, hc.feed_nil⟩

theorem Follows.cons (hc : c.Ready) (h₁ : Runs fuel c.machine ys vs₁ m₁) {c' : Console}
    (hc' : c' = (c.results m₁ vs₁).withText ((c.results m₁ vs₁).out ++ prompt) pending)
    (hstep : c.step fuel line = (c', true)) {parts : List Part}
    (h : Follows fuel c' lines parts) :
    Follows fuel c (line :: lines) (⟨ys, shown c.json m₁ vs₁, prompt⟩ :: parts) := by
  subst hc'
  intro k
  cases k with
  | zero => exact ⟨[], c.machine, c.pending, .nil, rfl, hc.feed_nil⟩
  | succ k =>
      obtain ⟨vs₂, m₂, pending', hr, hshown, hfeed⟩ := h k
      obtain ⟨hrun, hres, hall⟩ := hc.results_append h₁ hr
      have hjson : (c.results m₁ vs₁).json = c.json := by rw [results_eq]
      have htext : shown c.json m₂ vs₂ = String.join ((parts.take k).map Part.shown) := by
        rw [← hshown, ← hjson]
        rfl
      refine ⟨vs₁ ++ vs₂, _, pending', hrun, ?_, ?_⟩
      · rw [hall, htext, List.take_succ_cons, List.map_cons, String.join_cons]
      · have hout : (c.results m₁ vs₁).out ++ prompt ++ transcript (parts.take k) ++ "\n" =
            c.out ++ (shown c.json m₁ vs₁ ++ prompt ++ transcript (parts.take k)) ++ "\n" := by
          simp only [hc.out_results h₁, String.append_assoc]
        rw [List.take_succ_cons, List.take_succ_cons, feed, hstep, transcript_cons, hres, ← hout]
        dsimp only
        rw [hfeed, results_withText]
        rfl

/-- The lines that wait, and those to come. -/
def remaining (c : Console) (lines : List String) : String :=
  match c.pending with
  | none => unlines lines
  | some before => before ++ "\n" ++ unlines lines

theorem remaining_cons (c : Console) (line : String) (lines : List String) :
    c.remaining (line :: lines) = c.joined line ++ "\n" ++ unlines lines := by
  rw [remaining, joined, unlines_cons]
  cases c.pending with
  | none => rfl
  | some before => simp only [String.append_assoc]

theorem pending_of_remaining_nil (hp : Datum.parseAll (c.remaining []) = .ok xs)
    (hw : ∀ text, c.pending = some text → Datum.isIncomplete text = true) :
    c.pending = none ∧ xs = [] := by
  rw [remaining] at hp
  cases hpending : c.pending with
  | none =>
      rw [hpending] at hp
      exact ⟨rfl, Datum.parseAll_blank rfl hp⟩
  | some before =>
      rw [hpending] at hp
      exact absurd hp (Datum.not_parseAll_of_incomplete (hw before hpending))

/-- The loop takes the lines in these parts, one for each, and nothing waits at the end. -/
structure Takes (fuel : Nat) (c : Console) (lines : List String) (xs : List Datum)
    (parts : List Part) : Prop where
  length : parts.length = lines.length
  data : parts.flatMap Part.data = xs
  prompts : ∀ p ∈ parts, p.prompt = c.prompt ∨ p = .more
  follows : Follows fuel c lines parts
  done : (c.feed fuel lines).pending = none

theorem Takes.cons (hc : c.Ready) (h₁ : Runs fuel c.machine ys vs₁ m₁) {c' : Console}
    (hc' : c' = (c.results m₁ vs₁).withText ((c.results m₁ vs₁).out ++ prompt) pending)
    (hstep : c.step fuel line = (c', true))
    (hprompt : prompt = c.prompt ∨ Part.mk ys (shown c.json m₁ vs₁) prompt = .more)
    {zs : List Datum} {parts : List Part} (h : Takes fuel c' lines zs parts) :
    Takes fuel c (line :: lines) (ys ++ zs) (⟨ys, shown c.json m₁ vs₁, prompt⟩ :: parts) where
  length := by rw [List.length_cons, List.length_cons, h.length]
  data := by rw [List.flatMap_cons, h.data]
  prompts := by
    have hsame : c'.prompt = c.prompt := by
      rw [hc', results_eq]
      rfl
    exact List.forall_mem_cons.mpr ⟨hprompt, hsame ▸ h.prompts⟩
  follows := .cons hc h₁ hc' hstep h.follows
  done := by
    rw [feed, hstep]
    exact h.done

theorem Ready.takes_script (hc : c.Ready) (hp : Datum.parseAll (c.remaining lines) = .ok xs)
    (hw : ∀ text, c.pending = some text → Datum.isIncomplete text = true)
    (hr : Runs fuel c.machine xs vs m) : ∃ parts, Takes fuel c lines xs parts := by
  induction lines generalizing c xs vs m with
  | nil =>
      obtain ⟨hnone, rfl⟩ := pending_of_remaining_nil hp hw
      exact ⟨[], rfl, rfl, by simp, hc.follows_nil fuel, hnone⟩
  | cons line lines ih =>
      rw [remaining_cons] at hp
      by_cases hi : Datum.isIncomplete (c.joined line) = true
      · have hnil : Runs fuel c.machine [] [] c.machine := .nil
        have hready := (hc.results hnil).withText
          ((c.results c.machine []).out ++ continuationPrompt) (some (c.joined line))
        obtain ⟨m', hr'⟩ := runs_results c [] hr
        obtain ⟨parts, hparts⟩ := ih hready hp
          (fun text ht => Option.some.inj ht ▸ hi) hr'
        exact ⟨_, .cons hc hnil rfl (hc.step_waits hi) (.inr rfl) hparts⟩
      · obtain ⟨ys, hy⟩ := Datum.parseAll_of_not_incomplete hp hi
        obtain ⟨zs, hz, rfl⟩ := Datum.parseAll_split hp hy
        obtain ⟨vs₁, vs₂, m₁, h₁, h₂, rfl⟩ := hr.split
        have hready := (hc.results h₁).withText ((c.results m₁ vs₁).out ++ c.prompt) none
        obtain ⟨m', hr'⟩ := runs_results c vs₁ h₂
        obtain ⟨parts, hparts⟩ := ih hready hz (fun text ht => by cases ht) hr'
        exact ⟨_, .cons hc h₁ rfl (hc.step_complete hi hy h₁) (.inl rfl) hparts⟩

theorem ready_ofMachine {F : Multiset Cell} (hm : m.Sound False ∅ 0 F) (d : Directory)
    (prompt : String) (json : Bool) :
    (ofMachine { m with tracing := false, events := #[] } d prompt json).Ready :=
  ⟨rfl, rfl, ⟨F, hm.store, hm.scopes, False.elim⟩, rfl⟩

/-- The loop on the text of a script whose last line is not lost. -/
theorem Ready.loop_script (hc : c.Ready) (hnone : c.pending = none)
    (hend : Text.endsFull text = false) (hp : Datum.parseAll text = .ok xs)
    (hr : Runs fuel c.machine xs vs m) :
    ∃ parts, Takes fuel (c.print c.prompt) (Text.lines text) xs parts ∧
      shown c.json m vs = String.join (parts.map Part.shown) ∧
      c.loop fuel true true text =
        { c.results m vs with out := c.out ++ c.prompt ++ transcript parts ++ "\n" } := by
  have hc₀ : (c.print c.prompt).Ready := hc.withText (c.out ++ c.prompt) c.pending
  have hremaining : (c.print c.prompt).remaining (Text.lines text) = unlines (Text.lines text) := by
    rw [remaining, pending_print, hnone]
  obtain ⟨parts, hparts⟩ := hc₀.takes_script
    (by rw [hremaining]; exact Datum.parseAll_unlines hend hp)
    (fun text ht => by rw [pending_print, hnone] at ht; cases ht) hr
  obtain ⟨vs', m', pending, hr', hshown, hfeed⟩ := hparts.follows parts.length
  rw [List.take_length, hparts.data] at hr'
  rw [List.take_length] at hshown
  rw [List.take_length, hparts.length, List.take_length] at hfeed
  obtain ⟨rfl, rfl⟩ := hr.unique hr'
  obtain rfl : pending = none := by
    have hdone := hparts.done
    rw [hfeed] at hdone
    exact hdone
  refine ⟨parts, hparts, hshown, ?_⟩
  have hloop : c.loop fuel true true text =
      ((c.print c.prompt).feed fuel (Text.lines text)).writeHistory := rfl
  have hprint : c.print c.prompt = c.withText (c.out ++ c.prompt) none := by
    rw [← hnone]
    rfl
  rw [hloop, hfeed, hprint, results_withText, results_eq]
  simp only [hc.plain, hnone]
  rfl

/-- The loop and a script agree on every text that is read whole, on every machine that a host leads
to, if no expression fails: each line makes the loop evaluate the next expressions of the script,
none or some; at each time the machine is that of a script of the expressions so far; at the end the
console is that of the script but for its output, in which the prompts and the end of the last line
are added to what the script prints. -/
theorem loop_eq_script (table : Named Builtin) (limit : Int) (tracing : Bool)
    (before after : List String) (steps : List HostStep) (d : Directory) (prompt : String)
    (json : Bool) (fuel : Nat) {text : String} (hend : Text.endsFull text = false)
    {xs : List Datum} (hp : Datum.parseAll text = .ok xs) :
    let h := (Host.start table limit tracing before after).run steps
    let c := ofMachine { h.machine with tracing := false, events := #[] } d prompt json
    let script := c.evalLine fuel text
    script.1 = none →
    ∃ parts : List Part, parts.length = (Text.lines text).length ∧
      parts.flatMap Part.data = xs ∧ (∀ p ∈ parts, p.prompt = prompt ∨ p = .more) ∧
      script.2.out = String.join (parts.map Part.shown) ∧
      c.loop fuel true true text = { script.2 with out := prompt ++ transcript parts ++ "\n" } ∧
      ∀ k, let sofar := Machine.evalSeq fuel c.machine [] ((parts.take k).flatMap Part.data)
        sofar.1.2 = none ∧ ((c.start true true).feed fuel ((Text.lines text).take k)).machine =
          { sofar.2 with events := #[] } := by
  intro h c script hok
  have hs : h.Sound := (Host.sound_start table limit tracing before after).run steps
  have hc : c.Ready := ready_ofMachine hs.machine d prompt json
  obtain ⟨vs, m, hr⟩ := runs_of_evalLine hp hok
  have hscript : script.2 = c.results m vs := congrArg Prod.snd (evalLine_of_runs hp hr)
  obtain ⟨parts, hparts, hshown, hloop⟩ := hc.loop_script rfl hend hp hr
  refine ⟨parts, hparts.length, hparts.data, hparts.prompts, ?_, ?_, fun k => ?_⟩
  · rw [hscript, hc.out_results hr, hshown]
    exact String.empty_append
  · have hout : c.out ++ c.prompt = prompt := String.empty_append
    rw [hloop, hscript, hout]
  · obtain ⟨vs', m', pending, hr', _, hfeed⟩ := hparts.follows k
    have hseq : Machine.evalSeq fuel c.machine [] ((parts.take k).flatMap Part.data) =
        ((vs', none), m') := hr'.evalSeq_eq []
    have hstart : c.start true true = c.print c.prompt := rfl
    rw [hstart, hfeed, hseq]
    exact ⟨rfl, machine_results _ m' vs'⟩

def adding : Console :=
  ofMachine { ((Host.start (Builtin.table [("+", ⟨2, .arith .add⟩)]) 0 false [] []).run []).machine
    with tracing := false, events := #[] } .empty "> " false

/-- An expression over two lines, another on the second of them, an empty line, and a line without
an end. -/
theorem loop_eq_script_broken :
    let script := adding.evalLine 4 "(+ 1\n 2) 4\r\n\n5"
    Text.lines "(+ 1\n 2) 4\r\n\n5" = ["(+ 1", " 2) 4", "", "5"] ∧
      script.1 = none ∧ script.2.out = "3\n4\n5\n" ∧
      ∃ parts : List Part, parts.length = 4 ∧
        parts.flatMap Part.data = [.list [.symbol "+", .int 1, .int 2], .int 4, .int 5] ∧
        script.2.out = String.join (parts.map Part.shown) ∧
        adding.loop 4 true true "(+ 1\n 2) 4\r\n\n5" =
          { script.2 with out := "> " ++ transcript parts ++ "\n" } := by
  have hend : Text.endsFull "(+ 1\n 2) 4\r\n\n5" = false := by decide +kernel
  have hp : Datum.parseAll "(+ 1\n 2) 4\r\n\n5" =
      .ok [.list [.symbol "+", .int 1, .int 2], .int 4, .int 5] := by rfl
  have hlines : Text.lines "(+ 1\n 2) 4\r\n\n5" = ["(+ 1", " 2) 4", "", "5"] := by decide +kernel
  obtain ⟨parts, hlen, hdata, _, hshown, hloop, _⟩ :=
    loop_eq_script (Builtin.table [("+", ⟨2, .arith .add⟩)]) 0 false [] [] [] .empty "> " false 4
      hend hp (by decide +kernel)
  rw [hlines] at hlen
  refine ⟨hlines, by decide +kernel, by decide +kernel, parts, hlen, hdata, ?_, ?_⟩
  · rw [adding, hshown]
  · rw [adding, hloop]

/-- A sum on a line that ends in spaces. -/
def padded (n : Nat) : String :=
  String.ofList ("(+ 1 2)".toList ++ List.replicate n ' ')

theorem toList_padded (n : Nat) : (padded n).toList = "(+ 1 2)".toList ++ List.replicate n ' ' :=
  String.toList_ofList

theorem parseAll_padded (n : Nat) :
    Datum.parseAll (padded n) = .ok [.list [.symbol "+", .int 1, .int 2]] := by
  have hsum : Datum.parseAll "(+ 1 2)" = .ok [.list [.symbol "+", .int 1, .int 2]] := by rfl
  obtain ⟨ls, cut, hds⟩ := Datum.parseAll_eq_ok.mp hsum
  refine Datum.parseAll_eq_ok.mpr ⟨ls, ?_, hds⟩
  rw [toList_padded]
  exact cut.append_blanks fun b hb => by rw [List.eq_of_mem_replicate hb]; decide

theorem length_utf8_padded (n : Nat) : (Text.utf8 (padded n)).length = 7 + n := by
  have hspace : (String.utf8EncodeChar ' ').length = 1 := by decide
  have hsum : ("(+ 1 2)".toList.flatMap String.utf8EncodeChar).length = 7 := by decide
  rw [Text.utf8, toList_padded, List.flatMap_append, List.length_append, hsum,
    List.length_flatMap, List.map_replicate, List.sum_replicate_nat, hspace, Nat.mul_one]

theorem lines_padded : Text.lines (padded 4089) = [] := by
  refine Text.lines_full ?_ ?_ (length_utf8_padded 4089)
  · rw [toList_padded, List.mem_append, List.mem_replicate]
    decide
  · rw [toList_padded, List.mem_append, List.mem_replicate]
    decide

theorem evalLine_sum (hp : Datum.parseAll text = .ok [.list [.symbol "+", .int 1, .int 2]]) :
    (adding.evalLine 4 text).1 = none ∧ (adding.evalLine 4 text).2.out = "3\n" := by
  have hsum : Datum.parseAll "(+ 1 2)" = .ok [.list [.symbol "+", .int 1, .int 2]] := by rfl
  have hsame : adding.evalLine 4 text = adding.evalLine 4 "(+ 1 2)" := by
    simp only [evalLine, Machine.evalScript, hp, hsum]
  rw [hsame]
  exact ⟨by decide +kernel, by decide +kernel⟩

theorem loop_of_lines_nil (hlines : Text.lines text = []) :
    (adding.loop 4 true true text).out = "> \n" := by
  rw [loop, if_pos rfl, hlines]
  decide +kernel

/-- A line as wide as a stretch is lost if the input ends there: a script prints the sum, and the
loop only the prompt. -/
theorem loop_loses_line :
    Datum.parseAll (padded 4089) = .ok [.list [.symbol "+", .int 1, .int 2]] ∧
      (adding.evalLine 4 (padded 4089)).1 = none ∧
      (adding.evalLine 4 (padded 4089)).2.out = "3\n" ∧
      (adding.loop 4 true true (padded 4089)).out = "> \n" :=
  have hp := parseAll_padded 4089
  ⟨hp, (evalLine_sum hp).1, (evalLine_sum hp).2, loop_of_lines_nil lines_padded⟩

end CellScheme.Console
