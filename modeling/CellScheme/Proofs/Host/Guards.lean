import CellScheme.Session
import Mathlib.Data.List.Infix

/-!
Guards of frames. A guard remembers only how many frames were on the chain below its own, and that
it has been used. Frames come and go at the inner end of the chain: so a frame is still there if the
chain has been longer ever since, and its guard then leaves the frames below it. Once the frame is
gone, the guard does nothing if it has been used or if the chain is not longer than it was below the
frame; otherwise it takes frames that are not its own.
-/

namespace CellScheme

namespace Scopes

theorem length_frames (s : Scopes) : s.frames.length = s.depth := by
  rw [frames, List.length_append]
  rfl

theorem depth_pos (s : Scopes) : 0 < s.depth :=
  Nat.succ_pos _

theorem frames_truncate (s : Scopes) (size : Nat) :
    (s.truncate size).1.frames = s.frames.drop (s.depth - max size 1) := by
  have inside : s.depth - max size 1 ≤ s.inner.length := by
    rw [depth]
    omega
  rw [truncate, frames, frames, List.drop_append_of_le_length inside]

end Scopes

namespace Machine

theorem truncate_of_depth_le {m : Machine} {size : Nat} (h : m.scopes.depth ≤ size) :
    m.truncate size = m := by
  have none : m.scopes.depth - max size 1 = 0 := by omega
  rw [truncate, Scopes.truncate, none]
  rfl

end Machine

/-- What a host does to the chain of frames. -/
inductive ScopeStep where
  | push (name : String) (bindings : List (Name × Datum))
  | release (guard : Nat)
  | truncate (size : Nat)
  | clear

namespace Session

def frames (s : Session) : List Frame :=
  s.machine.scopes.frames

def scope (s : Session) : ScopeStep → Session
  | .push name bindings => s.push name bindings
  | .release i => s.release i
  | .truncate size => s.modifyMachine (·.truncate size)
  | .clear => s.modifyMachine Machine.clear

def scopeAll (s : Session) (steps : List ScopeStep) : Session :=
  steps.foldl scope s

/-- At every moment of these steps, the first and the last one included, the chain has more than
`depth` frames. -/
def StaysAbove (s : Session) (depth : Nat) (steps : List ScopeStep) : Prop :=
  ∀ k, depth < (s.scopeAll (steps.take k)).frames.length

variable {s : Session} {steps : List ScopeStep} {step : ScopeStep}

theorem StaysAbove.first {depth : Nat} (h : s.StaysAbove depth (step :: steps)) :
    depth < (s.scope step).frames.length :=
  h 1

theorem StaysAbove.rest {depth : Nat} (h : s.StaysAbove depth (step :: steps)) :
    (s.scope step).StaysAbove depth steps :=
  fun k => h (k + 1)

theorem frames_pos (s : Session) : 0 < s.frames.length := by
  rw [frames, Scopes.length_frames]
  exact s.machine.scopes.depth_pos

theorem staysAbove_zero (s : Session) (steps : List ScopeStep) : s.StaysAbove 0 steps :=
  fun _ => frames_pos _

theorem release_used {i : Nat} {g : Guard} (h : s.guards[i]? = some g) (hd : g.done = true) :
    (s.release i).machine = s.machine := by
  rw [release, h]
  simp only [Machine.release, hd, if_true]

theorem release_unused {i : Nat} {g : Guard} (h : s.guards[i]? = some g) (hd : g.done = false) :
    (s.release i).machine = s.machine.truncate g.depth := by
  rw [release, h]
  simp only [Machine.release, hd, Bool.false_eq_true, if_false]

theorem frames_scope (s : Session) (step : ScopeStep) :
    (∃ f, (s.scope step).frames = f :: s.frames) ∨
      ∃ k, (s.scope step).frames = s.frames.drop k := by
  cases step with
  | push name bindings => exact .inl ⟨_, rfl⟩
  | truncate size => exact .inr ⟨_, Scopes.frames_truncate _ size⟩
  | clear => exact .inr ⟨_, Scopes.frames_truncate _ 1⟩
  | release i =>
      apply Or.inr
      cases hg : s.guards[i]? with
      | none => exact ⟨0, by rw [scope, release, hg]; rfl⟩
      | some g =>
          cases hd : g.done with
          | true => exact ⟨0, by rw [scope, frames, release_used hg hd]; rfl⟩
          | false =>
              refine ⟨s.machine.scopes.depth - max g.depth 1, ?_⟩
              rw [scope, frames, release_unused hg hd]
              exact Scopes.frames_truncate _ g.depth

/-- Outer frames stay as long as the chain is not cut among them. -/
theorem suffix_scope {fs : List Frame} (h : fs <:+ s.frames)
    (hlen : fs.length ≤ (s.scope step).frames.length) : fs <:+ (s.scope step).frames := by
  obtain ⟨f, hf⟩ | ⟨k, hk⟩ := s.frames_scope step
  · rw [hf]
    exact h.trans (List.suffix_cons f _)
  · rw [hk] at hlen ⊢
    exact List.suffix_of_suffix_length_le h (List.drop_suffix k _) hlen

theorem suffix_scopeAll {fs : List Frame} {depth : Nat} (h : fs <:+ s.frames)
    (hlen : fs.length ≤ depth + 1) (hs : s.StaysAbove depth steps) :
    fs <:+ (s.scopeAll steps).frames := by
  induction steps generalizing s with
  | nil => exact h
  | cons step steps ih =>
      exact ih (suffix_scope h (hlen.trans hs.first)) hs.rest

theorem guard_scope {i : Nat} {g : Guard} (h : s.guards[i]? = some g) (step : ScopeStep) :
    ∃ done, (s.scope step).guards[i]? = some ⟨g.depth, done⟩ ∧
      (done = true ↔ g.done = true ∨ step = .release i) := by
  cases step with
  | push name bindings =>
      refine ⟨g.done, ?_, by simp⟩
      exact (List.getElem?_append_left (List.getElem?_eq_some_iff.mp h).1).trans h
  | truncate size => exact ⟨g.done, h, by simp⟩
  | clear => exact ⟨g.done, h, by simp⟩
  | release j =>
      rw [scope, release]
      by_cases hj : j = i
      · refine ⟨true, ?_, by simp [hj]⟩
        subst hj
        rw [h]
        have set (g' : Guard) : (s.guards.set j g')[j]? = some g' := by
          rw [List.getElem?_set_self (List.getElem?_eq_some_iff.mp h).1]
        obtain ⟨depth, done⟩ := g
        cases done <;> exact set _
      · refine ⟨g.done, ?_, by simp [hj]⟩
        cases hg : s.guards[j]? with
        | none => exact h
        | some g' => exact (List.getElem?_set_ne hj).trans h

theorem guard_scopeAll {i : Nat} {g : Guard} (h : s.guards[i]? = some g)
    (steps : List ScopeStep) :
    ∃ done, (s.scopeAll steps).guards[i]? = some ⟨g.depth, done⟩ ∧
      (done = true ↔ g.done = true ∨ .release i ∈ steps) := by
  induction steps generalizing s g with
  | nil => exact ⟨g.done, h, by simp⟩
  | cons step steps ih =>
      obtain ⟨done, hg, hdone⟩ := guard_scope h step
      obtain ⟨done', hg', hdone'⟩ := ih hg
      refine ⟨done', hg', ?_⟩
      rw [hdone', hdone, List.mem_cons, or_assoc, eq_comm (a := step)]

/-- The first use of a guard cuts the chain down to the frames below its own. -/
theorem release_cuts {i : Nat} {g : Guard} (h : s.guards[i]? = some g) (hd : g.done = false)
    (hpos : 0 < g.depth) :
    (s.release i).frames = s.frames.drop (s.frames.length - g.depth) := by
  rw [frames, release_unused h hd]
  refine (Scopes.frames_truncate _ g.depth).trans ?_
  rw [max_eq_left hpos, frames, Scopes.length_frames]

/-- A guard whose frame is on the chain has not been used. -/
theorem StaysAbove.unused {i depth : Nat} (h : s.guards[i]? = some ⟨depth, false⟩)
    (hpos : 0 < depth) (hs : s.StaysAbove depth steps) : .release i ∉ steps := by
  induction steps generalizing s with
  | nil => simp
  | cons step steps ih =>
      obtain ⟨done, hg, hdone⟩ := guard_scope h step
      have other : step ≠ .release i := by
        rintro rfl
        have first := hs.first
        rw [scope, release_cuts h rfl hpos, List.length_drop] at first
        dsimp only at first
        omega
      have unused : done = false := by simpa [other] using hdone
      subst unused
      simpa [other.symm] using ih hg hs.rest

/-- After any frames have been pushed, guards used and the chain cut, the global frame is on the
chain. A guard whose frame is there leaves the frames that were on the chain when it was pushed. A
guard that has been used, or that finds no more frames than there were below its own, does nothing
to the machine; any other cuts the chain down to as many frames, whichever they are. -/
theorem release_exact (s : Session) (name : String) (bindings : List (Name × Datum))
    (steps : List ScopeStep) :
    let pushed := s.push name bindings
    let t := pushed.scopeAll steps
    let u := t.release s.guards.length
    t.frames.getLast? = some s.machine.scopes.global ∧
    u.frames.getLast? = some s.machine.scopes.global ∧
    (pushed.StaysAbove s.frames.length steps →
      pushed.frames <:+ t.frames ∧ u.frames = s.frames) ∧
    (.release s.guards.length ∈ steps ∨ t.frames.length ≤ s.frames.length →
      u.machine = t.machine) ∧
    (.release s.guards.length ∉ steps → s.frames.length < t.frames.length →
      u.frames = t.frames.drop (t.frames.length - s.frames.length)) := by
  intro pushed t u
  have global (steps : List ScopeStep) :
      (pushed.scopeAll steps).frames.getLast? = some s.machine.scopes.global := by
    have last : [s.machine.scopes.global] <:+ pushed.frames := ⟨_ :: _, rfl⟩
    obtain ⟨fs, hfs⟩ := suffix_scopeAll last le_rfl (pushed.staysAbove_zero steps)
    rw [← hfs, List.getLast?_concat]
  have given : pushed.guards[s.guards.length]? = some ⟨s.frames.length, false⟩ := by
    rw [frames, Scopes.length_frames]
    exact List.getElem?_concat_length
  obtain ⟨done, hg, hdone⟩ := guard_scopeAll given steps
  have cuts (hr : .release s.guards.length ∉ steps) :
      u.frames = t.frames.drop (t.frames.length - s.frames.length) := by
    have unused : done = false := by simpa [hr] using hdone
    subst unused
    exact release_cuts hg rfl s.frames_pos
  have released : u = pushed.scopeAll (steps ++ [.release s.guards.length]) := by
    rw [scopeAll, List.foldl_append]
    rfl
  refine ⟨global steps, released ▸ global _, fun hs => ?_, fun h => ?_, fun hr _ => cuts hr⟩
  · have hlen : pushed.frames.length = s.frames.length + 1 := rfl
    have on : pushed.frames <:+ t.frames := suffix_scopeAll (List.suffix_refl _) hlen.le hs
    have below : s.frames <:+ t.frames := (List.suffix_cons _ _).trans on
    refine ⟨on, ?_⟩
    rw [cuts (hs.unused given s.frames_pos)]
    exact (List.suffix_iff_eq_drop.mp below).symm
  · cases done with
    | true => exact release_used hg rfl
    | false =>
        have never : .release s.guards.length ∉ steps := by simpa using hdone
        refine (release_unused hg rfl).trans (Machine.truncate_of_depth_le ?_)
        rw [← Scopes.length_frames]
        exact h.resolve_left never

/-- The guard of the outer one of two frames takes both. -/
theorem release_exact_outer :
    let s := start .core 0 false false
    (((s.push "inner" [("x", .int 2)]).scopeAll [.push "deeper" []]).release 0).frames =
      s.frames := by
  intro s
  obtain ⟨_, _, own, _⟩ := release_exact s "inner" [("x", .int 2)] [.push "deeper" []]
  refine (own fun k => ?_).2
  match k with
  | 0 => exact Nat.lt_succ_self _
  | k + 1 =>
      rw [List.take_succ_cons, List.take_nil]
      exact Nat.lt_succ_of_lt (Nat.lt_succ_self _)

/-- The frame of the first guard went when the scopes were cleared. Its guard then takes the frame
that has been pushed since, and what that one binds. -/
theorem release_takes_other :
    let pushed := (start .none 0 false false).push "a" []
    let steps := [.clear, .push "b" [("x", .int 1)]]
    let t := pushed.scopeAll steps
    ¬ pushed.StaysAbove 1 steps ∧ t.machine.scopes.find? "x" = some (.int 1) ∧
      (t.release 0).machine.scopes.find? "x" = none := by
  intro pushed steps t
  refine ⟨fun h => ?_, by decide, by decide⟩
  exact absurd (h 1) (by decide)

end Session

end CellScheme
