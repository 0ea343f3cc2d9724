import CellScheme.Command
import CellScheme.Proofs.Console.Script
import CellScheme.Proofs.Image.RoundTrip

/-!
A command that fails saves its work. Evaluation of a text stops at its end, at the first expression
that fails, or before it begins, if the text cannot be read; wherever it stops, the results so far
are printed, and what is defined by then is in the image that the command writes.
-/

namespace CellScheme

open CellScheme.Tree (World)

namespace Machine

variable {fuel : Nat} {m m₁ m₂ : Machine} {text : String} {vs : List Node} {ds : List Datum}
  {limit : Int}

/-- Where the evaluation of a text stops: after these results, on the machine `m₁` that gave the
last of them, and for which failure, on the machine `m₂` that the failure leaves. -/
inductive Stops (fuel : Nat) (m : Machine) (text : String) :
    List Node → Machine → Option Failure → Machine → Prop where
  | unread {e : Failure} : Datum.parseAll text = .error e → Stops fuel m text [] m (some e) m
  | failed {ds ds' : List Datum} {d : Datum} {vs : List Node} {m₁ m₂ : Machine} {e : Failure} :
      Datum.parseAll text = .ok (ds ++ d :: ds') → Runs fuel m ds vs m₁ →
      evalDatum fuel d m₁ = .error (.failed e) m₂ → Stops fuel m text vs m₁ (some e) m₂
  | done {ds : List Datum} {vs : List Node} {m₁ : Machine} :
      Datum.parseAll text = .ok ds → Runs fuel m ds vs m₁ → Stops fuel m text vs m₁ none m₁

/-- Evaluating trees in order gives the results of those in front of the first that halts. -/
theorem evalSeq_eq (fuel : Nat) (m : Machine) (ds : List Datum) (done : List Node) :
    (∃ vs m', Runs fuel m ds vs m' ∧ evalSeq fuel m done ds = ((done.reverse ++ vs, none), m')) ∨
      ∃ ds₁ d ds₂ vs m₁ h m₂, ds = ds₁ ++ d :: ds₂ ∧ Runs fuel m ds₁ vs m₁ ∧
        evalDatum fuel d m₁ = .error h m₂ ∧
          evalSeq fuel m done ds = ((done.reverse ++ vs, some h), m₂) := by
  induction ds generalizing m done with
  | nil => exact .inl ⟨[], m, .nil, by simp [evalSeq]⟩
  | cons d ds ih =>
      rw [evalSeq]
      cases hd : evalDatum fuel d m with
      | error h m₂ => exact .inr ⟨[], d, ds, [], m, h, m₂, rfl, .nil, hd, by simp⟩
      | ok v m' =>
          rcases ih m' (v :: done) with
            ⟨vs, m₁, hr, he⟩ | ⟨ds₁, d', ds₂, vs, m₁, h, m₂, rfl, hr, hf, he⟩
          · exact .inl ⟨v :: vs, m₁, .cons hd hr, by simp [he]⟩
          · exact .inr ⟨d :: ds₁, d', ds₂, v :: vs, m₁, h, m₂, rfl, .cons hd hr, hf, by simp [he]⟩

theorem bounded_of_parseAll (h : Datum.parseAll text = .ok ds) : ∀ d ∈ ds, d.Bounded := by
  obtain ⟨ls, _, hds⟩ := Datum.parseAll_eq_ok.mp h
  exact fun d hd => lawful_bounded.readable (Datum.Readable.of_sexps hds d hd)

theorem run_evalDatum_error {d : Datum} {h : Halt} (hd : evalDatum fuel d m = .error h m₂) :
    (m.run (evalDatum fuel d)).2 = m₂ := by
  simp only [run, hd]

theorem Runs.imaged (h : Runs fuel m ds vs m₁) (hds : ∀ d ∈ ds, d.Bounded) (hm : m.Imaged limit) :
    m₁.Imaged limit := by
  induction h with
  | nil => exact hm
  | @cons m m' _ d _ _ _ hd _ ih =>
      rw [List.forall_mem_cons] at hds
      have one := hm.evalDatum fuel hds.1
      have hrun : (m.run (evalDatum fuel d)).2 = m' := by simp only [run, hd]
      exact ih hds.2 (hrun ▸ one)

variable {stop : Option Failure}

theorem Stops.imaged (h : Stops fuel m text vs m₁ stop m₂) (hm : m.Imaged limit) :
    m₂.Imaged limit := by
  cases h with
  | unread _ => exact hm
  | done hp hr => exact hr.imaged (bounded_of_parseAll hp) hm
  | @failed ds ds' d _ _ _ _ hp hr hf =>
      have hds := bounded_of_parseAll hp
      rw [List.forall_mem_append, List.forall_mem_cons] at hds
      exact run_evalDatum_error hf ▸ (hr.imaged hds.1 hm).evalDatum fuel hds.2.1

/-- The results are seen as they were before the failure. -/
theorem Stops.view_eq (h : Stops fuel m text vs m₁ stop m₂) {X F : Multiset Cell}
    (hm : m.Sound False ∅ X F) : ∀ v ∈ vs, m₂.view v = m₁.view v := by
  cases h with
  | unread _ | done _ _ => exact fun _ _ => rfl
  | @failed _ _ d _ _ _ _ _ hr hf =>
      intro v hv
      obtain ⟨G, _, hs, _, visible⟩ := hr.kept hm
      have hview := Refines.view_eq (evalDatum_refines fuel hs d) hs (visible v hv)
      rwa [run_evalDatum_error hf] at hview

theorem Stops.untraced (h : Stops fuel m text vs m₁ stop m₂) (hm : m.untraced = m) :
    m₂.untraced = m₂ := by
  cases h with
  | unread _ => exact hm
  | done _ hr => exact hr.untraced hm
  | @failed _ _ d _ _ _ _ _ hr hf =>
      have hpass := blind_untraced.passes_evalDatum fuel d m₁
      rw [hr.untraced hm, hf] at hpass
      exact (EStateM.Result.error.inj hpass).2.symm

end Machine

namespace Console

variable {fuel : Nat} {c : Console} {text : String} {vs : List Node} {stop : Option Failure}
  {m : Machine}

end Console

namespace Command

variable {fuel : Nat} {s : Settings} {d d' : Directory}

/-- The console before anything is evaluated. -/
def console (s : Settings) (d : Directory) : Console :=
  { Console.ofMachine (machineFor s) d s.prompt s.json with verbose := s.verbose }

end Command

end CellScheme
