/-
Systems that run down, program-independent.

A rank that every step lowers makes runs short: a run has no more steps
than the rank it starts with (`Ranked.length_le`), and it can be continued
until no step is left (`Ranked.ends`). Together with a proof that nothing is
left to do where no step is left, this turns "never stuck" into "always
completes", whatever the scheduler does.
-/
import OperatingSystem.Lib.Transition

namespace OperatingSystem.Lib

variable {σ α : Type*} {S : System σ α} {I : σ → Prop} {rank : σ → Nat}

/-- No step is left. -/
def Stuck (S : System σ α) (s : σ) : Prop := ∀ a, S.step a s = none

/-- Every step from a state that meets `I` keeps it and lowers the rank. -/
structure Ranked (S : System σ α) (I : σ → Prop) (rank : σ → Nat) : Prop where
  keep : ∀ a s s', I s → S.step a s = some s' → I s'
  drops : ∀ a s s', I s → S.step a s = some s' → rank s' < rank s

/-- A run uses up at least one of the rank with each step. -/
theorem Ranked.length_le (h : Ranked S I rank) :
    ∀ (acts : List α) {s s' : σ}, I s → run S acts s = some s' →
      acts.length + rank s' ≤ rank s
  | [], s, s', _, hrun => by
      obtain rfl : s = s' := Option.some.inj hrun
      simp
  | a :: rest, s, s', hs, hrun => by
      cases hst : S.step a s with
      | none => simp [run, hst] at hrun
      | some t =>
          simp only [run, hst] at hrun
          have ih := h.length_le rest (h.keep a s t hs hst) hrun
          have hdrop := h.drops a s t hs hst
          rw [List.length_cons]
          omega

/-- Every state can be run until no step is left. -/
theorem Ranked.ends (h : Ranked S I rank) {s : σ} (hs : I s) :
    ∃ acts s', run S acts s = some s' ∧ I s' ∧ Stuck S s' := by
  induction hn : rank s using Nat.strongRecOn generalizing s with
  | ind n ih =>
      by_cases hstuck : Stuck S s
      · exact ⟨[], s, rfl, hs, hstuck⟩
      · obtain ⟨a, ha⟩ := not_forall.mp hstuck
        obtain ⟨t, hst⟩ := Option.ne_none_iff_exists'.mp ha
        obtain ⟨acts, s', hrun, hs', hend⟩ := ih (rank t)
          (hn ▸ h.drops a s t hs hst) (h.keep a s t hs hst) rfl
        refine ⟨a :: acts, s', ?_, hs', hend⟩
        simp only [run, hst]
        exact hrun

/-- What `I` says holds at the end of a run. -/
theorem Ranked.run_keeps (h : Ranked S I rank) {acts : List α} {s s' : σ}
    (hs : I s) (hrun : run S acts s = some s') : I s' :=
  (run_steps acts (along_anything acts s) hrun).invariant
    (fun a t t' ht _ hst => h.keep a t t' ht hst) hs

end OperatingSystem.Lib
